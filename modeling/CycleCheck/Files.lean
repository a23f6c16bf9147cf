import CycleCheck.Fault

/-!
Files as values: a tree of named files below one directory, and what opening a path in it gives.
-/

namespace CycleCheck

/-- Why a file cannot be read. -/
inductive FileError where
  | notFound (path : String)
  | notDirectory (path : String)
  | isDirectory (path : String)
  | invalidName (path : String)
  | nameTooLong (path : String)

def FileError.message : FileError → String
  | .notFound path => "open " ++ path ++ ": no such file or directory"
  | .notDirectory path => "open " ++ path ++ ": not a directory"
  | .isDirectory path => "read " ++ path ++ ": is a directory"
  | .invalidName path => "open " ++ path ++ ": invalid argument"
  | .nameTooLong path => "open " ++ path ++ ": file name too long"

def FileError.fault (e : FileError) : Fault := .plain e.message

/-- Files with their paths below the working directory. -/
abbrev Files := List (String × ByteArray)

namespace Files

/-- The elements of a path, empty ones and points left out. -/
def elements (path : String) : List String :=
  (path.splitOn "/").filter fun e => !e.isEmpty && e ≠ "."

def isDirectory (files : Files) (dir : List String) : Bool :=
  dir.isEmpty || files.any fun f => dir.isPrefixOf (elements f.1) && dir ≠ elements f.1

def file? (files : Files) (path : List String) : Option ByteArray :=
  (files.find? fun f => elements f.1 == path).map Prod.snd

/-- Walks a path from a directory. Above the working directory nothing is known to be. -/
def walk (files : Files) (path : String) : List String → List String → Except FileError ByteArray
  | dir, [] => if files.isDirectory dir then .error (.isDirectory path) else .error (.notFound path)
  | dir, e :: rest =>
      if e = ".." then
        match dir with
        | [] => .error (.notFound path)
        | _ :: _ => walk files path dir.dropLast rest
      else if e.utf8ByteSize > 255 then .error (.nameTooLong path)
      else
        let here := dir ++ [e]
        match files.file? here with
        | some data => if rest.isEmpty then .ok data else .error (.notDirectory path)
        | none =>
            if files.isDirectory here then walk files path here rest else .error (.notFound path)

/-- Reads the file at a path. -/
def read (files : Files) (path : String) : Except FileError ByteArray :=
  if path.toList.any (·.toNat = 0) then .error (.invalidName path)
  else if path.isEmpty || path.startsWith "/" then .error (.notFound path)
  else if path.endsWith "/" then
    match files.file? (elements path) with
    | some _ => .error (.notDirectory path)
    | none => files.walk path [] (elements path)
  else files.walk path [] (elements path)

def remove (files : Files) (path : String) : Files := files.filter (·.1 ≠ path)

end Files

end CycleCheck
