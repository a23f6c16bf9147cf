import CycleCheck.CommandLine.Launch

/-!
The program on a real file system. Solver programs cannot be run from here.
-/

namespace CycleCheck

/-- Why a file of the file system cannot be read. -/
def fileError (path : String) : IO.Error → FileError
  | .inappropriateType .. => .isDirectory path
  | .noFileOrDirectory .. => .notFound path
  | .invalidArgument .. => .invalidName path
  | _ => .notFound path

def readBytes (path : String) : IO (Except FileError ByteArray) :=
  try
    return .ok (← IO.FS.readBinFile path)
  catch e =>
    return .error (fileError path e)

def world : CommandLine.World IO where
  read := readBytes
  programs := Solver.Programs.none
  elapsed := "0s"

end CycleCheck

def main (args : List String) : IO UInt32 := do
  let (exitValue, output) ← CycleCheck.CommandLine.launch CycleCheck.world args
  IO.print output
  return exitValue.toUInt32
