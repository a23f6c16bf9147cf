import CycleCheck.Cartridge.INes
import CycleCheck.Digest.Sha1
import CycleCheck.Files
import CycleCheck.Text.Folding
import CycleCheck.Text.Path
import CycleCheck.Text.Url

/-!
Loading of cartridges. The name is a file name or a URL; data is kept with its SHA-1 hash once it
is loaded, and a hash that is set before loading must be the hash of the data. Files and the network
are reached through functions that are handed in.
-/

namespace CycleCheck.Cartridge

inductive LoaderError where
  | unsupportedExtension (extension : String)
  | unsupportedScheme (scheme : String)
  | unreadable (e : FileError)
  | unreachable (why : String)
  | unexpectedHash (hash : String)
  | nothingLoaded
  | ines (e : INes.INesError)

def LoaderError.fault : LoaderError → Fault
  | .unsupportedExtension extension =>
      .patterned "cartridgeloader: unsupported file extension (%s)" [.text extension]
  | .unsupportedScheme scheme =>
      .patterned "cartridgeloader: %v" [.text ("unsupported URL scheme (" ++ scheme ++ ")")]
  | .unreadable e => .patterned "cartridgeloader: %v" [.fault e.fault]
  | .unreachable why => .patterned "cartridgeloader: %v" [.fault (.plain why)]
  | .unexpectedHash hash =>
      .patterned "cartridgeloader: %v" [.text ("unexpected hash value (" ++ hash ++ ")")]
  | .nothingLoaded => .patterned "cartridgeloader: %v" [.text "no data loaded"]
  | .ines e => e.fault

structure Loader where
  filename : String
  /-- the hash in hexadecimal; the hash is not checked if it is empty -/
  hash : String := ""
  data : ByteArray := .empty

namespace Loader

/-- The last element of the name without its extension. -/
def shortName (cl : Loader) : String :=
  Text.withoutSuffix (Text.pathBase cl.filename) (Text.pathExtension cl.filename)

def hasLoaded (cl : Loader) : Bool := cl.data.size > 0

/-- SHA-1 in hexadecimal. -/
def hashText (data : ByteArray) : String :=
  let d := Digest.Sha1.sum data
  String.join ([d.a, d.b, d.c, d.d, d.e].map fun w => Text.hexPadded 8 w.toNat)

/-- The scheme of the name, and the path to load from. -/
def target (cl : Loader) : String × String :=
  match Text.Url.parse? cl.filename with
  | none => ("", cl.filename)
  | some url => (url.scheme, if url.path.isEmpty then cl.filename else url.path)

/-- Where data comes from. -/
inductive Source where
  | file (path : String)
  | network (url : String)
deriving DecidableEq

/-- Where to load from. -/
def source (cl : Loader) : Except LoaderError Source :=
  let (scheme, path) := cl.target
  let extension := Text.pathExtension path
  if !Text.equalFold extension ".nes" then .error (.unsupportedExtension extension)
  else if scheme = "http" ∨ scheme = "https" then .ok (.network cl.filename)
  else if scheme = "file" ∨ scheme = "" then .ok (.file path)
  else .error (.unsupportedScheme scheme)

/-- Keeps data if the hash allows it. -/
def accept (cl : Loader) (data : ByteArray) : Except LoaderError Loader :=
  let hash := hashText data
  if !cl.hash.isEmpty ∧ !Text.equalFold cl.hash hash then .error (.unexpectedHash hash)
  else .ok { cl with hash, data }

/-- Loads the data, unless that is done. A file is read by one function, and what the network has
for a URL is fetched by another, which tells why it cannot be had. -/
def loadFrom {m : Type → Type} [Monad m] (cl : Loader)
    (read : String → m (Except FileError ByteArray))
    (fetch : String → m (Except String ByteArray)) : m (Except LoaderError Loader) :=
  if cl.hasLoaded then pure (.ok cl)
  else match cl.source with
    | .error e => pure (.error e)
    | .ok (.file path) => do
        match ← read path with
        | .error e => pure (.error (.unreadable e))
        | .ok data => pure (cl.accept data)
    | .ok (.network url) => do
        match ← fetch url with
        | .error why => pure (.error (.unreachable why))
        | .ok data => pure (cl.accept data)

/-- Loads without a network. -/
def load {m : Type → Type} [Monad m] (cl : Loader)
    (read : String → m (Except FileError ByteArray)) : m (Except LoaderError Loader) :=
  cl.loadFrom read fun url => pure (.error ("no network for " ++ url))

/-- The ROM in the data. -/
def rom (cl : Loader) : Except LoaderError Rom :=
  if !cl.hasLoaded then .error .nothingLoaded
  else (INes.parse cl.data cl.shortName).mapError .ines

end Loader

end CycleCheck.Cartridge
