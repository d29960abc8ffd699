import HeapImage.SystemCalls
import HeapImage.Table

/-!
# Files by path

Files, and what a path leads to, seen from one directory. The directories are this one and those
above it, up to the root, and none below: nothing is below a file, and a name with a slash after
it asks for a directory that is not there.
-/

namespace HeapImage
set_option autoImplicit false

def nameLimit : Nat := 255

def pathLimit : Nat := 4095

/-- The path of the directory, which a relative path goes on from, takes up this many bytes. -/
def ownPathSize : Nat := 31

/-- The files by folder and name; the folder is empty for the directory itself. -/
abbrev Disk := Table Bytes

/-- What a path leads to: a directory, or a name in one. -/
inductive Place where
  | directory
  | name (folder text : String) (asDirectory : Bool)
deriving DecidableEq

inductive Opened where
  | file (bytes : Bytes)
  | directory
deriving DecidableEq

def fitsName (text : String) : Bool := text.utf8ByteSize ≤ nameLimit

/-- The directory above. Nothing is above the root. -/
def parentFolder (folder : String) : String :=
  if folder = "/" then folder else folder ++ "../"

namespace Disk

/-- Follow the parts of a path from a folder on. The last name is not looked up. -/
def follow (d : Disk) (folder : String) : List String → Except FileError Place
  | [] => .ok .directory
  | part :: rest =>
    if part = "" ∨ part = "." then d.follow folder rest
    else if part = ".." then d.follow (parentFolder folder) rest
    else if rest.all String.isEmpty then .ok (.name folder part !rest.isEmpty)
    else if !fitsName part then .error .nameTooLong
    else if d.contains (folder ++ part) then .error .notADirectory
    else .error .notFound

def locate (d : Disk) (path : String) : Except FileError Place :=
  let fromRoot := path.startsWith "/"
  if pathLimit < path.utf8ByteSize + (if fromRoot then 0 else ownPathSize) then
    .error .nameTooLong
  else d.follow (if fromRoot then "/" else "") (path.splitOn "/")

def lookUp (d : Disk) (path : String) : Except FileError Opened :=
  match d.locate path with
  | .error e => .error e
  | .ok .directory => .ok .directory
  | .ok (.name folder text asDirectory) =>
    if !fitsName text then .error .nameTooLong
    else
      match d.find? (folder ++ text) with
      | none => .error .notFound
      | some bytes => if asDirectory then .error .notADirectory else .ok (.file bytes)

/-- Directories can be opened for reading only. -/
def openFile (d : Disk) (path : String) (readable : Bool) : Except FileError Opened :=
  match d.lookUp path with
  | .error e => .error e
  | .ok .directory => if readable then .ok .directory else .error .isADirectory
  | .ok (.file bytes) => .ok (.file bytes)

def readAll (d : Disk) (path : String) : Except FileError Bytes :=
  if path.contains '\x00' then .error .nulInPath
  else
    match d.lookUp path with
    | .error e => .error e
    | .ok .directory => .error .isADirectory
    | .ok (.file bytes) => .ok bytes

/-- Replace or create a file. A name with a slash after it is refused before it is looked at. -/
def writeAll (d : Disk) (path : String) (bytes : Bytes) : Except FileError Disk :=
  if path.contains '\x00' then .error .nulInPath
  else
    match d.locate path with
    | .error e => .error e
    | .ok .directory => .error .isADirectory
    | .ok (.name folder text asDirectory) =>
      if asDirectory then .error .isADirectory
      else if fitsName text then .ok (d.insert (folder ++ text) bytes)
      else .error .nameTooLong

end Disk
end HeapImage
