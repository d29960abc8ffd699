import HeapImage.Bytes.LittleEndian

/-!
# Calls of the operating system

What is asked of the system when files are read, mapped and written. How the system does it is not
known here: the calls are given, and act on a state that nothing else looks into.
-/

namespace HeapImage
set_option autoImplicit false

inductive FileError where
  | notFound
  | notADirectory
  | isADirectory
  | nameTooLong
  | invalidArgument
  | badDescriptor
  | noDevice
  | outOfMemory
  | valueTooLarge
  | unexpectedEnd
  /-- The name of a file to be opened holds a zero byte. -/
  | nulInName
  /-- The name of a file to be read or written as a whole holds a zero byte. -/
  | nulInPath
deriving DecidableEq

def FileError.message : FileError → String
  | notFound => "No such file or directory (os error 2)"
  | notADirectory => "Not a directory (os error 20)"
  | isADirectory => "Is a directory (os error 21)"
  | nameTooLong => "File name too long (os error 36)"
  | invalidArgument => "Invalid argument (os error 22)"
  | badDescriptor => "Bad file descriptor (os error 9)"
  | noDevice => "No such device (os error 19)"
  | outOfMemory => "Cannot allocate memory (os error 12)"
  | valueTooLarge => "Value too large for defined data type (os error 75)"
  | unexpectedEnd => "unexpected end of file"
  | nulInName => "data provided contains a nul byte"
  | nulInPath => "file name contained an unexpected NUL byte"

/-- What an opened file can be used for. -/
inductive Access where
  | read
  | write
deriving DecidableEq

/-- A request for memory that shows a part of a file. -/
structure MapRequest where
  /-- An address that would be welcome. -/
  hint : UInt64
  length : Nat
  writable : Bool
  /-- Nobody else sees what is stored there, and neither does the file. -/
  ownCopy : Bool
  offset : Int

def pageSize : Nat := 4096

/-- The calls, for opened files `φ` and mapped memory `μ`. -/
structure SystemCalls (σ φ μ : Type) where
  openFile : String → Access → σ → Except FileError φ × σ
  fileSize : φ → σ → Except FileError Nat
  /-- A single read, given its number, the offset, and how many bytes are asked for. It may deliver
  fewer bytes. -/
  readAt : φ → σ → Nat → Int → Nat → Except FileError Bytes
  map : φ → MapRequest → σ → Except FileError μ × σ
  address : μ → Nat
  /-- So many bytes of mapped memory. -/
  memory : μ → Nat → σ → Bytes
  store : μ → Bytes → σ → σ
  unmap : μ → Nat → σ → Except FileError Unit × σ
  close : φ → σ → σ
  readFile : String → σ → Except FileError Bytes
  writeFile : String → Bytes → σ → Except FileError Unit × σ

/-- Read from `offset` on until `length` more bytes have been read after `got`. The reads are
numbered, and ask for all that is missing. -/
def fill (read : Nat → Int → Nat → Except FileError Bytes) (turn : Nat) (offset : Int)
    (length : Nat) (got : Bytes) : Except FileError Bytes :=
  if length = 0 then .ok got
  else
    match read turn offset length with
    | .error e => .error e
    | .ok part =>
      if part.size = 0 then .error .unexpectedEnd
      else fill read (turn + 1) (offset + part.size) (length - part.size) (got ++ part)
termination_by length

namespace SystemCalls
variable {σ φ μ : Type} (sys : SystemCalls σ φ μ)

def openPath (path : String) (access : Access) (s : σ) : Except FileError φ × σ :=
  if path.contains '\x00' then (.error .nulInName, s) else sys.openFile path access s

def readExact (file : φ) (s : σ) (offset : Int) (length : Nat) : Except FileError Bytes :=
  fill (sys.readAt file s) 0 offset length #[]

end SystemCalls
end HeapImage
