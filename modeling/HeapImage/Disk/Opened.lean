import HeapImage.Disk.Basic

/-!
# Reading what is open

Ways to read a file: at an offset, at an offset until a buffer is full, and as pages. A single
read may deliver fewer bytes than asked for; a schedule says how many. A directory can be open,
too, but none of these reads it.
-/

namespace HeapImage
set_option autoImplicit false

/-- How many bytes each read delivers, given its number and how many it could deliver. -/
abbrev Schedule := Nat → Nat → Nat

def Schedule.full : Schedule := fun _ available => available

/-- A read delivers at least one byte if there is one, and no more than there are. -/
def Schedule.delivered (s : Schedule) (turn available : Nat) : Nat :=
  min available (max 1 (s turn available))

/-- The end of what is read of a file has to be below `2 ^ 63`. -/
def offsetLimit : Nat := 0x8000000000000000

/-- No free range of addresses is as large as three quarters of all `2 ^ 47` addresses. -/
def addressLimit : Nat := 0x600000000000

def wholePages (length : Nat) : Nat := (length + (pageSize - 1)) / pageSize * pageSize

namespace Bytes

/-- The bytes that one read at `offset` delivers; none at the end of the file and beyond. -/
def portion (file : Bytes) (schedule : Schedule) (turn offset length : Nat) : Bytes :=
  let count := schedule.delivered turn (min length (file.size - offset))
  file.extract offset (offset + count)

/-- The bytes of pages; past the end of the file they are zero. -/
def page (file : Bytes) (offset length : Nat) : Bytes :=
  let seen := file.extract offset (offset + length)
  seen ++ Array.replicate (length - seen.size) 0

end Bytes

namespace Opened

/-- A directory takes up one page. -/
def size : Opened → Nat
  | file bytes => bytes.size
  | directory => pageSize

def readAt (o : Opened) (readable : Bool) (schedule : Schedule) (turn : Nat) (offset : Int)
    (length : Nat) : Except FileError Bytes :=
  if offset < 0 then .error .invalidArgument
  else if !readable then .error .badDescriptor
  else if offset + length ≥ offsetLimit then .error .invalidArgument
  else
    match o with
    | file bytes => .ok (bytes.portion schedule turn offset.toNat length)
    | directory => .error .isADirectory

def pageLimit : Opened → Nat
  | file _ => offsetLimit
  | directory => 0x10000000000000000

/-- Map pages and read them. The offset counts as a word, so a negative one is beyond any file. -/
def mapPages (o : Opened) (offset : Int) (length : Nat) : Except FileError Bytes :=
  let start := (offset % 0x10000000000000000).toNat
  if start % pageSize ≠ 0 ∨ length = 0 then .error .invalidArgument
  else if addressLimit ≤ wholePages length then .error .outOfMemory
  else if o.pageLimit ≤ start + wholePages length then .error .valueTooLarge
  else
    match o with
    | file bytes => .ok (bytes.page start length)
    | directory => .error .noDevice

end Opened
end HeapImage
