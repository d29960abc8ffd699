import HeapImage.Bytes.Buffer
import HeapImage.Bytes.Fingerprint
import HeapImage.Heap.Build
import HeapImage.Image.Format
import HeapImage.Text.Shown
import Std.Data.ExtTreeMap

/-!
# Writers

The state of a writer, which copies object graphs into one growing image: the bytes so far, which
object was copied where, which leaf records could be shared, and what is still to be done. The
tables are extensional, so equal states are equal terms.
-/

namespace HeapImage
set_option autoImplicit false

/-- Why a root cannot be written. -/
inductive Obstacle where
  | unforcedThunk
  | pendingTask
  | pendingPromise
  | tooLarge
deriving DecidableEq

def Obstacle.message : Obstacle → String
  | unforcedThunk => "Cannot compact an unforced thunk"
  | pendingTask => "Cannot compact a pending task"
  | pendingPromise => "Cannot compact an unresolved promise"
  | tooLarge => "Region is too large"

structure WriterConfig where
  /-- The address that references are relative to; zero for none. -/
  base : UInt64 := 0
  /-- Whether equal leaves are written once. -/
  sharing : Bool := true
  initialCapacity : Nat := 4096
deriving DecidableEq

/-- The base address is shown as absent when it is zero. -/
def WriterConfig.shown (c : WriterConfig) : Shown :=
  .record "CompactorConfig" ["base_addr", "max_sharing", "initial_capacity"]
    [.ofOption (if c.base = 0 then none else some (.ofNat c.base.toNat)), .ofBool c.sharing,
      .ofNat c.initialCapacity]

structure Stats where
  /-- Roots, each followed by a terminator. -/
  roots : Nat := 0
  /-- Records other than terminators. -/
  objects : Nat := 0
  /-- Leaves that were not written because an equal one was there already. -/
  shared : Nat := 0
deriving DecidableEq

structure LeafRecord where
  offset : Nat
  size : Nat
deriving DecidableEq

/-- A reference that is still to be filled in. -/
structure Hole where
  slot : Nat
  child : Nat
deriving DecidableEq

structure Writer where
  buffer : Buffer
  base : UInt64
  sharing : Bool
  /-- The stored reference of every object copied so far. -/
  copied : Std.ExtTreeMap Nat Nat
  /-- Leaf records by the hash of their contents, in order of writing. -/
  leaves : Std.ExtTreeMap UInt64 (List LeafRecord)
  /-- What to copy next, the next one first. -/
  todo : List Hole
  /-- Objects copied by the current call, the latest first. -/
  newCopies : List Nat
  /-- Hashes of leaves recorded by the current call, the latest first. -/
  newLeaves : List UInt64
  stats : Stats

namespace Writer

def size (w : Writer) : Nat := w.buffer.size

def data (w : Writer) : Bytes := w.buffer.bytes

def start (c : WriterConfig) : Writer where
  buffer := (((Buffer.empty (max c.initialCapacity headerSize)).reserve headerSize).putWord 0 magic)
    |>.putWord 8 c.base.toNat
  base := c.base
  sharing := c.sharing
  copied := ∅
  leaves := ∅
  todo := []
  newCopies := []
  newLeaves := []
  stats := {}

/-- A writer needs an aligned base address, and a buffer that is no larger than an image can be. -/
def create? (c : WriterConfig) : Except Misuse Writer :=
  if c.base.toNat % 8 ≠ 0 then .error .misalignedBase
  else if sizeLimit < c.initialCapacity then .error .capacityOverflow
  else .ok (start c)

def refTo (w : Writer) (offset : Nat) : Nat := w.base.toNat + offset

def hasRoom (w : Writer) (size : Nat) : Bool :=
  decide (w.size + size ≤ sizeLimit ∧ w.base.toNat + (w.size + size) < wordLimit)

end Writer
end HeapImage
