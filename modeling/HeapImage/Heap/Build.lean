import HeapImage.Heap.Basic
import HeapImage.Image.Format
import HeapImage.Text.Hex

/-!
# Making values

Checked construction of scalars and objects. Sizes are checked before anything is allocated, so a
refused object leaves no trace.
-/

namespace HeapImage
set_option autoImplicit false

/-- A use of an operation that its caller has to rule out. -/
inductive Misuse where
  | zeroElementSize
  | raggedElements
  | notThunk (kind : Kind)
  | notSettleable (kind : Kind)
  | notMutableRef (kind : Kind)
  | notLiveConstructor
  | fieldOutOfBounds
  | misalignedBase
  | capacityOverflow
deriving DecidableEq

def Misuse.message : Misuse → String
  | zeroElementSize => "Element size must not be zero"
  | raggedElements => "Byte count must be a multiple of the element size"
  | notThunk kind => "Value of kind " ++ kind.name ++ " is not a thunk"
  | notSettleable kind => "Value of kind " ++ kind.name ++ " cannot be settled"
  | notMutableRef kind => "Value of kind " ++ kind.name ++ " is not a mutable ref"
  | notLiveConstructor => "Value is not a live constructor"
  | fieldOutOfBounds => "Field index out of bounds"
  | misalignedBase => "Base address must be 8-aligned"
  | capacityOverflow => "capacity overflow"

inductive BuildError where
  | scalarRange (payload : Nat)
  | objectSize
  | misuse (cause : Misuse)
deriving DecidableEq

def BuildError.message : BuildError → String
  | scalarRange payload => "Scalar payload " ++ Hex.marked payload ++ " does not fit in 63 bits"
  | objectSize => "Object is too large to be created"
  | misuse cause => cause.message

namespace Value

def scalar? (payload : Nat) : Except BuildError Value :=
  if h : payload < scalarLimit then .ok (.scalar ⟨payload, h⟩) else .error (.scalarRange payload)

end Value

/-- The limbs of a live big integer are kept apart from it. -/
def Object.livePayloadSize? {ρ : Type} : Object ρ → Option Nat
  | .bigInteger _ => some 16
  | o => o.payloadSize?

/-- A live object and its header may take at most `sizeLimit` bytes, rounded up. -/
def fitsLive (payload? : Option Nat) : Bool :=
  match payload? >>= add? 8 with
  | some size => decide (roundUp size ≤ sizeLimit)
  | none => false

/-- Byte arrays have whole elements of at least one byte. -/
def Object.dataMisuse? {ρ : Type} : Object ρ → Option Misuse
  | .byteArray elemSize bytes =>
    if elemSize = 0 then some .zeroElementSize
    else if bytes.size % elemSize.toNat = 0 then none else some .raggedElements
  | _ => none

/-- What keeps an object from being made. Its data are looked at before its size. -/
def Object.refusal? {ρ : Type} (o : Object ρ) : Option BuildError :=
  match o.dataMisuse? with
  | some cause => some (.misuse cause)
  | none => if fitsLive o.livePayloadSize? then none else some .objectSize

namespace Heap

def build (h : Heap) (o : Object Value) : Heap × Except BuildError Value :=
  match o.refusal? with
  | some e => (h, .error e)
  | none =>
    let (h, v) := h.alloc o
    (h, .ok v)

/-- A big integer always gets the canonical limbs. -/
def bigInteger (h : Heap) (negative : Bool) (limbs : List UInt64) : Heap × Value :=
  h.alloc (.bigInteger (.ofLimbs negative limbs))

end Heap
end HeapImage
