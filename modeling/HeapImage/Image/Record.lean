import HeapImage.Image.Corruption
import HeapImage.Image.Format

/-!
# Records of an image

What a record says about itself: its tag and counts give its shape, the shape gives its size and
where its references stand. A record is accepted only if all of it lies inside the image. The
references themselves are read, but not looked at, here.
-/

namespace HeapImage
set_option autoImplicit false

/-- Tag, extra data and counts of a record. -/
inductive Shape where
  | constructor (tag numFields scalarSize : Nat)
  | array (length : Nat)
  | byteArray (elemSize length : Nat)
  | string (length : Nat)
  | thunk
  | task
  | promise
  | mutableRef
  | bigInteger (sign length : Nat)
  | terminator
deriving DecidableEq

/-- A word that stands for a reference, and where it stands. -/
structure RawRef where
  slot : Nat
  word : Nat
deriving DecidableEq

/-- Whether a record with this tag can have the given extra data. -/
def extraFits (tag extra : Nat) : Bool :=
  match tag with
  | 0 => extra < 0x10000
  | 2 => 0 < extra && extra < 0x100
  | 8 => extra ≤ 1
  | _ => extra == 0

namespace Shape

def payloadSize? : Shape → Option Nat
  | constructor _ numFields scalarSize => Payload.constructor? numFields scalarSize
  | array length => Payload.array? length
  | byteArray elemSize length => mul? length elemSize >>= Payload.byteArray?
  | string length => Payload.string? length
  | thunk => some Payload.thunk
  | task => some Payload.cell
  | promise => some Payload.cell
  | mutableRef => some Payload.mutableRef
  | bigInteger _ length => Payload.bigInteger? length
  | terminator => some (terminatorSize - 8)

def recordSize? (s : Shape) : Option Nat := s.payloadSize? >>= HeapImage.recordSize?

def slotRange : Shape → Nat × Nat
  | constructor _ numFields _ => (24, numFields)
  | array length => (16, length)
  | thunk => (8, 1)
  | task => (8, 1)
  | promise => (8, 1)
  | mutableRef => (16, 1)
  | _ => (0, 0)

end Shape

structure Record where
  offset : Nat
  size : Nat
  shape : Shape
deriving DecidableEq

namespace Record

def slots (r : Record) : List Nat :=
  (List.range r.shape.slotRange.2).map fun i => r.offset + r.shape.slotRange.1 + 8 * i

def isTerminator (r : Record) : Bool := r.shape == .terminator

end Record

namespace Bytes

/-- A word of the record at `pos`, if the image reaches that far. -/
def recordWord (bytes : Bytes) (pos offset : Nat) : Except Corruption Nat :=
  if pos + offset + 8 ≤ bytes.size then .ok (bytes.word (pos + offset)) else .error (.truncated pos)

/-- The shape of the record at `pos` with the given tag and extra data. A thunk must not have a
closure, the limbs of a big integer must be those in its own record, and zero is not negative. -/
def shapeAt (bytes : Bytes) (base pos tag extra : Nat) : Except Corruption Shape :=
  match tag with
  | 0 => do
    let numFields ← bytes.recordWord pos 8
    let scalarSize ← bytes.recordWord pos 16
    return .constructor extra numFields scalarSize
  | 1 => return .array (← bytes.recordWord pos 8)
  | 2 => return .byteArray extra (← bytes.recordWord pos 8)
  | 3 => return .string (← bytes.recordWord pos 8)
  | 4 => do
    let closure ← bytes.recordWord pos 16
    if closure = 0 then return .thunk else throw (.dangling (pos + 16) closure)
  | 5 => return .task
  | 6 => return .promise
  | 7 => return .mutableRef
  | 8 => do
    let length ← bytes.recordWord pos 16
    let limbs ← bytes.recordWord pos 8
    if limbs ≠ (base + (pos + 24)) % wordLimit then throw (.dangling (pos + 8) limbs)
    else if length = 0 ∧ extra ≠ 0 then throw (.badExtra pos tag extra)
    else return .bigInteger extra length
  | 15 => return .terminator
  | _ => throw (.unknownTag pos tag)

def recordAt (bytes : Bytes) (base pos : Nat) : Except Corruption Record :=
  if bytes.size < pos + 8 then .error (.truncated pos)
  else
    let tag := bytes.half (pos + 4) % 16
    let extra := bytes.half (pos + 4) / 16
    match bytes.shapeAt base pos tag extra with
    | .error e => .error e
    | .ok shape =>
      if extraFits tag extra then
        match shape.recordSize? with
        | some size =>
          if size ≤ bytes.size - pos then .ok ⟨pos, size, shape⟩ else .error (.truncated pos)
        | none => .error (.truncated pos)
      else .error (.badExtra pos tag extra)

end Bytes

namespace Record
variable (bytes : Bytes)

def rawRef (slot : Nat) : RawRef := ⟨slot, bytes.word slot⟩

def children (r : Record) : Array RawRef := (r.slots.map (rawRef bytes)).toArray

/-- The only reference of a cell. -/
def content (r : Record) : RawRef := rawRef bytes (r.offset + r.shape.slotRange.1)

/-- What a thunk, a task or a promise holds; a word of zero stands for nothing. -/
def contents? (r : Record) : Option RawRef :=
  if (r.content bytes).word = 0 then none else some (r.content bytes)

def limbs (r : Record) (length : Nat) : List UInt64 :=
  (List.range length).map fun i => UInt64.ofNat (bytes.word (r.offset + 24 + 8 * i))

/-- The object in a record, with its references as they are stored; terminators hold none. -/
def object? (r : Record) : Option (Object RawRef) :=
  match r.shape with
  | .constructor tag numFields scalarSize =>
    let scalars := r.offset + 24 + 8 * numFields
    some (.constructor (UInt16.ofNat tag) (r.children bytes)
      (bytes.extract scalars (scalars + scalarSize)))
  | .array _ => some (.array (r.children bytes))
  | .byteArray elemSize length =>
    some (.byteArray (UInt8.ofNat elemSize)
      (bytes.extract (r.offset + 16) (r.offset + 16 + length * elemSize)))
  | .string length => some (.string (bytes.extract (r.offset + 16) (r.offset + 16 + length)))
  | .thunk =>
    match r.contents? bytes with
    | some value => some (.thunk (.forced value))
    | none => some (.thunk (.waiting (rawRef bytes (r.offset + 16))))
  | .task => some (.task (r.contents? bytes))
  | .promise => some (.promise (r.contents? bytes))
  | .mutableRef => some (.mutableRef (r.content bytes))
  | .bigInteger sign length => some (.bigInteger ⟨sign == 1, r.limbs bytes length⟩)
  | .terminator => none

def root? (r : Record) : Option RawRef :=
  if r.isTerminator then some (rawRef bytes (r.offset + 8)) else none

end Record

theorem size_pos_of_recordAt {bytes : Bytes} {base pos : Nat} {r : Record}
    (h : bytes.recordAt base pos = .ok r) : 0 < r.size ∧ pos + r.size ≤ bytes.size := by
  unfold Bytes.recordAt at h
  split at h
  · cases h
  · dsimp only at h
    split at h
    · cases h
    · rename_i shape _
      split at h
      · split at h
        · rename_i size hsize
          split at h
          · cases h
            obtain ⟨payload, _, hp⟩ := Option.bind_eq_some_iff.mp hsize
            have := pos_of_recordSize? hp
            simp only
            omega
          · cases h
        · cases h
      · cases h

end HeapImage
