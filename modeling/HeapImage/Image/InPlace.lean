import HeapImage.Image.Load

/-!
# Loading in place

An image is made usable where it stands in memory. A scan walks over the records, marks their
headers, releases locks and points big integers at their limbs; it notes where objects start and
which words hold references. Then every reference is replaced by the address that it denotes.

Here every access to the memory and every sum, difference and product is checked. A fault is an
access outside of the memory, or a number that is not a word; it is not a cause to refuse an image.
-/

namespace HeapImage
set_option autoImplicit false

inductive Halt where
  | corrupt (cause : Corruption)
  | outOfBounds
  | overflow
deriving DecidableEq

namespace InPlace

def plus (a b : Nat) : Except Halt Nat :=
  if a + b < wordLimit then .ok (a + b) else .error .overflow

def minus (a b : Nat) : Except Halt Nat := if b ≤ a then .ok (a - b) else .error .overflow

def times (a b : Nat) : Except Halt Nat :=
  if a * b < wordLimit then .ok (a * b) else .error .overflow

def reject {α : Type} (cause : Corruption) : Except Halt α := .error (.corrupt cause)

def readWord (memory : Bytes) (pos : Nat) : Except Halt Nat :=
  if pos + 8 ≤ memory.size then .ok (memory.word pos) else .error .outOfBounds

def readHalf (memory : Bytes) (pos : Nat) : Except Halt Nat :=
  if pos + 4 ≤ memory.size then .ok (memory.half pos) else .error .outOfBounds

def writeWord (memory : Bytes) (pos word : Nat) : Except Halt Bytes :=
  if pos + 8 ≤ memory.size then .ok (memory.overwrite pos (leBytes 8 word))
  else .error .outOfBounds

def writeHalf (memory : Bytes) (pos half : Nat) : Except Halt Bytes :=
  if pos + 4 ≤ memory.size then .ok (memory.overwrite pos (leBytes 4 half))
  else .error .outOfBounds

def setFlag (flags : Array Bool) (i : Nat) : Except Halt (Array Bool) :=
  if i < flags.size then .ok (flags.setIfInBounds i true) else .error .outOfBounds

/-- A word of the record at `pos`, which may end before. -/
def wordAt (memory : Bytes) (pos offset : Nat) : Except Halt Nat := do
  let first ← plus pos offset
  let last ← plus first 8
  if memory.size < last then reject (.truncated pos) else readWord memory first

def halfAt (memory : Bytes) (pos offset : Nat) : Except Halt Nat := do
  let first ← plus pos offset
  let last ← plus first 4
  if memory.size < last then reject (.truncated pos) else readHalf memory first

def shapeAt (memory : Bytes) (base pos tag extra : Nat) : Except Halt Shape :=
  match tag with
  | 0 => do
    let numFields ← wordAt memory pos 8
    let scalarSize ← wordAt memory pos 16
    return .constructor extra numFields scalarSize
  | 1 => return .array (← wordAt memory pos 8)
  | 2 => return .byteArray extra (← wordAt memory pos 8)
  | 3 => return .string (← wordAt memory pos 8)
  | 4 => do
    let closure ← wordAt memory pos 16
    if closure = 0 then return .thunk else reject (.dangling (← plus pos 16) closure)
  | 5 => return .task
  | 6 => return .promise
  | 7 => return .mutableRef
  | 8 => do
    let length ← wordAt memory pos 16
    let limbs ← wordAt memory pos 8
    let inline ← plus pos 24
    if limbs ≠ (base + inline) % wordLimit then reject (.dangling (← plus pos 8) limbs)
    else if length = 0 ∧ extra ≠ 0 then reject (.badExtra pos tag extra)
    else return .bigInteger extra length
  | 15 => return .terminator
  | _ => reject (.unknownTag pos tag)

/-- A scan that has come to an offset: the memory by then, for each word whether an object record
starts there, where references stand, where terminators start, and whether the last record was one. -/
structure Scan where
  memory : Bytes
  offset : Nat
  starts : Array Bool
  slots : List Nat
  terminators : List Nat
  closed : Bool

namespace Scan

def begin (memory : Bytes) : Scan where
  memory := memory
  offset := headerSize
  starts := Array.replicate (memory.size / 8) false
  slots := []
  terminators := []
  closed := false

def note (s : Scan) (shape : Shape) : Except Halt Scan :=
  if shape = .terminator then return { s with terminators := s.terminators ++ [s.offset] }
  else do
    let starts ← setFlag s.starts (s.offset / 8)
    let first ← plus s.offset shape.slotRange.1
    let slots ← (List.range shape.slotRange.2).mapM fun i => do plus first (← times 8 i)
    return { s with starts := starts, slots := s.slots ++ slots }

/-- Change the payload of a record that starts here, but for its references. -/
def adjust (s : Scan) (start : Nat) (shape : Shape) : Except Halt Scan :=
  match shape with
  | .mutableRef => do
    return { s with memory := ← writeHalf s.memory (← plus s.offset 8) 0 }
  | .bigInteger .. => do
    let inline ← plus s.offset 24
    return { s with memory := ← writeWord s.memory (← plus s.offset 8) (← plus start inline) }
  | _ => return s

def pass (s : Scan) (start : Nat) (shape : Shape) (size : Nat) : Except Halt Scan := do
  let memory ← writeHalf s.memory s.offset 0
  let s ← { s with memory := memory }.note shape
  let s ← s.adjust start shape
  return { s with offset := ← plus s.offset size, closed := shape == .terminator }

/-- Look at the next record, and pass it if all is well. -/
def round (s : Scan) (start base : Nat) : Except Halt Scan := do
  let header ← halfAt s.memory s.offset 4
  let tag := header % 16
  let extra := header / 16
  let shape ← shapeAt s.memory base s.offset tag extra
  if extraFits tag extra then
    match shape.recordSize? with
    | none => reject (.truncated s.offset)
    | some size =>
      if size ≤ (← minus s.memory.size s.offset) then s.pass start shape size
      else reject (.truncated s.offset)
  else reject (.badExtra s.offset tag extra)

section Progress
variable {s next : Scan} {start base size pos word : Nat} {shape : Shape}

theorem size_of_writeHalf {memory memory' : Bytes} (h : writeHalf memory pos word = .ok memory') :
    memory'.size = memory.size := by
  unfold writeHalf at h
  split at h
  · rw [← Except.ok.inj h]
    exact Bytes.size_overwrite _ _ _
  · cases h

theorem size_of_writeWord {memory memory' : Bytes} (h : writeWord memory pos word = .ok memory') :
    memory'.size = memory.size := by
  unfold writeWord at h
  split at h
  · rw [← Except.ok.inj h]
    exact Bytes.size_overwrite _ _ _
  · cases h

theorem memory_of_note (h : s.note shape = .ok next) : next.memory = s.memory := by
  unfold note at h
  split at h
  · cases h
    rfl
  · simp only [bind_eq_ok_iff, pure_eq_ok_iff] at h
    obtain ⟨_, _, _, _, _, _, rfl⟩ := h
    rfl

theorem size_of_adjust (h : s.adjust start shape = .ok next) :
    next.memory.size = s.memory.size := by
  unfold adjust at h
  split at h
  · simp only [bind_eq_ok_iff, pure_eq_ok_iff] at h
    obtain ⟨_, _, _, hwrite, rfl⟩ := h
    exact size_of_writeHalf hwrite
  · simp only [bind_eq_ok_iff, pure_eq_ok_iff] at h
    obtain ⟨_, _, _, _, _, _, _, hwrite, rfl⟩ := h
    exact size_of_writeWord hwrite
  · cases h
    rfl

theorem offset_of_note (h : s.note shape = .ok next) : next.offset = s.offset := by
  unfold note at h
  split at h
  · cases h
    rfl
  · simp only [bind_eq_ok_iff, pure_eq_ok_iff] at h
    obtain ⟨_, _, _, _, _, _, rfl⟩ := h
    rfl

theorem offset_of_adjust (h : s.adjust start shape = .ok next) : next.offset = s.offset := by
  unfold adjust at h
  split at h
  · simp only [bind_eq_ok_iff, pure_eq_ok_iff] at h
    obtain ⟨_, _, _, _, rfl⟩ := h
    rfl
  · simp only [bind_eq_ok_iff, pure_eq_ok_iff] at h
    obtain ⟨_, _, _, _, _, _, _, _, rfl⟩ := h
    rfl
  · cases h
    rfl

theorem of_pass (h : s.pass start shape size = .ok next) :
    next.offset = s.offset + size ∧ next.memory.size = s.memory.size := by
  simp only [pass, bind_eq_ok_iff, pure_eq_ok_iff] at h
  obtain ⟨memory, hwrite, noted, hnote, adjusted, hadjust, offset, hplus, rfl⟩ := h
  have hoffset := (offset_of_adjust hadjust).trans (offset_of_note hnote)
  have hmemory := (size_of_adjust hadjust).trans (congrArg Array.size (memory_of_note hnote))
  unfold plus at hplus
  split at hplus
  · rw [hoffset] at hplus
    exact ⟨(Except.ok.inj hplus).symm, hmemory.trans (size_of_writeHalf hwrite)⟩
  · cases hplus

/-- A record that is passed has a size, and leaves the size of the memory. -/
theorem round_advances (h : s.round start base = .ok next) :
    s.offset < next.offset ∧ next.memory.size = s.memory.size := by
  simp only [round, bind_eq_ok_iff] at h
  obtain ⟨_, _, shape, _, h⟩ := h
  split at h
  · split at h
    · cases h
    · rename_i size hsize
      obtain ⟨payload, _, hrecord⟩ := Option.bind_eq_some_iff.mp hsize
      have hpos := pos_of_recordSize? hrecord
      simp only [bind_eq_ok_iff] at h
      obtain ⟨_, _, h⟩ := h
      split at h
      · obtain ⟨hoffset, hmemory⟩ := of_pass h
        exact ⟨by omega, hmemory⟩
      · cases h
  · cases h

end Progress

def run (s : Scan) (start base : Nat) : Except Halt Scan :=
  if s.offset < s.memory.size then
    match _ : s.round start base with
    | .error e => .error e
    | .ok next => next.run start base
  else .ok s
termination_by s.memory.size - s.offset
decreasing_by
  rename_i hround
  have := round_advances hround
  omega

end Scan

def target? (starts : Array Bool) (base word : Nat) : Option Nat :=
  if base ≤ word ∧ (word - base) % 8 = 0 ∧ starts[(word - base) / 8]? = some true then
    some (word - base)
  else none

def relocate (starts : Array Bool) (start base : Nat) (memory : Bytes) (slot : Nat) :
    Except Halt (Bytes × Nat) := do
  let stored ← readWord memory slot
  if stored % 2 = 1 then return (memory, stored)
  else match target? starts base stored with
    | none => reject (.dangling slot stored)
    | some offset => do
      let real ← plus start offset
      return (← writeWord memory slot real, real)

/-- Replace the references at some offsets into records, one after the other. -/
def relocateAll (starts : Array Bool) (start base offset : Nat) :
    Bytes → List Nat → Except Halt (Bytes × List Nat)
  | memory, [] => return (memory, [])
  | memory, pos :: rest => do
    let first ← relocate starts start base memory (← plus pos offset)
    let later ← relocateAll starts start base offset first.1 rest
    return (later.1, first.2 :: later.2)

/-- Replace the references that a scan has found: those of objects, and then the roots. -/
def Scan.fixup (s : Scan) (start base : Nat) : Except Halt (Bytes × List Nat) := do
  let objects ← relocateAll s.starts start base 0 s.memory s.slots
  relocateAll s.starts start base 8 objects.1 s.terminators

/-- Pass all records; the last one is a terminator. -/
def scan (memory : Bytes) (start base : Nat) : Except Halt Scan := do
  let found ← (Scan.begin memory).run start base
  if found.closed then return found else reject .missingTerminator

def checkHeader (memory : Bytes) (start declared : Nat) : Except Halt Unit :=
  if start % 8 ≠ 0 ∨ memory.size % 8 ≠ 0 then reject .misaligned
  else if memory.size < headerSize then reject .badMagic
  else do
    let found ← readWord memory 0
    if found ≠ magic then reject .badMagic
    else
      let stored ← readWord memory 8
      if stored % 8 ≠ 0 then reject .misaligned
      else if stored ≠ declared then reject (.baseMismatch stored declared)
      else return ()

/-- Load the image that stands in memory from the address `start` on: the memory as it is then, and
the words of the roots. -/
def load (memory : Bytes) (start : Nat) (declared : UInt64) : Except Halt (Bytes × List Nat) := do
  checkHeader memory start declared.toNat
  let found ← scan memory start declared.toNat
  found.fixup start declared.toNat

end InPlace
end HeapImage
