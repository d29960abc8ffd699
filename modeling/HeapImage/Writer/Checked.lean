import HeapImage.Writer.Compact

/-!
# Writing with checks

The writer once more, with nothing taken for granted. Sizes, offsets and addresses have to be words,
and no difference may be negative. Bytes are read and written inside of the buffer only, and its size
is a multiple of eight whenever it changes. References are even, and none is zero. Where one of this
fails there is no result.
-/

namespace HeapImage
set_option autoImplicit false

def sub? (a b : Nat) : Option Nat := if b ≤ a then some (a - b) else none

def div? (a b : Nat) : Option Nat := if b = 0 then none else some (a / b)

/-- The reference to the object that stands at an offset. -/
def reference? (base offset : Nat) : Option Nat := do
  let stored ← add? base offset
  if stored % 2 = 0 ∧ stored ≠ 0 then some stored else none

namespace Object

/-- The places of references from an offset on, with what they refer to. -/
def slotsFrom? (pos : Nat) : List Value → Option (List (Nat × Value))
  | [] => some []
  | child :: rest => do
    let next ← add? pos 8
    return (pos, child) :: (← slotsFrom? next rest)

def slots? (o : Object Value) (pos : Nat) : Option (List (Nat × Value)) := do
  slotsFrom? (← add? pos o.slotsAt) o.children

end Object

namespace Buffer

def overwrite? (b : Buffer) (pos : Nat) (data : List UInt8) : Option Buffer := do
  let stop ← add? pos data.length
  if stop ≤ b.size then some (b.overwrite pos data) else none

def putWord? (b : Buffer) (pos n : Nat) : Option Buffer :=
  if n < wordLimit then b.overwrite? pos (leBytes 8 n) else none

def putHalf? (b : Buffer) (pos n : Nat) : Option Buffer :=
  if n < 0x100000000 then b.overwrite? pos (leBytes 4 n) else none

def putWords? (b : Buffer) (pos : Nat) : List Nat → Option Buffer
  | [] => some b
  | n :: rest => do (← b.putWord? pos n).putWords? (← add? pos 8) rest

def slice? (b : Buffer) (start stop : Nat) : Option Bytes :=
  if start ≤ stop ∧ stop ≤ b.size then some (b.bytes.extract start stop) else none

def reserve? (b : Buffer) (count : Nat) : Option Buffer := do
  let size ← add? b.size count
  if size % 8 = 0 then some (b.reserve count) else none

def truncate? (b : Buffer) (size : Nat) : Option Buffer :=
  if size ≤ b.size ∧ size % 8 = 0 then some (b.truncate size) else none

def putHeader? (b : Buffer) (pos tag extra : Nat) : Option Buffer := do
  (← b.putHalf? pos 0).putHalf? (← add? pos 4) (16 * extra + tag)

def putObject? (b : Buffer) (base pos : Nat) (o : Object Value) : Option Buffer := do
  let b ← b.putHeader? pos o.tagNumber o.extra
  match o with
  | .constructor _ fields scalars =>
    let b ← b.putWord? (← add? pos 8) fields.size
    let b ← b.putWord? (← add? pos 16) scalars.size
    let fieldsAt ← add? pos 24
    b.overwrite? (← add? fieldsAt (← mul? 8 fields.size)) scalars.toList
  | .array elements => b.putWord? (← add? pos 8) elements.size
  | .byteArray elemSize bytes =>
    let b ← b.putWord? (← add? pos 8) (← div? bytes.size elemSize.toNat)
    b.overwrite? (← add? pos 16) bytes.toList
  | .string bytes =>
    let b ← b.putWord? (← add? pos 8) bytes.size
    b.overwrite? (← add? pos 16) bytes.toList
  | .bigInteger value =>
    let inline ← add? pos 24
    let b ← b.putWord? (← add? pos 8) (← reference? base inline)
    let b ← b.putWord? (← add? pos 16) value.limbs.length
    b.putWords? inline (value.limbs.map UInt64.toNat)
  | _ => return b

def putScalars? (b : Buffer) : List (Nat × Value) → Option Buffer
  | [] => some b
  | (slot, .scalar payload) :: rest => do (← b.putWord? slot (scalarWord payload)).putScalars? rest
  | (_, .object _) :: rest => b.putScalars? rest

def putTerminator? (b : Buffer) (pos root : Nat) : Option Buffer := do
  let b ← b.putHeader? pos terminatorTag 0
  b.putWord? (← add? pos 8) root

def leafKey? (b : Buffer) (pos contentsAt size : Nat) : Option Bytes := do
  let extra ← b.slice? (← add? pos 4) (← add? pos 8)
  let contents ← b.slice? (← add? pos contentsAt) (← add? pos size)
  return extra ++ contents

end Buffer

namespace Writer

/-- Look for an equal leaf record; only those of the right size are looked at. -/
def findLeaf? (b : Buffer) (contentsAt size : Nat) (key : Bytes) :
    List LeafRecord → Option (Option LeafRecord)
  | [] => some none
  | leaf :: rest =>
    if leaf.size = size then do
      if (← b.leafKey? leaf.offset contentsAt size) = key then return some leaf
      else findLeaf? b contentsAt size key rest
    else findLeaf? b contentsAt size key rest

def unifyLeaf? (w : Writer) (hash : ContentHash) (pos contentsAt : Nat) :
    Option (Writer × Nat) := do
  if w.sharing then
    let size ← sub? w.size pos
    let key ← w.buffer.leafKey? pos contentsAt size
    let bucket := w.leaves.getD (hash key) []
    match ← findLeaf? w.buffer contentsAt size key bucket with
    | some leaf =>
      return ({ w with
        buffer := ← w.buffer.truncate? pos
        stats := { w.stats with
          objects := ← sub? w.stats.objects 1
          shared := w.stats.shared + 1 } }, leaf.offset)
    | none =>
      return ({ w with
        leaves := w.leaves.insert (hash key) (bucket ++ [⟨pos, size⟩])
        newLeaves := hash key :: w.newLeaves }, pos)
  else return (w, pos)

def appendObject? (w : Writer) (o : Object Value) : Option Writer := do
  let pos := w.size
  let slots ← o.slots? pos
  let b ← w.buffer.reserve? (← o.recordSize?)
  let b ← b.putObject? w.base.toNat pos o
  return { w with
    buffer := ← b.putScalars? slots
    stats := { w.stats with objects := w.stats.objects + 1 }
    todo := (slots.filterMap fun slot => slot.2.id?.map (Hole.mk slot.1)) ++ w.todo }

/-- The offset to refer to for an object whose record was appended at `pos`. -/
def settle? (w : Writer) (hash : ContentHash) (pos : Nat) (o : Object Value) :
    Option (Writer × Nat) :=
  if o.isLeaf then w.unifyLeaf? hash pos o.contentsAt else some (w, pos)

def copyObject? (w : Writer) (hash : ContentHash) (id : Nat) (o : Object Value) :
    Option (Writer × Nat) := do
  let pos := w.size
  let w ← w.appendObject? o
  let (w, offset) ← w.settle? hash pos o
  let stored ← reference? w.base.toNat offset
  return (w.recordCopy id stored, stored)

def store? (w : Writer) (hash : ContentHash) (h : Heap) (id : Nat) : Option (Writer × Nat) :=
  match w.copied[id]? with
  | some stored => some (w, stored)
  | none => w.copyObject? hash id (h.object id)

def fill? (w : Writer) (slot stored : Nat) : Option Writer := do
  return { w with buffer := ← w.buffer.putWord? slot stored }

def advance? (w : Writer) (hash : ContentHash) (h : Heap) (next : Hole)
    (rest : List Hole) : Option Writer := do
  let copy ← { w with todo := rest }.store? hash h next.child
  copy.1.fill? next.slot copy.2

section Progress
variable {w later : Writer} {hash : ContentHash} {h : Heap} {id pos contentsAt offset stored : Nat}
variable {o : Object Value} {slots : List (Nat × Value)}

theorem mapIdx_of_slotsFrom? {children : List Value}
    (hslots : Object.slotsFrom? pos children = some slots) :
    slots = children.mapIdx fun i child => (pos + 8 * i, child) := by
  induction children generalizing pos slots with
  | nil =>
    rw [Object.slotsFrom?, Option.some.injEq] at hslots
    rw [← hslots, List.mapIdx_nil]
  | cons child rest ih =>
    simp only [Object.slotsFrom?, Option.bind_eq_bind, Option.bind_eq_some_iff, Option.pure_def,
      Option.some.injEq, add?_eq_some] at hslots
    obtain ⟨_, ⟨rfl, _⟩, later, hlater, rfl⟩ := hslots
    rw [ih hlater, List.mapIdx_cons]
    congr 1
    apply List.mapIdx_eq_mapIdx_iff.mpr
    intro i _
    rw [Nat.mul_add, Nat.add_assoc, Nat.add_comm 8]

theorem eq_slots_of_slots? (hslots : o.slots? pos = some slots) : slots = o.slots pos := by
  simp only [Object.slots?, Option.bind_eq_bind, Option.bind_eq_some_iff, add?_eq_some] at hslots
  obtain ⟨_, ⟨rfl, _⟩, hslots⟩ := hslots
  exact mapIdx_of_slotsFrom? hslots

theorem of_appendObject? (happend : w.appendObject? o = some later) :
    later.todo = o.holes w.size ++ w.todo ∧ later.copied = w.copied := by
  simp only [appendObject?, Option.bind_eq_bind, Option.bind_eq_some_iff, Option.pure_def,
    Option.some.injEq] at happend
  obtain ⟨slots, hslots, _, _, _, _, _, _, _, _, rfl⟩ := happend
  rw [eq_slots_of_slots? hslots]
  exact ⟨rfl, rfl⟩

theorem of_unifyLeaf? (hunify : w.unifyLeaf? hash pos contentsAt = some (later, offset)) :
    later.todo = w.todo ∧ later.copied = w.copied := by
  unfold unifyLeaf? at hunify
  split at hunify
  · simp only [Option.bind_eq_bind, Option.bind_eq_some_iff] at hunify
    obtain ⟨_, _, _, _, found, _, hunify⟩ := hunify
    split at hunify
    · simp only [Option.bind_eq_some_iff, Option.pure_def, Option.some.injEq,
        Prod.mk.injEq] at hunify
      obtain ⟨_, _, _, _, rfl, _⟩ := hunify
      exact ⟨rfl, rfl⟩
    · cases hunify
      exact ⟨rfl, rfl⟩
  · cases hunify
    exact ⟨rfl, rfl⟩

theorem of_copyObject? (hcopy : w.copyObject? hash id o = some (later, stored)) :
    later.todo = o.holes w.size ++ w.todo ∧ later.copied = w.copied.insert id stored := by
  simp only [copyObject?, Option.bind_eq_bind, Option.bind_eq_some_iff, Option.pure_def,
    Option.some.injEq, Prod.mk.injEq] at hcopy
  obtain ⟨appended, happend, ⟨unified, offset⟩, hsettle, _, _, rfl, rfl⟩ := hcopy
  obtain ⟨htodo, hcopied⟩ := of_appendObject? happend
  have hsame : unified.todo = appended.todo ∧ unified.copied = appended.copied := by
    unfold settle? at hsettle
    split at hsettle
    · exact of_unifyLeaf? hsettle
    · cases hsettle
      exact ⟨rfl, rfl⟩
  rw [recordCopy, hsame.1, hsame.2, htodo, hcopied]
  exact ⟨rfl, rfl⟩

/-- Each round does what it has to do without the checks, as far as it matters for what is left. -/
theorem work_advance?_lt {next : Hole} {rest : List Hole} (htodo : w.todo = next :: rest)
    (hadvance : w.advance? hash h next rest = some later) : later.work h < w.work h := by
  simp only [advance?, fill?, Option.bind_eq_bind, Option.bind_eq_some_iff, Option.pure_def,
    Option.some.injEq] at hadvance
  obtain ⟨⟨copy, stored⟩, hstore, _, _, rfl⟩ := hadvance
  refine Nat.lt_of_le_of_lt (Nat.le_of_eq ?_) (work_advance_lt hash h htodo)
  rw [advance, work_fill]
  change copy.work h = _
  unfold store? at hstore
  unfold store
  generalize hcopied : ({ w with todo := rest } : Writer).copied[next.child]? = found at hstore ⊢
  cases found with
  | some word =>
    cases hstore
    rfl
  | none =>
    obtain ⟨hleft, hmarked⟩ := of_copyObject? hstore
    have hcontains : copy.copied.contains = (copyObject { w with todo := rest } hash next.child
        (h.object next.child)).1.copied.contains := by
      funext other
      rw [hmarked, copied_copyObject, Std.ExtTreeMap.contains_insert,
        Std.ExtTreeMap.contains_insert]
    dsimp only
    rw [work, work, hleft, todo_copyObject, hcontains]

end Progress

/-- Copy what the list of references asks for, up to the first obstacle. -/
def drain? (w : Writer) (hash : ContentHash) (h : Heap) : Option (Writer × Option Obstacle) :=
  match _ : w.todo with
  | [] => some (w, none)
  | next :: rest =>
    match w.obstacle? h next.child with
    | some e => some (w, some e)
    | none =>
      match _ : w.advance? hash h next rest with
      | some later => later.drain? hash h
      | none => none
termination_by w.work h
decreasing_by
  rename_i htodo hadvance
  exact work_advance?_lt htodo hadvance

def storeRoot? (w : Writer) (hash : ContentHash) (h : Heap) : Value → Option (Writer × Nat)
  | .scalar payload => some (w, scalarWord payload)
  | .object id => w.store? hash h id

def terminate? (w : Writer) (root : Nat) : Option Writer := do
  let b ← w.buffer.reserve? terminatorSize
  return { w with
    buffer := ← b.putTerminator? w.size root
    stats := { w.stats with roots := w.stats.roots + 1 } }

def writeRoot? (w : Writer) (hash : ContentHash) (h : Heap) (root : Value) :
    Option (Writer × Option Obstacle) :=
  match root.id?.bind (w.obstacle? h) with
  | some e => some (w, some e)
  | none => do
    let (w, stored) ← w.storeRoot? hash h root
    match ← w.drain? hash h with
    | (w, some e) => return (w, some e)
    | (w, none) =>
      if w.hasRoom terminatorSize then return (← w.terminate? stored, none)
      else return (w, some .tooLarge)

/-- What a call has added, as it is reported. -/
structure Added where
  bytes : Nat
  objects : Nat
  shared : Nat

def compact? (w : Writer) (hash : ContentHash) (h : Heap) (root : Value) :
    Option (Writer × Except Obstacle Added) := do
  let size := w.size
  let stats := w.stats
  match ← w.writeRoot? hash h root with
  | (w, none) =>
    let bytes ← sub? w.size size
    let objects ← sub? w.stats.objects stats.objects
    let shared ← sub? w.stats.shared stats.shared
    return (w.commit, .ok ⟨bytes, objects, shared⟩)
  | (w, some e) =>
    let buffer ← w.buffer.truncate? size
    return ({ w.undo size stats with buffer }, .error e)

end Writer
end HeapImage
