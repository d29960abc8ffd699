import HeapImage.Writer.Basic

/-!
# Writing one record

What a single object puts into the image: header, counts, data and scalar references at once, and
a queue of the references to other objects. Leaves may be dropped again in favour of an equal one.
-/

namespace HeapImage
set_option autoImplicit false

namespace Object

/-- What keeps an object from being copied: it is not settled, or its record does not fit. -/
def obstacle? (o : Object Value) (hasRoom : Nat → Bool) : Option Obstacle :=
  match o with
  | .thunk (.waiting _) => some .unforcedThunk
  | .task none => some .pendingTask
  | .promise none => some .pendingPromise
  | o =>
    match o.recordSize? with
    | some size => if hasRoom size then none else some .tooLarge
    | none => some .tooLarge

def slots (o : Object Value) (pos : Nat) : List (Nat × Value) :=
  o.children.mapIdx fun i child => (pos + o.slotsAt + 8 * i, child)

/-- The references to objects in a record at `pos`, first to last. -/
def holes (o : Object Value) (pos : Nat) : List Hole :=
  (o.slots pos).filterMap fun slot => slot.2.id?.map (Hole.mk slot.1)

end Object

namespace Buffer

/-- Header, counts and data of an object whose record of zeros starts at `pos`. The first half-word
of the header, the closure of a thunk and the lock of a mutable reference stay zero. -/
def putObject (b : Buffer) (base pos : Nat) (o : Object Value) : Buffer :=
  let b := b.putHalf (pos + 4) (16 * o.extra + o.tagNumber)
  match o with
  | .constructor _ fields scalars =>
    ((b.putWord (pos + 8) fields.size).putWord (pos + 16) scalars.size).overwrite
      (pos + 24 + 8 * fields.size) scalars.toList
  | .array elements => b.putWord (pos + 8) elements.size
  | .byteArray elemSize bytes =>
    (b.putWord (pos + 8) (bytes.size / elemSize.toNat)).overwrite (pos + 16) bytes.toList
  | .string bytes => (b.putWord (pos + 8) bytes.size).overwrite (pos + 16) bytes.toList
  | .bigInteger value =>
    ((b.putWord (pos + 8) (base + (pos + 24))).putWord (pos + 16) value.limbs.length).overwrite
      (pos + 24) (value.limbs.flatMap fun limb => leBytes 8 limb.toNat)
  | _ => b

/-- The references to scalars; the others stay zero. -/
def putScalars (b : Buffer) (slots : List (Nat × Value)) : Buffer :=
  slots.foldl (fun b slot =>
    match slot.2 with
    | .scalar payload => b.putWord slot.1 (scalarWord payload)
    | .object _ => b) b

def putTerminator (b : Buffer) (pos root : Nat) : Buffer :=
  (b.putHalf (pos + 4) terminatorTag).putWord (pos + 8) root

/-- What makes two leaf records equal: tag and extra data, and everything from the contents on. -/
def leafKey (b : Buffer) (pos contentsAt size : Nat) : Bytes :=
  b.bytes.extract (pos + 4) (pos + 8) ++ b.bytes.extract (pos + contentsAt) (pos + size)

end Buffer

namespace Writer

/-- Look for a leaf record equal to the last record, which starts at `pos`. If there is one, the
last record is removed; otherwise it is recorded. The result is the offset to refer to. -/
def unifyLeaf (w : Writer) (hash : ContentHash) (pos contentsAt : Nat) : Writer × Nat :=
  if w.sharing then
    let size := w.size - pos
    let key := w.buffer.leafKey pos contentsAt size
    let bucket := w.leaves.getD (hash key) []
    match bucket.find? fun leaf =>
        leaf.size == size && w.buffer.leafKey leaf.offset contentsAt size == key with
    | some leaf =>
      ({ w with
          buffer := w.buffer.truncate pos
          stats := { w.stats with objects := w.stats.objects - 1, shared := w.stats.shared + 1 } },
        leaf.offset)
    | none =>
      ({ w with
          leaves := w.leaves.insert (hash key) (bucket ++ [⟨pos, size⟩])
          newLeaves := hash key :: w.newLeaves },
        pos)
  else (w, pos)

def appendObject (w : Writer) (o : Object Value) : Writer :=
  let pos := w.size
  { w with
      buffer := (((w.buffer.reserve (o.recordSize?.getD 0)).putObject w.base.toNat pos o).putScalars
        (o.slots pos))
      stats := { w.stats with objects := w.stats.objects + 1 }
      todo := o.holes pos ++ w.todo }

def recordCopy (w : Writer) (id stored : Nat) : Writer :=
  { w with copied := w.copied.insert id stored, newCopies := id :: w.newCopies }

/-- Copy an object that is not in the image yet, and return its stored reference. -/
def copyObject (w : Writer) (hash : ContentHash) (id : Nat) (o : Object Value) : Writer × Nat :=
  let pos := w.size
  let w := w.appendObject o
  let (w, offset) := if o.isLeaf then w.unifyLeaf hash pos o.contentsAt else (w, pos)
  let stored := w.refTo offset
  (w.recordCopy id stored, stored)

@[simp] theorem todo_unifyLeaf (w : Writer) (hash : ContentHash) (pos contentsAt : Nat) :
    (w.unifyLeaf hash pos contentsAt).1.todo = w.todo := by
  unfold unifyLeaf
  split
  · dsimp only
    split <;> rfl
  · rfl

@[simp] theorem copied_unifyLeaf (w : Writer) (hash : ContentHash) (pos contentsAt : Nat) :
    (w.unifyLeaf hash pos contentsAt).1.copied = w.copied := by
  unfold unifyLeaf
  split
  · dsimp only
    split <;> rfl
  · rfl

theorem todo_copyObject (w : Writer) (hash : ContentHash) (id : Nat) (o : Object Value) :
    (w.copyObject hash id o).1.todo = o.holes w.size ++ w.todo := by
  unfold copyObject
  dsimp only
  split <;> simp [recordCopy, appendObject]

theorem copied_copyObject (w : Writer) (hash : ContentHash) (id : Nat) (o : Object Value) :
    (w.copyObject hash id o).1.copied = w.copied.insert id (w.copyObject hash id o).2 := by
  unfold copyObject
  dsimp only
  split <;> simp [recordCopy, appendObject]

end Writer

namespace Object

theorem length_holes (o : Object Value) (pos : Nat) :
    (o.holes pos).length = (o.children.filterMap Value.id?).length := by
  have h : ∀ (children : List Value) (f : Nat → Nat),
      ((children.mapIdx fun i child => (f i, child)).filterMap
        fun slot => slot.2.id?.map (Hole.mk slot.1)).length =
      (children.filterMap Value.id?).length := by
    intro children
    induction children with
    | nil => simp
    | cons child rest ih =>
      intro f
      have := ih fun i => f (i + 1)
      cases child <;> simp [List.mapIdx_cons, List.filterMap_cons, this]
  exact h o.children fun i => pos + o.slotsAt + 8 * i

end Object
end HeapImage
