import HeapImage.Heap.Worklist
import HeapImage.Writer.Record

/-!
# Writing a root

Everything reachable from a root is copied, each object once, and then a terminator is written.
The traversal works off a list of references to fill in, so its depth does not depend on the depth
of the graph. If it meets an obstacle, everything that the call has done is taken back.
-/

namespace HeapImage
set_option autoImplicit false

namespace Writer

/-- What keeps a value from being stored; nothing does once it is in the image. -/
def obstacle? (w : Writer) (h : Heap) (id : Nat) : Option Obstacle :=
  if w.copied.contains id then none else (h.object id).obstacle? w.hasRoom

/-- The stored reference of an object, which is copied if it is not in the image yet. -/
def store (w : Writer) (hash : ContentHash) (h : Heap) (id : Nat) : Writer × Nat :=
  match w.copied[id]? with
  | some stored => (w, stored)
  | none => w.copyObject hash id (h.object id)

def fill (w : Writer) (slot stored : Nat) : Writer :=
  { w with buffer := w.buffer.putWord slot stored }

def work (w : Writer) (h : Heap) : Nat := w.todo.length + h.unvisited w.copied.contains

theorem work_store_le (w : Writer) (hash : ContentHash) (h : Heap) (id : Nat) :
    (w.store hash h id).1.work h ≤ w.work h := by
  unfold store
  split
  · exact Nat.le_refl _
  · rename_i hnone
    have hnew : w.copied.contains id = false := by
      rw [Std.ExtTreeMap.contains_eq_isSome_getElem?, hnone]
      rfl
    have hself : (w.copyObject hash id (h.object id)).1.copied.contains id = true := by
      simp [copied_copyObject]
    have hmono : ∀ other, w.copied.contains other = true →
        (w.copyObject hash id (h.object id)).1.copied.contains other = true := by
      intro other ho
      rw [copied_copyObject, Std.ExtTreeMap.contains_insert, ho, Bool.or_true]
    have := h.unvisited_mark hnew hself hmono
    have hlen := (h.object id).length_holes w.size
    simp only [work, todo_copyObject, List.length_append, hlen]
    simp only [Heap.objectChildren] at this
    omega

/-- Copy the object that the next reference denotes, and fill that reference in. -/
def advance (w : Writer) (hash : ContentHash) (h : Heap) (next : Hole)
    (rest : List Hole) : Writer :=
  let copy := { w with todo := rest }.store hash h next.child
  copy.1.fill next.slot copy.2

@[simp] theorem work_fill (w : Writer) (h : Heap) (slot stored : Nat) :
    (w.fill slot stored).work h = w.work h := by
  simp only [work, fill]

theorem work_advance_lt {w : Writer} (hash : ContentHash) (h : Heap) {next : Hole}
    {rest : List Hole} (htodo : w.todo = next :: rest) :
    (w.advance hash h next rest).work h < w.work h := by
  have hle := work_store_le { w with todo := rest } hash h next.child
  have hpop : w.work h = { w with todo := rest }.work h + 1 := by
    simp only [work, htodo, List.length_cons]
    omega
  rw [advance, work_fill, hpop]
  omega

/-- Copy what the list of references asks for, up to the first obstacle. -/
def drain (w : Writer) (hash : ContentHash) (h : Heap) : Writer × Option Obstacle :=
  match _ : w.todo with
  | [] => (w, none)
  | next :: rest =>
    match w.obstacle? h next.child with
    | some e => (w, some e)
    | none => (w.advance hash h next rest).drain hash h
termination_by w.work h
decreasing_by
  rename_i hnext
  exact work_advance_lt hash h hnext

/-- What is written for a reference to a value that nothing keeps from being stored. -/
def storeRoot (w : Writer) (hash : ContentHash) (h : Heap) : Value → Writer × Nat
  | .scalar payload => (w, scalarWord payload)
  | .object id => w.store hash h id

/-- Close the records of a root with a terminator. -/
def terminate (w : Writer) (root : Nat) : Writer :=
  { w with
      buffer := (w.buffer.reserve terminatorSize).putTerminator w.size root
      stats := { w.stats with roots := w.stats.roots + 1 } }

/-- Copy a root and all it needs, and close it; stop at the first obstacle. -/
def writeRoot (w : Writer) (hash : ContentHash) (h : Heap) (root : Value) :
    Writer × Option Obstacle :=
  match root.id?.bind (w.obstacle? h) with
  | some e => (w, some e)
  | none =>
    let (w, stored) := w.storeRoot hash h root
    match w.drain hash h with
    | (w, some e) => (w, some e)
    | (w, none) =>
      if w.hasRoom terminatorSize then (w.terminate stored, none) else (w, some .tooLarge)

/-- Take back the latest leaf that was recorded under a hash. -/
def forgetLeaf (leaves : Std.ExtTreeMap UInt64 (List LeafRecord)) (key : UInt64) :
    Std.ExtTreeMap UInt64 (List LeafRecord) :=
  match leaves[key]? with
  | none => leaves
  | some bucket =>
    match bucket.dropLast with
    | [] => leaves.erase key
    | kept => leaves.insert key kept

/-- Undo the current call, which began at the given size and counts. -/
def undo (w : Writer) (size : Nat) (stats : Stats) : Writer :=
  { w with
      buffer := w.buffer.truncate size
      copied := w.newCopies.foldl (fun copied id => copied.erase id) w.copied
      leaves := w.newLeaves.foldl forgetLeaf w.leaves
      todo := []
      newCopies := []
      newLeaves := []
      stats := stats }

def commit (w : Writer) : Writer := { w with newCopies := [], newLeaves := [] }

/-- Write everything reachable from a root and a terminator, or nothing at all. -/
def compact (w : Writer) (hash : ContentHash) (h : Heap) (root : Value) :
    Writer × Except Obstacle Unit :=
  let size := w.size
  let stats := w.stats
  match w.writeRoot hash h root with
  | (w, none) => (w.commit, .ok ())
  | (w, some e) => (w.undo size stats, .error e)

end Writer
end HeapImage
