import Mathlib
import HeapImage.Writer.Compact

/-!
# Calls of a writer

A writer is used for one root after the other, over a heap that may change in between, and some of
the roots may fail. What a call can do is said here once, step by step: a leaf is shared, recorded
or left alone; an object is found or copied; the list of references is worked off, or an obstacle
is met.
-/

namespace HeapImage
set_option autoImplicit false

namespace Writer

/-- Writers between two calls, whatever the roots and heaps of the earlier calls were, and whether
or not these succeeded. -/
inductive Reached (hash : ContentHash) (c : WriterConfig) : Writer → Prop where
  | create {w : Writer} : create? c = .ok w → Reached hash c w
  | compact {w : Writer} (h : Heap) (root : Value) : Reached hash c w →
      Reached hash c (w.compact hash h root).1

/-- Make several calls, each over the heap as it is by then. -/
def calls (w : Writer) (hash : ContentHash) :
    List (Heap × Value) → Writer × List (Except Obstacle Unit)
  | [] => (w, [])
  | (h, root) :: rest =>
    let first := w.compact hash h root
    let later := first.1.calls hash rest
    (later.1, first.2 :: later.2)

end Writer

namespace Buffer

@[simp] theorem size_putObject (b : Buffer) (base pos : Nat) (o : Object Value) :
    (b.putObject base pos o).size = b.size := by
  cases o <;> simp only [putObject, size_overwrite, size_putWord, size_putHalf]

@[simp] theorem size_putScalars (b : Buffer) (slots : List (Nat × Value)) :
    (b.putScalars slots).size = b.size := by
  induction slots generalizing b with
  | nil => rfl
  | cons slot rest ih =>
    simp only [putScalars, List.foldl_cons] at ih ⊢
    rw [ih]
    cases slot.2 with
    | scalar payload => exact size_putWord b _ _
    | object id => rfl

@[simp] theorem size_putTerminator (b : Buffer) (pos root : Nat) :
    (b.putTerminator pos root).size = b.size := by
  simp only [putTerminator, size_putWord, size_putHalf]

end Buffer

namespace Writer
variable (w : Writer) (hash : ContentHash) (h : Heap)

@[simp] theorem size_appendObject (o : Object Value) :
    (w.appendObject o).size = w.size + o.recordSize?.getD 0 := by
  simp only [appendObject, size, Buffer.size_putScalars, Buffer.size_putObject, Buffer.size_reserve]

@[simp] theorem size_fill (slot stored : Nat) : (w.fill slot stored).size = w.size := by
  simp only [fill, size, Buffer.size_putWord]

@[simp] theorem size_terminate (root : Nat) :
    (w.terminate root).size = w.size + terminatorSize := by
  simp only [terminate, size, Buffer.size_putTerminator, Buffer.size_reserve]

@[simp] theorem todo_fill (slot stored : Nat) : (w.fill slot stored).todo = w.todo := by
  rw [fill]

@[simp] theorem copied_fill (slot stored : Nat) : (w.fill slot stored).copied = w.copied := by
  rw [fill]

@[simp] theorem base_fill (slot stored : Nat) : (w.fill slot stored).base = w.base := by
  rw [fill]

@[simp] theorem sharing_fill (slot stored : Nat) : (w.fill slot stored).sharing = w.sharing := by
  rw [fill]

@[simp] theorem base_terminate (root : Nat) : (w.terminate root).base = w.base := by
  rw [terminate]

@[simp] theorem sharing_terminate (root : Nat) : (w.terminate root).sharing = w.sharing := by
  rw [terminate]

@[simp] theorem copied_terminate (root : Nat) : (w.terminate root).copied = w.copied := by
  rw [terminate]

@[simp] theorem todo_terminate (root : Nat) : (w.terminate root).todo = w.todo := by
  rw [terminate]

@[simp] theorem leaves_terminate (root : Nat) : (w.terminate root).leaves = w.leaves := by
  rw [terminate]

section Leaves

/-- What the leaf record at the end, from `pos` on, is compared by. -/
def lastKey (pos contentsAt : Nat) : Bytes := w.buffer.leafKey pos contentsAt (w.size - pos)

/-- The earlier leaf record that equals the last one. -/
def equalLeaf? (pos contentsAt : Nat) : Option LeafRecord :=
  (w.leaves.getD (hash (w.lastKey pos contentsAt)) []).find? fun leaf =>
    leaf.size == w.size - pos &&
      w.buffer.leafKey leaf.offset contentsAt (w.size - pos) == w.lastKey pos contentsAt

def dropLeaf (pos : Nat) : Writer :=
  { w with
      buffer := w.buffer.truncate pos
      stats := { w.stats with objects := w.stats.objects - 1, shared := w.stats.shared + 1 } }

@[simp] theorem size_dropLeaf (pos : Nat) : (w.dropLeaf pos).size = min pos w.size := by
  simp only [dropLeaf, size, Buffer.size_truncate]

/-- Keep the last record, and remember it under its hash. -/
def recordLeaf (key : UInt64) (pos : Nat) : Writer :=
  { w with
      leaves := w.leaves.insert key (w.leaves.getD key [] ++ [⟨pos, w.size - pos⟩])
      newLeaves := key :: w.newLeaves }

variable (pos contentsAt : Nat)

theorem unifyLeaf_eq : w.unifyLeaf hash pos contentsAt =
    if w.sharing then
      match w.equalLeaf? hash pos contentsAt with
      | some leaf => (w.dropLeaf pos, leaf.offset)
      | none => (w.recordLeaf (hash (w.lastKey pos contentsAt)) pos, pos)
    else (w, pos) := rfl

/-- Sharing is off, or an equal leaf is referred to instead, or the leaf is new. -/
theorem unifyLeaf_cases :
    (w.sharing = false ∧ w.unifyLeaf hash pos contentsAt = (w, pos)) ∨
    (∃ leaf, w.sharing = true ∧ w.equalLeaf? hash pos contentsAt = some leaf ∧
      w.unifyLeaf hash pos contentsAt = (w.dropLeaf pos, leaf.offset)) ∨
    (w.sharing = true ∧ w.equalLeaf? hash pos contentsAt = none ∧
      w.unifyLeaf hash pos contentsAt =
        (w.recordLeaf (hash (w.lastKey pos contentsAt)) pos, pos)) := by
  rw [unifyLeaf_eq]
  cases hs : w.sharing with
  | false => exact .inl ⟨rfl, rfl⟩
  | true =>
    cases hf : w.equalLeaf? hash pos contentsAt with
    | some leaf => exact .inr (.inl ⟨leaf, rfl, rfl, rfl⟩)
    | none => exact .inr (.inr ⟨rfl, rfl, rfl⟩)

end Leaves

section Objects
variable {w hash h} {id : Nat}

theorem store_of_copied {stored : Nat} (hc : w.copied[id]? = some stored) :
    w.store hash h id = (w, stored) := by
  simp only [store, hc]

theorem store_of_new (hc : w.copied[id]? = none) :
    w.store hash h id = w.copyObject hash id (h.object id) := by
  simp only [store, hc]

theorem copyObject_of_not_isLeaf {o : Object Value} (ho : o.isLeaf = false) :
    w.copyObject hash id o =
      ((w.appendObject o).recordCopy id (w.refTo w.size), w.refTo w.size) := by
  simp only [copyObject, ho]
  rfl

theorem copyObject_of_isLeaf {o : Object Value} (ho : o.isLeaf = true) :
    w.copyObject hash id o =
      (((w.appendObject o).unifyLeaf hash w.size o.contentsAt).1.recordCopy id
          (((w.appendObject o).unifyLeaf hash w.size o.contentsAt).1.refTo
            ((w.appendObject o).unifyLeaf hash w.size o.contentsAt).2),
        ((w.appendObject o).unifyLeaf hash w.size o.contentsAt).1.refTo
          ((w.appendObject o).unifyLeaf hash w.size o.contentsAt).2) := by
  simp only [copyObject, ho]
  rfl

@[simp] theorem base_unifyLeaf (w : Writer) (hash : ContentHash) (pos contentsAt : Nat) :
    (w.unifyLeaf hash pos contentsAt).1.base = w.base := by
  rcases w.unifyLeaf_cases hash pos contentsAt with ⟨_, h⟩ | ⟨_, _, _, h⟩ | ⟨_, _, h⟩ <;>
    rw [h] <;> rfl

@[simp] theorem sharing_unifyLeaf (w : Writer) (hash : ContentHash) (pos contentsAt : Nat) :
    (w.unifyLeaf hash pos contentsAt).1.sharing = w.sharing := by
  rcases w.unifyLeaf_cases hash pos contentsAt with ⟨_, h⟩ | ⟨_, _, _, h⟩ | ⟨_, _, h⟩ <;>
    rw [h] <;> rfl

@[simp] theorem base_copyObject (w : Writer) (hash : ContentHash) (id : Nat) (o : Object Value) :
    (w.copyObject hash id o).1.base = w.base := by
  cases ho : o.isLeaf with
  | false =>
    rw [copyObject_of_not_isLeaf ho]
    rfl
  | true =>
    rw [copyObject_of_isLeaf ho]
    exact base_unifyLeaf _ _ _ _

@[simp] theorem sharing_copyObject (w : Writer) (hash : ContentHash) (id : Nat)
    (o : Object Value) : (w.copyObject hash id o).1.sharing = w.sharing := by
  cases ho : o.isLeaf with
  | false =>
    rw [copyObject_of_not_isLeaf ho]
    rfl
  | true =>
    rw [copyObject_of_isLeaf ho]
    exact sharing_unifyLeaf _ _ _ _

@[simp] theorem base_store (w : Writer) (hash : ContentHash) (h : Heap) (id : Nat) :
    (w.store hash h id).1.base = w.base := by
  cases hc : w.copied[id]? with
  | some stored => rw [store_of_copied hc]
  | none => rw [store_of_new hc, base_copyObject]

@[simp] theorem sharing_store (w : Writer) (hash : ContentHash) (h : Heap) (id : Nat) :
    (w.store hash h id).1.sharing = w.sharing := by
  cases hc : w.copied[id]? with
  | some stored => rw [store_of_copied hc]
  | none => rw [store_of_new hc, sharing_copyObject]

theorem base_advance (w : Writer) (hash : ContentHash) (h : Heap) (next : Hole)
    (rest : List Hole) : (w.advance hash h next rest).base = w.base := by
  rw [advance, base_fill, base_store]

theorem sharing_advance (w : Writer) (hash : ContentHash) (h : Heap) (next : Hole)
    (rest : List Hole) : (w.advance hash h next rest).sharing = w.sharing := by
  rw [advance, sharing_fill, sharing_store]

theorem getElem?_insert_of_new {copied : Std.ExtTreeMap Nat Nat} {id other stored word : Nat}
    (hc : copied[id]? = none) (hother : copied[other]? = some stored) :
    (copied.insert id word)[other]? = some stored := by
  have hne : id ≠ other := by
    intro heq
    rw [heq, hother] at hc
    cases hc
  rw [Std.ExtTreeMap.getElem?_insert, if_neg (by simpa using hne), hother]

theorem eq_or_of_getElem?_insert {copied : Std.ExtTreeMap Nat Nat} {id other stored word : Nat}
    (hother : (copied.insert id word)[other]? = some stored) :
    (other = id ∧ stored = word) ∨ copied[other]? = some stored := by
  rw [Std.ExtTreeMap.getElem?_insert] at hother
  by_cases heq : id = other
  · rw [if_pos (by simpa using heq)] at hother
    exact .inl ⟨heq.symm, (Option.some.inj hother).symm⟩
  · rw [if_neg (by simpa using heq)] at hother
    exact .inr hother

theorem size_insert_of_new {copied : Std.ExtTreeMap Nat Nat} {id : Nat} (hc : copied[id]? = none)
    (word : Nat) : (copied.insert id word).size = copied.size + 1 := by
  rw [Std.ExtTreeMap.size_insert, Std.ExtTreeMap.contains_eq_isSome_getElem?, hc]
  rfl

theorem getElem?_copied_store {other stored : Nat} (hc : w.copied[other]? = some stored) :
    (w.store hash h id).1.copied[other]? = some stored := by
  cases hid : w.copied[id]? with
  | some word => rwa [store_of_copied hid]
  | none =>
    rw [store_of_new hid, copied_copyObject]
    exact getElem?_insert_of_new hid hc

theorem getElem?_copied_store_self :
    (w.store hash h id).1.copied[id]? = some (w.store hash h id).2 := by
  cases hid : w.copied[id]? with
  | some word => rwa [store_of_copied hid]
  | none => rw [store_of_new hid, copied_copyObject, Std.ExtTreeMap.getElem?_insert_self]

/-- Nothing keeps an object from being stored if it was copied before, or if it is settled and
there is room for its record. -/
theorem obstacle?_eq_none_iff :
    w.obstacle? h id = none ↔
      (∃ stored, w.copied[id]? = some stored) ∨
        w.copied[id]? = none ∧ (h.object id).obstacle? w.hasRoom = none := by
  unfold obstacle?
  rw [Std.ExtTreeMap.contains_eq_isSome_getElem?]
  cases hc : w.copied[id]? <;> simp

end Objects

section Traversal
variable {w hash h}

theorem drain_of_done (htodo : w.todo = []) : w.drain hash h = (w, none) := by
  rw [drain]
  split
  · rfl
  · simp_all

section Next
variable {next : Hole} {rest : List Hole}

theorem drain_of_obstacle {e : Obstacle} (htodo : w.todo = next :: rest)
    (he : w.obstacle? h next.child = some e) : w.drain hash h = (w, some e) := by
  rw [drain]
  split
  · simp_all
  · rename_i hnext
    cases htodo.symm.trans hnext
    rw [he]

theorem drain_of_next (htodo : w.todo = next :: rest) (hnone : w.obstacle? h next.child = none) :
    w.drain hash h = (w.advance hash h next rest).drain hash h := by
  rw [drain]
  split
  · simp_all
  · rename_i hnext
    cases htodo.symm.trans hnext
    rw [hnone]

end Next

variable (w hash h)

/-- What every step preserves holds of the writer that the traversal ends with. -/
theorem drain_invariant {motive : Writer → Prop}
    (hstep : ∀ (w : Writer) (next : Hole) (rest : List Hole), w.todo = next :: rest →
      w.obstacle? h next.child = none → motive w → motive (w.advance hash h next rest))
    (hw : motive w) : motive (w.drain hash h).1 := by
  fun_induction drain w hash h with
  | case1 => exact hw
  | case2 => exact hw
  | case3 w next rest htodo hnone ih => exact ih (hstep w next rest htodo hnone hw)

theorem getElem?_copied_drain {id stored : Nat} (hc : w.copied[id]? = some stored) :
    (w.drain hash h).1.copied[id]? = some stored := by
  refine drain_invariant w hash h (motive := fun w => w.copied[id]? = some stored) ?_ hc
  intro w next rest htodo _ hc
  rw [advance, copied_fill]
  exact getElem?_copied_store (w := { w with todo := rest }) hc

theorem todo_drain (hnone : (w.drain hash h).2 = none) : (w.drain hash h).1.todo = [] := by
  fun_induction drain w hash h with
  | case1 w htodo => exact htodo
  | case2 => cases hnone
  | case3 w next rest htodo _ ih => exact ih hnone

theorem base_drain : (w.drain hash h).1.base = w.base := by
  refine drain_invariant w hash h (motive := fun v => v.base = w.base) ?_ rfl
  intro v next rest _ _ hv
  rw [base_advance, hv]

theorem base_storeRoot (root : Value) : (w.storeRoot hash h root).1.base = w.base := by
  cases root with
  | scalar payload => rfl
  | object id => exact base_store w hash h id

variable {w hash h} {root : Value}

theorem writeRoot_of_obstacle {e : Obstacle} (he : root.id?.bind (w.obstacle? h) = some e) :
    w.writeRoot hash h root = (w, some e) := by
  rw [writeRoot, he]

theorem writeRoot_of_stuck (hroot : root.id?.bind (w.obstacle? h) = none) {e : Obstacle}
    (he : ((w.storeRoot hash h root).1.drain hash h).2 = some e) :
    w.writeRoot hash h root = (((w.storeRoot hash h root).1.drain hash h).1, some e) := by
  rw [writeRoot, hroot]
  dsimp only
  generalize (w.storeRoot hash h root).1.drain hash h = result at he ⊢
  obtain ⟨v, last⟩ := result
  cases he
  rfl

theorem writeRoot_of_done (hroot : root.id?.bind (w.obstacle? h) = none)
    (hdone : ((w.storeRoot hash h root).1.drain hash h).2 = none) :
    w.writeRoot hash h root =
      if ((w.storeRoot hash h root).1.drain hash h).1.hasRoom terminatorSize then
        (((w.storeRoot hash h root).1.drain hash h).1.terminate (w.storeRoot hash h root).2, none)
      else (((w.storeRoot hash h root).1.drain hash h).1, some .tooLarge) := by
  rw [writeRoot, hroot]
  dsimp only
  generalize (w.storeRoot hash h root).1.drain hash h = result at hdone ⊢
  obtain ⟨v, last⟩ := result
  cases hdone
  rfl

/-- A root that fails leaves the writer in the middle of the traversal. -/
theorem writeRoot_eq_error {v : Writer} {e : Obstacle}
    (hv : w.writeRoot hash h root = (v, some e)) :
    v = w ∨ (root.id?.bind (w.obstacle? h) = none ∧
      v = ((w.storeRoot hash h root).1.drain hash h).1) := by
  unfold writeRoot at hv
  split at hv
  · exact .inl (Prod.ext_iff.mp hv).1.symm
  · rename_i hroot
    refine .inr ⟨hroot, ?_⟩
    dsimp only at hv
    split at hv
    · rename_i hdrain
      rw [hdrain]
      exact (Prod.ext_iff.mp hv).1.symm
    · rename_i hdrain
      split at hv
      · cases (Prod.ext_iff.mp hv).2
      · rw [hdrain]
        exact (Prod.ext_iff.mp hv).1.symm

theorem writeRoot_eq_none {v : Writer} (hv : w.writeRoot hash h root = (v, none)) :
    root.id?.bind (w.obstacle? h) = none ∧
      ((w.storeRoot hash h root).1.drain hash h).2 = none ∧
      ((w.storeRoot hash h root).1.drain hash h).1.hasRoom terminatorSize = true ∧
      v = ((w.storeRoot hash h root).1.drain hash h).1.terminate (w.storeRoot hash h root).2 := by
  unfold writeRoot at hv
  split at hv
  · cases (Prod.ext_iff.mp hv).2
  · rename_i hroot
    refine ⟨hroot, ?_⟩
    dsimp only at hv
    split at hv
    · cases (Prod.ext_iff.mp hv).2
    · rename_i hdrain
      rw [hdrain]
      split at hv
      · rename_i hroom
        exact ⟨rfl, hroom, (Prod.ext_iff.mp hv).1.symm⟩
      · cases (Prod.ext_iff.mp hv).2

/-- A call commits to what it has written, or takes it back. -/
theorem compact_cases (w : Writer) (hash : ContentHash) (h : Heap) (root : Value) :
    (∃ v, w.writeRoot hash h root = (v, none) ∧ w.compact hash h root = (v.commit, .ok ())) ∨
    ∃ v e, w.writeRoot hash h root = (v, some e) ∧
      w.compact hash h root = (v.undo w.size w.stats, .error e) := by
  unfold compact
  dsimp only
  split
  · rename_i v hv
    exact .inl ⟨v, hv, rfl⟩
  · rename_i v e hv
    exact .inr ⟨v, e, hv, rfl⟩

end Traversal

end Writer
end HeapImage
