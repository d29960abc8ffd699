import HeapImage.Proofs.Writer.Calls

/-!
# The capacity of a writer

How much room a buffer has taken decides nothing: two writers that differ in that only do the same
and keep differing in that only.
-/

namespace HeapImage
set_option autoImplicit false

namespace Buffer

def withCapacity (b : Buffer) (capacity : Nat) : Buffer := { b with capacity := capacity }

variable (b : Buffer) (capacity : Nat)

@[simp] theorem size_withCapacity : (b.withCapacity capacity).size = b.size := rfl

@[simp] theorem overwrite_withCapacity (pos : Nat) (data : List UInt8) :
    (b.withCapacity capacity).overwrite pos data = (b.overwrite pos data).withCapacity capacity :=
  rfl

@[simp] theorem putWord_withCapacity (pos n : Nat) :
    (b.withCapacity capacity).putWord pos n = (b.putWord pos n).withCapacity capacity :=
  overwrite_withCapacity b capacity pos _

@[simp] theorem putHalf_withCapacity (pos n : Nat) :
    (b.withCapacity capacity).putHalf pos n = (b.putHalf pos n).withCapacity capacity :=
  overwrite_withCapacity b capacity pos _

@[simp] theorem truncate_withCapacity (size : Nat) :
    (b.withCapacity capacity).truncate size = (b.truncate size).withCapacity capacity := rfl

@[simp] theorem reserve_withCapacity (count : Nat) :
    (b.withCapacity capacity).reserve count =
      (b.reserve count).withCapacity (grownCapacity capacity (b.size + count)) := rfl

@[simp] theorem leafKey_withCapacity (pos contentsAt size : Nat) :
    (b.withCapacity capacity).leafKey pos contentsAt size = b.leafKey pos contentsAt size := rfl

@[simp] theorem putObject_withCapacity (base pos : Nat) (o : Object Value) :
    (b.withCapacity capacity).putObject base pos o =
      (b.putObject base pos o).withCapacity capacity := by
  cases o <;> simp [putObject]

@[simp] theorem putScalars_withCapacity (slots : List (Nat × Value)) :
    (b.withCapacity capacity).putScalars slots = (b.putScalars slots).withCapacity capacity := by
  induction slots generalizing b with
  | nil => rfl
  | cons slot rest ih =>
    obtain ⟨pos, v⟩ := slot
    simp only [putScalars, List.foldl_cons] at ih ⊢
    cases v with
    | scalar payload => simp only [putWord_withCapacity, ih]
    | object id => exact ih b

@[simp] theorem putTerminator_withCapacity (pos root : Nat) :
    (b.withCapacity capacity).putTerminator pos root =
      (b.putTerminator pos root).withCapacity capacity := by
  simp [putTerminator]

end Buffer

namespace Writer

def withCapacity (w : Writer) (capacity : Nat) : Writer :=
  { w with buffer := w.buffer.withCapacity capacity }

variable (w : Writer) (hash : ContentHash) (h : Heap) (capacity : Nat)

@[simp] theorem size_withCapacity : (w.withCapacity capacity).size = w.size := rfl

theorem appendObject_withCapacity (o : Object Value) :
    ∃ n, (w.withCapacity capacity).appendObject o = (w.appendObject o).withCapacity n := by
  simp only [appendObject, withCapacity, size, Buffer.size_withCapacity,
    Buffer.reserve_withCapacity, Buffer.putObject_withCapacity, Buffer.putScalars_withCapacity]
  exact ⟨_, rfl⟩

theorem unifyLeaf_withCapacity (pos contentsAt : Nat) :
    (w.withCapacity capacity).unifyLeaf hash pos contentsAt =
      ((w.unifyLeaf hash pos contentsAt).1.withCapacity capacity,
        (w.unifyLeaf hash pos contentsAt).2) := by
  have hsharing : (w.withCapacity capacity).sharing = w.sharing := rfl
  have hequal : (w.withCapacity capacity).equalLeaf? hash pos contentsAt =
      w.equalLeaf? hash pos contentsAt := rfl
  rw [unifyLeaf_eq, unifyLeaf_eq, hsharing, hequal]
  cases w.sharing with
  | false => rfl
  | true => cases w.equalLeaf? hash pos contentsAt <;> rfl

theorem copyObject_withCapacity (id : Nat) (o : Object Value) :
    ∃ n, (w.withCapacity capacity).copyObject hash id o =
      ((w.copyObject hash id o).1.withCapacity n, (w.copyObject hash id o).2) := by
  obtain ⟨n, happend⟩ := w.appendObject_withCapacity capacity o
  refine ⟨n, ?_⟩
  cases ho : o.isLeaf with
  | false =>
    rw [copyObject_of_not_isLeaf ho, copyObject_of_not_isLeaf ho, happend]
    rfl
  | true =>
    rw [copyObject_of_isLeaf ho, copyObject_of_isLeaf ho, happend, size_withCapacity,
      unifyLeaf_withCapacity]
    rfl

theorem store_withCapacity (id : Nat) :
    ∃ n, (w.withCapacity capacity).store hash h id =
      ((w.store hash h id).1.withCapacity n, (w.store hash h id).2) := by
  cases hc : w.copied[id]? with
  | some stored =>
    refine ⟨capacity, ?_⟩
    rw [store_of_copied hc, store_of_copied (w := w.withCapacity capacity) hc]
  | none =>
    rw [store_of_new hc, store_of_new (w := w.withCapacity capacity) hc]
    exact w.copyObject_withCapacity hash capacity id _

theorem advance_withCapacity (next : Hole) (rest : List Hole) :
    ∃ n, (w.withCapacity capacity).advance hash h next rest =
      (w.advance hash h next rest).withCapacity n := by
  obtain ⟨n, hstore⟩ := { w with todo := rest }.store_withCapacity hash h capacity next.child
  refine ⟨n, ?_⟩
  have hpop : { w.withCapacity capacity with todo := rest } =
      { w with todo := rest }.withCapacity capacity := rfl
  rw [advance, advance, hpop, hstore]
  simp only [fill, withCapacity, Buffer.putWord_withCapacity]

theorem drain_withCapacity :
    ∃ n, (w.withCapacity capacity).drain hash h =
      ((w.drain hash h).1.withCapacity n, (w.drain hash h).2) := by
  fun_induction drain w hash h generalizing capacity with
  | case1 w htodo => exact ⟨capacity, drain_of_done htodo⟩
  | case2 w next rest htodo e he => exact ⟨capacity, drain_of_obstacle htodo he⟩
  | case3 w next rest htodo hnone ih =>
    obtain ⟨n, hadvance⟩ := w.advance_withCapacity hash h capacity next rest
    obtain ⟨m, hdrain⟩ := ih n
    exact ⟨m, by rw [drain_of_next (w := w.withCapacity capacity) htodo hnone, hadvance, hdrain]⟩

theorem storeRoot_withCapacity (root : Value) :
    ∃ n, (w.withCapacity capacity).storeRoot hash h root =
      ((w.storeRoot hash h root).1.withCapacity n, (w.storeRoot hash h root).2) := by
  cases root with
  | scalar payload => exact ⟨capacity, rfl⟩
  | object id => exact w.store_withCapacity hash h capacity id

theorem terminate_withCapacity (root : Nat) :
    ∃ n, (w.withCapacity capacity).terminate root = (w.terminate root).withCapacity n := by
  simp only [terminate, withCapacity, size, Buffer.size_withCapacity,
    Buffer.reserve_withCapacity, Buffer.putTerminator_withCapacity]
  exact ⟨_, rfl⟩

theorem writeRoot_withCapacity (root : Value) :
    ∃ n, (w.withCapacity capacity).writeRoot hash h root =
      ((w.writeRoot hash h root).1.withCapacity n, (w.writeRoot hash h root).2) := by
  have hobstacle : (w.withCapacity capacity).obstacle? h = w.obstacle? h := rfl
  unfold writeRoot
  rw [hobstacle]
  split
  · exact ⟨capacity, rfl⟩
  · obtain ⟨n, hstore⟩ := w.storeRoot_withCapacity hash h capacity root
    obtain ⟨m, hdrain⟩ := (w.storeRoot hash h root).1.drain_withCapacity hash h n
    dsimp only
    rw [hstore]
    dsimp only
    rw [hdrain]
    generalize (w.storeRoot hash h root).1.drain hash h = result
    obtain ⟨v, e | e⟩ := result
    · have hroom : (v.withCapacity m).hasRoom terminatorSize = v.hasRoom terminatorSize := rfl
      dsimp only
      rw [hroom]
      split
      · obtain ⟨k, hterminate⟩ := v.terminate_withCapacity m (w.storeRoot hash h root).2
        exact ⟨k, by rw [hterminate]⟩
      · exact ⟨m, rfl⟩
    · exact ⟨m, rfl⟩

theorem compact_withCapacity (root : Value) :
    ∃ n, (w.withCapacity capacity).compact hash h root =
      ((w.compact hash h root).1.withCapacity n, (w.compact hash h root).2) := by
  obtain ⟨n, hwrite⟩ := w.writeRoot_withCapacity hash h capacity root
  refine ⟨n, ?_⟩
  unfold compact
  dsimp only
  rw [hwrite]
  generalize w.writeRoot hash h root = result
  obtain ⟨v, e | e⟩ := result <;> rfl

/-- Writers that differ in their capacity only return the same results, and still do so after any
number of calls. -/
theorem calls_withCapacity (calls : List (Heap × Value)) :
    ∃ n, (w.withCapacity capacity).calls hash calls =
      ((w.calls hash calls).1.withCapacity n, (w.calls hash calls).2) := by
  induction calls generalizing w capacity with
  | nil => exact ⟨capacity, rfl⟩
  | cons call rest ih =>
    obtain ⟨h, root⟩ := call
    obtain ⟨n, hcompact⟩ := w.compact_withCapacity hash h capacity root
    obtain ⟨m, hcalls⟩ := ih (w.compact hash h root).1 n
    exact ⟨m, by simp only [Writer.calls, hcompact, hcalls]⟩

end Writer
end HeapImage
