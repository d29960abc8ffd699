import HeapImage.Proofs.Writer.Capacity

/-!
# Taking back a call

During a call bytes are appended, and written only behind the place where the call began. What goes
into the tables is noted, the latest first. So the notes suffice to get back to the beginning, at
every moment of the call.
-/

namespace HeapImage
set_option autoImplicit false

section Bytes

theorem Bytes.shrink_overwrite (bytes : Bytes) {n pos : Nat} (hn : n ≤ pos) (data : List UInt8) :
    (bytes.overwrite pos data).shrink n = bytes.shrink n := by
  apply Array.ext (by simp)
  intro i hi _
  have hin : i < n := by
    simp only [Array.size_shrink, Bytes.size_overwrite] at hi
    omega
  rw [Array.getElem_shrink, Array.getElem_shrink, ← Option.some.injEq, ← Array.getElem?_eq_getElem,
    ← Array.getElem?_eq_getElem, Bytes.getElem?_overwrite, if_neg (by omega)]

end Bytes

namespace Buffer
variable (b : Buffer) {n pos : Nat}

theorem truncate_overwrite (hn : n ≤ pos) (data : List UInt8) :
    (b.overwrite pos data).truncate n = b.truncate n := by
  simp only [truncate, overwrite, Bytes.shrink_overwrite b.bytes hn]

theorem truncate_putWord (hn : n ≤ pos) (word : Nat) :
    (b.putWord pos word).truncate n = b.truncate n :=
  truncate_overwrite b hn _

theorem truncate_putHalf (hn : n ≤ pos) (half : Nat) :
    (b.putHalf pos half).truncate n = b.truncate n :=
  truncate_overwrite b hn _

theorem truncate_putObject (hn : n ≤ pos) (base : Nat) (o : Object Value) :
    (b.putObject base pos o).truncate n = b.truncate n := by
  have hword : ∀ (b : Buffer) (offset word : Nat),
      (b.putWord (pos + offset) word).truncate n = b.truncate n := by
    intro b offset word
    exact truncate_putWord b (by omega) word
  have hhalf : ∀ b : Buffer,
      (b.putHalf (pos + 4) (16 * o.extra + o.tagNumber)).truncate n = b.truncate n := by
    intro b
    exact truncate_putHalf b (by omega) _
  cases o with
  | constructor tag fields scalars =>
    rw [putObject, truncate_overwrite _ (by omega), hword, hword, hhalf]
  | array elements => rw [putObject, hword, hhalf]
  | byteArray elemSize bytes | string bytes =>
    rw [putObject, truncate_overwrite _ (by omega), hword, hhalf]
  | bigInteger value => rw [putObject, truncate_overwrite _ (by omega), hword, hword, hhalf]
  | thunk | task | promise | mutableRef => exact hhalf b

theorem truncate_putScalars {slots : List (Nat × Value)} (hn : ∀ slot ∈ slots, n ≤ slot.1) :
    (b.putScalars slots).truncate n = b.truncate n := by
  induction slots generalizing b with
  | nil => rfl
  | cons slot rest ih =>
    obtain ⟨hslot, hrest⟩ := List.forall_mem_cons.mp hn
    obtain ⟨pos, v⟩ := slot
    simp only [putScalars, List.foldl_cons] at ih ⊢
    rw [ih _ hrest]
    cases v with
    | scalar payload => exact truncate_putWord b hslot _
    | object id => rfl

theorem bytes_truncate_reserve_le (hn : n ≤ b.size) (count : Nat) :
    ((b.reserve count).truncate n).bytes = (b.truncate n).bytes := by
  simp only [truncate, reserve, Array.shrink_eq_take, Array.take_eq_extract]
  simp only [size] at hn
  rw [Array.extract_append, Nat.zero_sub, Nat.sub_eq_zero_of_le hn, Array.extract_zero,
    Array.append_empty]

theorem truncate_truncate (hn : n ≤ pos) : (b.truncate pos).truncate n = b.truncate n := by
  simp only [truncate, Array.shrink_eq_take, Array.take_eq_extract]
  rw [Array.extract_extract, Nat.zero_add, Nat.zero_add, Nat.min_eq_left hn]

end Buffer

namespace Object
variable {o : Object Value} {pos : Nat}

theorem le_of_mem_slots {slot : Nat × Value} (hs : slot ∈ o.slots pos) : pos ≤ slot.1 := by
  simp only [slots, List.mem_mapIdx] at hs
  obtain ⟨i, hi, rfl⟩ := hs
  dsimp only
  omega

theorem le_of_mem_holes {hole : Hole} (hh : hole ∈ o.holes pos) : pos ≤ hole.slot := by
  simp only [holes, List.mem_filterMap, Option.map_eq_some_iff] at hh
  obtain ⟨slot, hslot, id, _, rfl⟩ := hh
  exact le_of_mem_slots hslot

end Object

namespace Writer

/-- A writer between two calls: nothing is left to do or to take back, and no bucket is empty. -/
structure AtRest (w : Writer) : Prop where
  todo : w.todo = []
  newCopies : w.newCopies = []
  newLeaves : w.newLeaves = []
  buckets : ∀ key : UInt64, w.leaves[key]? ≠ some []

/-- The writer of a call that began with `w₀`: the older bytes are as they were, everything that is
still to be filled in stands behind them, and taking out what was noted gives the old tables. -/
structure Undoable (w₀ w : Writer) : Prop where
  base : w.base = w₀.base
  sharing : w.sharing = w₀.sharing
  size_le : w₀.size ≤ w.size
  bytes : (w.buffer.truncate w₀.size).bytes = w₀.buffer.bytes
  todo : ∀ hole ∈ w.todo, w₀.size ≤ hole.slot
  copied : w.newCopies.foldl (fun copied id => copied.erase id) w.copied = w₀.copied
  leaves : w.newLeaves.foldl forgetLeaf w.leaves = w₀.leaves
  buckets : ∀ key : UInt64, w.leaves[key]? ≠ some []

section Tables

theorem erase_insert_of_new {copied : Std.ExtTreeMap Nat Nat} {id stored : Nat}
    (hc : copied[id]? = none) : (copied.insert id stored).erase id = copied := by
  apply Std.ExtTreeMap.ext_getElem?
  intro other
  rw [Std.ExtTreeMap.getElem?_erase, Std.ExtTreeMap.getElem?_insert]
  by_cases heq : id = other
  · simp [← heq, hc]
  · simp [heq]

/-- The leaf forgotten first is the one recorded last; a bucket made for it goes with it. -/
theorem forgetLeaf_insert {leaves : Std.ExtTreeMap UInt64 (List LeafRecord)} {key : UInt64}
    (hb : leaves[key]? ≠ some []) (leaf : LeafRecord) :
    forgetLeaf (leaves.insert key (leaves.getD key [] ++ [leaf])) key = leaves := by
  have hget : (leaves.insert key (leaves.getD key [] ++ [leaf]))[key]? =
      some (leaves.getD key [] ++ [leaf]) := Std.ExtTreeMap.getElem?_insert_self
  unfold forgetLeaf
  rw [hget]
  dsimp only
  rw [List.dropLast_concat, Std.ExtTreeMap.getD_eq_getD_getElem?]
  apply Std.ExtTreeMap.ext_getElem?
  intro other
  cases hold : leaves[key]? with
  | none =>
    simp only [Option.getD_none]
    rw [Std.ExtTreeMap.getElem?_erase, Std.ExtTreeMap.getElem?_insert]
    by_cases heq : key = other
    · simp [← heq, hold]
    · simp [heq]
  | some bucket =>
    cases bucket with
    | nil => exact absurd hold hb
    | cons first rest =>
      simp only [Option.getD_some]
      rw [Std.ExtTreeMap.getElem?_insert, Std.ExtTreeMap.getElem?_insert]
      by_cases heq : key = other
      · simp [← heq, hold]
      · simp [heq]

end Tables

namespace Undoable
variable {w₀ w : Writer} {hash : ContentHash} {h : Heap}

theorem refl {w : Writer} (hw : w.AtRest) : Undoable w w where
  base := rfl
  sharing := rfl
  size_le := Nat.le_refl _
  bytes := by simp [Buffer.truncate, size, Buffer.size]
  todo := by simp [hw.todo]
  copied := by rw [hw.newCopies]; rfl
  leaves := by rw [hw.newLeaves]; rfl
  buckets := hw.buckets

theorem appendObject (hu : Undoable w₀ w) (o : Object Value) :
    Undoable w₀ (w.appendObject o) where
  base := hu.base
  sharing := hu.sharing
  size_le := by
    rw [size_appendObject]
    exact Nat.le_add_right_of_le hu.size_le
  bytes := by
    have hslots : ∀ slot ∈ o.slots w.size, w₀.size ≤ slot.1 :=
      fun slot hs => Nat.le_trans hu.size_le (Object.le_of_mem_slots hs)
    rw [Writer.appendObject]
    dsimp only
    rw [Buffer.truncate_putScalars _ hslots, Buffer.truncate_putObject _ hu.size_le,
      Buffer.bytes_truncate_reserve_le _ hu.size_le]
    exact hu.bytes
  todo := by
    intro hole hh
    rcases List.mem_append.mp hh with hnew | hold
    · exact Nat.le_trans hu.size_le (Object.le_of_mem_holes hnew)
    · exact hu.todo hole hold
  copied := hu.copied
  leaves := hu.leaves
  buckets := hu.buckets

theorem dropLeaf (hu : Undoable w₀ w) {pos : Nat} (hpos : w₀.size ≤ pos) :
    Undoable w₀ (w.dropLeaf pos) where
  base := hu.base
  sharing := hu.sharing
  size_le := by
    rw [size_dropLeaf]
    exact Nat.le_min.mpr ⟨hpos, hu.size_le⟩
  bytes := by
    rw [Writer.dropLeaf]
    dsimp only
    rw [Buffer.truncate_truncate _ hpos]
    exact hu.bytes
  todo := hu.todo
  copied := hu.copied
  leaves := hu.leaves
  buckets := hu.buckets

theorem recordLeaf (hu : Undoable w₀ w) (key : UInt64) (pos : Nat) :
    Undoable w₀ (w.recordLeaf key pos) where
  base := hu.base
  sharing := hu.sharing
  size_le := hu.size_le
  bytes := hu.bytes
  todo := hu.todo
  copied := hu.copied
  leaves := by
    rw [Writer.recordLeaf, List.foldl_cons, forgetLeaf_insert (hu.buckets key)]
    exact hu.leaves
  buckets := by
    intro other
    rw [Writer.recordLeaf]
    dsimp only
    rw [Std.ExtTreeMap.getElem?_insert]
    split
    · simp
    · exact hu.buckets other

theorem recordCopy (hu : Undoable w₀ w) {id : Nat} (hc : w.copied[id]? = none) (stored : Nat) :
    Undoable w₀ (w.recordCopy id stored) where
  base := hu.base
  sharing := hu.sharing
  size_le := hu.size_le
  bytes := hu.bytes
  todo := hu.todo
  copied := by
    rw [Writer.recordCopy, List.foldl_cons, erase_insert_of_new hc]
    exact hu.copied
  leaves := hu.leaves
  buckets := hu.buckets

theorem unifyLeaf (hu : Undoable w₀ w) {pos : Nat} (hpos : w₀.size ≤ pos) (contentsAt : Nat) :
    Undoable w₀ (w.unifyLeaf hash pos contentsAt).1 := by
  rcases w.unifyLeaf_cases hash pos contentsAt with ⟨_, h⟩ | ⟨_, _, _, h⟩ | ⟨_, _, h⟩
  · rw [h]
    exact hu
  · rw [h]
    exact hu.dropLeaf hpos
  · rw [h]
    exact hu.recordLeaf _ _

theorem copyObject (hu : Undoable w₀ w) {id : Nat} (hc : w.copied[id]? = none)
    (o : Object Value) : Undoable w₀ (w.copyObject hash id o).1 := by
  have happend := hu.appendObject o
  cases ho : o.isLeaf with
  | false =>
    rw [copyObject_of_not_isLeaf ho]
    exact happend.recordCopy hc _
  | true =>
    rw [copyObject_of_isLeaf ho]
    refine (happend.unifyLeaf hu.size_le _).recordCopy ?_ _
    rw [copied_unifyLeaf]
    exact hc

theorem store (hu : Undoable w₀ w) (id : Nat) : Undoable w₀ (w.store hash h id).1 := by
  cases hc : w.copied[id]? with
  | some stored =>
    rw [store_of_copied hc]
    exact hu
  | none =>
    rw [store_of_new hc]
    exact hu.copyObject hc _

theorem fill (hu : Undoable w₀ w) {slot : Nat} (hslot : w₀.size ≤ slot) (stored : Nat) :
    Undoable w₀ (w.fill slot stored) := by
  have hbuffer : ∀ b : Buffer, b.size = w.buffer.size →
      b.truncate w₀.size = w.buffer.truncate w₀.size → Undoable w₀ { w with buffer := b } := by
    intro b hsize htruncate
    refine { hu with size_le := ?_, bytes := ?_ }
    · exact Nat.le_trans hu.size_le (Nat.le_of_eq hsize.symm)
    · rw [htruncate]
      exact hu.bytes
  exact hbuffer _ (Buffer.size_putWord _ _ _) (Buffer.truncate_putWord _ hslot _)

theorem advance (hu : Undoable w₀ w) {next : Hole} {rest : List Hole}
    (htodo : w.todo = next :: rest) : Undoable w₀ (w.advance hash h next rest) := by
  have hpop : Undoable w₀ { w with todo := rest } :=
    { hu with todo := fun hole hh => hu.todo hole (htodo ▸ List.mem_cons_of_mem _ hh) }
  exact (hpop.store next.child).fill (hu.todo next (htodo ▸ List.mem_cons_self)) _

theorem drain (hu : Undoable w₀ w) : Undoable w₀ (w.drain hash h).1 :=
  drain_invariant w hash h (fun _ _ _ htodo _ hu => hu.advance htodo) hu

theorem storeRoot (hu : Undoable w₀ w) (root : Value) :
    Undoable w₀ (w.storeRoot hash h root).1 := by
  cases root with
  | scalar payload => exact hu
  | object id => exact hu.store id

theorem undo_eq (hw : w₀.AtRest) (hu : Undoable w₀ w) :
    w.undo w₀.size w₀.stats = w₀.withCapacity w.buffer.capacity := by
  have hbuffer : w.buffer.truncate w₀.size = w₀.buffer.withCapacity w.buffer.capacity := by
    rw [Buffer.withCapacity, ← hu.bytes]
    rfl
  simp only [undo, withCapacity, hbuffer, hu.base, hu.sharing, hu.copied, hu.leaves, hw.todo,
    hw.newCopies, hw.newLeaves]

theorem of_writeRoot_eq_none (hw : w₀.AtRest) {v : Writer} {root : Value}
    (hv : w₀.writeRoot hash h root = (v, none)) :
    ∃ u stored, Undoable w₀ u ∧ u.todo = [] ∧ v = u.terminate stored := by
  obtain ⟨_, hdone, _, rfl⟩ := writeRoot_eq_none hv
  exact ⟨_, _, ((refl hw).storeRoot root).drain, todo_drain _ hash h hdone, rfl⟩

theorem of_writeRoot_eq_error (hw : w₀.AtRest) {v : Writer} {e : Obstacle} {root : Value}
    (hv : w₀.writeRoot hash h root = (v, some e)) : Undoable w₀ v := by
  rcases writeRoot_eq_error hv with rfl | ⟨_, rfl⟩
  · exact refl hw
  · exact ((refl hw).storeRoot root).drain

end Undoable

section Calls
variable {w : Writer} {hash : ContentHash} {h : Heap} {c : WriterConfig} {root : Value}

theorem eq_start_of_create? (hw : create? c = .ok w) : w = start c := by
  unfold create? at hw
  split at hw
  · cases hw
  · split at hw
    · cases hw
    · exact (Except.ok.inj hw).symm

theorem atRest_of_create? (hw : create? c = .ok w) : w.AtRest := by
  rw [eq_start_of_create? hw, start]
  exact ⟨rfl, rfl, rfl, fun key => by simp⟩

theorem base_of_create? (hw : create? c = .ok w) : w.base = c.base := by
  rw [eq_start_of_create? hw, start]

theorem sharing_of_create? (hw : create? c = .ok w) : w.sharing = c.sharing := by
  rw [eq_start_of_create? hw, start]

theorem atRest_commit (htodo : w.todo = []) (hbuckets : ∀ key : UInt64, w.leaves[key]? ≠ some []) :
    w.commit.AtRest :=
  ⟨htodo, rfl, rfl, hbuckets⟩

theorem AtRest.withCapacity (hw : w.AtRest) (capacity : Nat) : (w.withCapacity capacity).AtRest :=
  ⟨hw.todo, hw.newCopies, hw.newLeaves, hw.buckets⟩

/-- After a call the writer is at rest again, and after one that fails it is the same one. -/
theorem AtRest.compact (hw : w.AtRest) (hash : ContentHash) (h : Heap) (root : Value) :
    (w.compact hash h root).1.AtRest := by
  rcases compact_cases w hash h root with ⟨v, hv, hcompact⟩ | ⟨v, e, hv, hcompact⟩
  · obtain ⟨u, stored, hu, htodo, rfl⟩ := Undoable.of_writeRoot_eq_none hw hv
    rw [hcompact]
    apply atRest_commit
    · rw [todo_terminate, htodo]
    · rw [leaves_terminate]
      exact hu.buckets
  · rw [hcompact, (Undoable.of_writeRoot_eq_error hw hv).undo_eq hw]
    exact hw.withCapacity _

theorem AtRest.sharing_compact (hw : w.AtRest) (hash : ContentHash) (h : Heap) (root : Value) :
    (w.compact hash h root).1.sharing = w.sharing := by
  rcases compact_cases w hash h root with ⟨v, hv, hcompact⟩ | ⟨v, e, hv, hcompact⟩
  · obtain ⟨u, stored, hu, _, rfl⟩ := Undoable.of_writeRoot_eq_none hw hv
    rw [hcompact, commit, terminate]
    exact hu.sharing
  · rw [hcompact, (Undoable.of_writeRoot_eq_error hw hv).undo_eq hw]
    rfl

theorem AtRest.sharing_calls (hw : w.AtRest) (hash : ContentHash) (calls : List (Heap × Value)) :
    (w.calls hash calls).1.sharing = w.sharing := by
  induction calls generalizing w with
  | nil => rfl
  | cons call rest ih =>
    obtain ⟨h, root⟩ := call
    rw [Writer.calls, ih (hw.compact hash h root), hw.sharing_compact]

theorem Reached.atRest (hw : Reached hash c w) : w.AtRest := by
  induction hw with
  | create hw => exact atRest_of_create? hw
  | compact h root _ ih => exact ih.compact hash h root

theorem compact_eq_error (hw : w.AtRest) {w' : Writer} {e : Obstacle}
    (he : w.compact hash h root = (w', .error e)) : ∃ capacity, w' = w.withCapacity capacity := by
  rcases compact_cases w hash h root with ⟨v, _, hcompact⟩ | ⟨v, _, hv, hcompact⟩
  · cases (Prod.ext_iff.mp (hcompact.symm.trans he)).2
  · have hundo : v.undo w.size w.stats = w' := (Prod.ext_iff.mp (hcompact.symm.trans he)).1
    rw [← hundo, (Undoable.of_writeRoot_eq_error hw hv).undo_eq hw]
    exact ⟨_, rfl⟩

/-- A root that fails leaves no trace but the capacity of the buffer: all later calls do as if it
had never been tried. -/
theorem unchanged_of_compact_eq_error (hw : Reached hash c w) {w' : Writer} {e : Obstacle}
    (he : w.compact hash h root = (w', .error e)) :
    (∃ capacity, w' = { w with buffer := ⟨w.buffer.bytes, capacity⟩ }) ∧
      ∀ later : List (Heap × Value),
        (w'.calls hash later).2 = (w.calls hash later).2 ∧
        (w'.calls hash later).1.data = (w.calls hash later).1.data ∧
        (w'.calls hash later).1.stats = (w.calls hash later).1.stats := by
  obtain ⟨capacity, rfl⟩ := compact_eq_error hw.atRest he
  refine ⟨⟨capacity, rfl⟩, fun later => ?_⟩
  obtain ⟨n, hlater⟩ := w.calls_withCapacity hash capacity later
  rw [hlater]
  exact ⟨rfl, rfl, rfl⟩

end Calls

end Writer

/-- A string, and a constructor that refers to an equal string and to a thunk nobody has forced. -/
def stuckHeap : Heap :=
  ⟨#[⟨.string #[104, 105], false⟩, ⟨.constructor 0 #[.object 2, .object 3] #[], false⟩,
    ⟨.string #[104, 105], false⟩, ⟨.thunk (.waiting (.object 0)), false⟩]⟩

def afterString : Writer := ((Writer.start {}).compact fingerprint stuckHeap (.object 0)).1

theorem compact_stuck :
    (afterString.compact fingerprint stuckHeap (.object 1)).2 = .error .unforcedThunk := by
  cbv

/-- The string is shared, and the constructor written, before the thunk is met. -/
theorem stuck_unchanged :
    Writer.Reached fingerprint {} afterString ∧
      ∀ later : List (Heap × Value),
        ((afterString.compact fingerprint stuckHeap (.object 1)).1.calls fingerprint later).2 =
          (afterString.calls fingerprint later).2 := by
  have hreached : Writer.Reached fingerprint {} afterString := .compact _ _ (.create rfl)
  exact ⟨hreached, fun later =>
    ((Writer.unchanged_of_compact_eq_error hreached (Prod.ext rfl compact_stuck)).2 later).1⟩

end HeapImage
