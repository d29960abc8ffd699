import HeapImage.Proofs.Writer.Laid
import HeapImage.Proofs.Writer.Undo

/-!
# Buckets of leaves

A leaf is recorded when it is the last record, so it stands behind all leaves that were recorded
before; and a leaf that is dropped was never recorded. So each bucket lists its leaves in the order
in which they stand in the image, whatever the hashes are.
-/

namespace HeapImage
set_option autoImplicit false

namespace Writer

/-- Each bucket goes up through the image, and without sharing there is none. -/
structure Ascending (w : Writer) : Prop where
  below : ∀ key : UInt64, ∀ leaf ∈ w.leaves.getD key [], leaf.offset < w.size
  ascending : ∀ key : UInt64,
    (w.leaves.getD key []).Pairwise fun first second => first.offset < second.offset
  unshared : w.sharing = false → w.leaves = ∅

namespace Ascending
variable {w w' : Writer} {hash : ContentHash} {h : Heap} {o : Object Value} {id : Nat}

theorem of_leaves_eq (hw : w.Ascending) (hle : w.size ≤ w'.size) (hsharing : w'.sharing = w.sharing)
    (hleaves : w'.leaves = w.leaves) : w'.Ascending where
  below key leaf hleaf := (hw.below key leaf (hleaves ▸ hleaf)).trans_le hle
  ascending key := hleaves ▸ hw.ascending key
  unshared hs := hleaves.trans (hw.unshared (hsharing.symm.trans hs))

theorem appendObject (hw : w.Ascending) (o : Object Value) : (w.appendObject o).Ascending := by
  refine hw.of_leaves_eq ?_ rfl rfl
  rw [size_appendObject]
  exact Nat.le_add_right _ _

/-- The leaf that was appended last comes last in its bucket. -/
theorem recordLeaf (hw : w.Ascending) (hs : w.sharing = true)
    (hsize : w.size < (w.appendObject o).size) (key : UInt64) :
    ((w.appendObject o).recordLeaf key w.size).Ascending := by
  have hbucket : ∀ other : UInt64,
      ((w.appendObject o).recordLeaf key w.size).leaves.getD other [] =
        if key = other then
          w.leaves.getD key [] ++ [⟨w.size, (w.appendObject o).size - w.size⟩]
        else w.leaves.getD other [] := by
    intro other
    rw [Writer.recordLeaf, Std.ExtTreeMap.getD_insert]
    simp only [Std.compare_eq_iff_eq]
    rfl
  constructor
  case below =>
    intro other leaf hmem
    rw [hbucket] at hmem
    change leaf.offset < (w.appendObject o).size
    split at hmem
    · rcases List.mem_append.mp hmem with hold | hnew
      · exact (hw.below key leaf hold).trans hsize
      · rw [List.mem_singleton.mp hnew]
        exact hsize
    · exact (hw.below other leaf hmem).trans hsize
  case ascending =>
    intro other
    rw [hbucket]
    split
    · refine List.pairwise_append.mpr ⟨hw.ascending key, List.pairwise_singleton _ _, ?_⟩
      intro leaf hleaf last hlast
      rw [List.mem_singleton.mp hlast]
      exact hw.below key leaf hleaf
    · exact hw.ascending other
  case unshared =>
    intro hoff
    cases hs.symm.trans hoff

theorem unifyLeaf (hw : w.Ascending) (hsize : w.size < (w.appendObject o).size)
    (hash : ContentHash) :
    ((w.appendObject o).unifyLeaf hash w.size o.contentsAt).1.Ascending := by
  rcases (w.appendObject o).unifyLeaf_cases hash w.size o.contentsAt with
    ⟨_, hunify⟩ | ⟨leaf, _, _, hunify⟩ | ⟨hs, _, hunify⟩
  · rw [hunify]
    exact hw.appendObject o
  · rw [hunify]
    refine hw.of_leaves_eq ?_ rfl rfl
    rw [size_dropLeaf]
    exact Nat.le_min.mpr ⟨Nat.le_refl _, Nat.le_of_lt hsize⟩
  · rw [hunify]
    exact hw.recordLeaf hs hsize _

theorem copyObject (hw : w.Ascending) (ho : o.obstacle? w.hasRoom = none) :
    (w.copyObject hash id o).1.Ascending := by
  obtain ⟨_, size, hrecord, _⟩ := Object.obstacle?_eq_none_iff.mp ho
  have hsize : w.size < (w.appendObject o).size := by
    obtain ⟨payload, _, hsize⟩ := Option.bind_eq_some_iff.mp hrecord
    have hpos := pos_of_recordSize? hsize
    rw [size_appendObject, hrecord, Option.getD_some]
    omega
  cases hleaf : o.isLeaf with
  | false =>
    rw [copyObject_of_not_isLeaf hleaf]
    exact (hw.appendObject o).of_leaves_eq (Nat.le_refl _) rfl rfl
  | true =>
    rw [copyObject_of_isLeaf hleaf]
    exact (hw.unifyLeaf hsize hash).of_leaves_eq (Nat.le_refl _) rfl rfl

theorem store (hw : w.Ascending) (hnone : w.obstacle? h id = none) :
    (w.store hash h id).1.Ascending := by
  rcases obstacle?_eq_none_iff.mp hnone with ⟨stored, hc⟩ | ⟨hc, ho⟩
  · rw [store_of_copied hc]
    exact hw
  · rw [store_of_new hc]
    exact hw.copyObject ho

theorem fill (hw : w.Ascending) (slot stored : Nat) : (w.fill slot stored).Ascending := by
  refine hw.of_leaves_eq (Nat.le_of_eq (size_fill w slot stored).symm) (sharing_fill w _ _) ?_
  rw [Writer.fill]

theorem advance (hw : w.Ascending) {next : Hole} (rest : List Hole)
    (hnone : w.obstacle? h next.child = none) : (w.advance hash h next rest).Ascending := by
  have hpop : Ascending { w with todo := rest } := hw.of_leaves_eq (Nat.le_refl _) rfl rfl
  exact (hpop.store hnone).fill _ _

theorem drain (hw : w.Ascending) : (w.drain hash h).1.Ascending :=
  drain_invariant w hash h (fun _ _ rest _ hnone hw => hw.advance rest hnone) hw

theorem storeRoot (hw : w.Ascending) {root : Value}
    (hnone : root.id?.bind (w.obstacle? h) = none) : (w.storeRoot hash h root).1.Ascending := by
  cases root with
  | scalar payload => exact hw
  | object id => exact hw.store hnone

theorem terminate (hw : w.Ascending) (root : Nat) : (w.terminate root).Ascending := by
  refine hw.of_leaves_eq ?_ (sharing_terminate w root) (leaves_terminate w root)
  rw [size_terminate]
  exact Nat.le_add_right _ _

theorem commit (hw : w.Ascending) : w.commit.Ascending := ⟨hw.below, hw.ascending, hw.unshared⟩

theorem withCapacity (hw : w.Ascending) (capacity : Nat) : (w.withCapacity capacity).Ascending :=
  ⟨hw.below, hw.ascending, hw.unshared⟩

/-- A call that fails takes back what it has recorded. -/
theorem compact (hw : w.Ascending) (hrest : w.AtRest) (hash : ContentHash) (h : Heap)
    (root : Value) : (w.compact hash h root).1.Ascending := by
  rcases compact_cases w hash h root with ⟨later, hlater, hcompact⟩ | ⟨later, e, hlater, hcompact⟩
  · obtain ⟨hroot, _, _, rfl⟩ := writeRoot_eq_none hlater
    have hstored : (w.storeRoot hash h root).1.Ascending := hw.storeRoot hroot
    have hdrained : ((w.storeRoot hash h root).1.drain hash h).1.Ascending := hstored.drain
    rw [hcompact]
    exact (hdrained.terminate _).commit
  · rw [hcompact, (Undoable.of_writeRoot_eq_error hrest hlater).undo_eq hrest]
    exact hw.withCapacity _

theorem create? {c : WriterConfig} (hw : Writer.create? c = .ok w) : w.Ascending := by
  have hleaves : w.leaves = ∅ := by rw [eq_start_of_create? hw, Writer.start]
  refine ⟨fun key leaf hleaf => ?_, fun key => ?_, fun _ => hleaves⟩
  · rw [hleaves, Std.ExtTreeMap.getD_empty] at hleaf
    cases hleaf
  · rw [hleaves, Std.ExtTreeMap.getD_empty]
    exact .nil

theorem calls (hw : w.Ascending) (hrest : w.AtRest) (hash : ContentHash)
    (calls : List (Heap × Value)) : (w.calls hash calls).1.Ascending := by
  induction calls generalizing w with
  | nil => exact hw
  | cons call rest ih =>
    obtain ⟨h, root⟩ := call
    exact ih (hw.compact hrest hash h root) (hrest.compact hash h root)

end Ascending

end Writer
end HeapImage
