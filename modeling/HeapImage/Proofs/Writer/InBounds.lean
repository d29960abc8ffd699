import HeapImage.Proofs.Writer.Laid
import HeapImage.Proofs.Writer.Undo

/-!
# Inside of the buffer

What the arithmetic of a writer depends on: the size of the buffer, where the known leaves stand,
and where something is still to be filled in. A record may be taken away from the end again, but
only the last one, and only as long as nothing refers to it. So what is known stays inside, whatever
the heaps and roots of the calls are.
-/

namespace HeapImage
set_option autoImplicit false

namespace Object
variable {o : Object Value} {pos : Nat}

theorem slots_fit {slot : Nat × Value} (hs : slot ∈ o.slots pos) : slot.1 + 8 ≤ pos + o.extent := by
  have hfilled := o.filled_le_extent
  simp only [slots, List.mem_mapIdx] at hs
  obtain ⟨i, hi, rfl⟩ := hs
  dsimp only
  omega

theorem holes_fit {hole : Hole} (hh : hole ∈ o.holes pos) : hole.slot + 8 ≤ pos + o.extent :=
  slots_fit (mem_holes.mp hh)

theorem contentsAt_le (o : Object Value) : o.contentsAt ≤ 16 := by
  cases o <;> simp [contentsAt]

end Object

/-- A record is aligned, and lies behind the header and in front of the given offset. -/
structure LeafRecord.Within (leaf : LeafRecord) (stop : Nat) : Prop where
  aligned : leaf.offset % 8 = 0
  header_le : headerSize ≤ leaf.offset
  le_stop : leaf.offset + leaf.size ≤ stop

theorem LeafRecord.Within.of_le {leaf : LeafRecord} {stop later : Nat} (hleaf : leaf.Within stop)
    (hle : stop ≤ later) : leaf.Within later :=
  { hleaf with le_stop := Nat.le_trans hleaf.le_stop hle }

theorem scalarWord_lt (payload : Fin scalarLimit) : scalarWord payload < wordLimit := by
  have := payload.isLt
  simp only [scalarWord, wordLimit, scalarLimit] at *
  omega

namespace Writer

structure InBounds (w : Writer) : Prop where
  base_mod : w.base.toNat % 8 = 0
  size_mod : w.size % 8 = 0
  header_le : headerSize ≤ w.size
  /-- The last addresses may be too few for anything but the header. -/
  room : headerSize < w.size → w.base.toNat + w.size < wordLimit
  leaves : ∀ key : UInt64, ∀ leaf ∈ w.leaves.getD key [], leaf.Within w.size
  holes : ∀ hole ∈ w.todo, hole.slot + 8 ≤ w.size
  copied : ∀ id stored : Nat, w.copied[id]? = some stored → stored < wordLimit

/-- A record can start at an offset, and its address is a word. -/
structure Addressable (w : Writer) (offset : Nat) : Prop where
  aligned : offset % 8 = 0
  header_le : headerSize ≤ offset
  address : w.base.toNat + offset < wordLimit

namespace InBounds
variable {w w₀ : Writer} {hash : ContentHash} {h : Heap} {o : Object Value} {id pos size : Nat}

theorem size_lt (hw : w.InBounds) : w.size < wordLimit := by
  by_cases hroom : headerSize < w.size
  · have := hw.room hroom
    omega
  · have hlimit : headerSize < wordLimit := by decide
    omega

theorem withCapacity (hw : w.InBounds) (capacity : Nat) : (w.withCapacity capacity).InBounds :=
  ⟨hw.base_mod, hw.size_mod, hw.header_le, hw.room, hw.leaves, hw.holes, hw.copied⟩

/-- A larger buffer will do, if it is aligned and all its addresses are words. -/
theorem resize (hw : w.InBounds) {b : Buffer} (stats : Stats) (hle : w.size ≤ b.size)
    (hmod : b.size % 8 = 0) (hroom : headerSize < b.size → w.base.toNat + b.size < wordLimit) :
    InBounds { w with buffer := b, stats := stats } where
  base_mod := hw.base_mod
  size_mod := hmod
  header_le := Nat.le_trans hw.header_le hle
  room := hroom
  leaves := fun key leaf hleaf => (hw.leaves key leaf hleaf).of_le hle
  holes := fun hole hhole => Nat.le_trans (hw.holes hole hhole) hle
  copied := hw.copied

theorem of_size_eq (hw : w.InBounds) {b : Buffer} (stats : Stats) (hsize : b.size = w.size) :
    InBounds { w with buffer := b, stats := stats } := by
  refine hw.resize stats (Nat.le_of_eq hsize.symm) ?_ ?_
  · rw [hsize]
    exact hw.size_mod
  · rw [hsize]
    exact hw.room

theorem recordCopy (hw : w.InBounds) {stored : Nat} (hstored : stored < wordLimit) :
    (w.recordCopy id stored).InBounds := by
  refine { hw with copied := ?_ }
  intro other word hother
  rcases eq_or_of_getElem?_insert hother with ⟨_, rfl⟩ | hold
  · exact hstored
  · exact hw.copied other word hold

/-- What was known before the last record does not reach into it, so that record can go. -/
theorem dropLeaf (hw : w.InBounds) (hleaf : o.isLeaf = true) :
    ((w.appendObject o).dropLeaf w.size).InBounds := by
  have hsize : ((w.appendObject o).dropLeaf w.size).size = w.size := by
    rw [size_dropLeaf, size_appendObject]
    omega
  have htodo : (w.appendObject o).todo = w.todo := by
    rw [appendObject, Object.holes_of_isLeaf hleaf, List.nil_append]
  refine { hw.of_size_eq ((w.appendObject o).dropLeaf w.size).stats hsize with holes := ?_ }
  intro hole hhole
  rw [hsize]
  exact hw.holes hole (htodo ▸ hhole)

section Room
variable (hw : w.InBounds) (hroom : w.hasRoom size = true)
include hw hroom

theorem addressable_size : w.Addressable w.size := by
  rw [hasRoom, decide_eq_true_eq] at hroom
  exact ⟨hw.size_mod, hw.header_le, by omega⟩

/-- Any known leaf can be referred to, of whatever kind it is. -/
theorem addressable_leaf {key : UInt64} {leaf : LeafRecord} (hleaf : leaf ∈ w.leaves.getD key []) :
    w.Addressable leaf.offset := by
  have hwithin := hw.leaves key leaf hleaf
  have hstop := hwithin.le_stop
  rw [hasRoom, decide_eq_true_eq] at hroom
  exact ⟨hwithin.aligned, hwithin.header_le, by omega⟩

variable (hrecord : o.recordSize? = some size)
include hrecord

theorem appendObject : (w.appendObject o).InBounds := by
  obtain ⟨hextent, _⟩ := Object.recordSize?_eq_some_iff.mp hrecord
  have hsize : (w.appendObject o).size = w.size + size := by
    rw [size_appendObject, hrecord, Option.getD_some]
  have hle : w.size ≤ (w.appendObject o).size := hsize.symm ▸ Nat.le_add_right _ _
  have hmod : (w.appendObject o).size % 8 = 0 := by
    rw [hsize, Nat.add_mod, hw.size_mod, hextent, roundUp_mod]
  rw [hasRoom, decide_eq_true_eq, ← hsize] at hroom
  refine { hw.resize (w.appendObject o).stats hle hmod fun _ => hroom.2 with holes := ?_ }
  intro hole hhole
  rcases List.mem_append.mp hhole with hnew | hold
  · have hfits := Object.holes_fit hnew
    have hup := le_roundUp o.extent
    omega
  · exact Nat.le_trans (hw.holes hole hold) hle

theorem recordLeaf (key : UInt64) : ((w.appendObject o).recordLeaf key w.size).InBounds := by
  have happend := hw.appendObject hroom hrecord
  have hle : w.size ≤ (w.appendObject o).size := by
    rw [size_appendObject]
    exact Nat.le_add_right _ _
  refine { happend with leaves := ?_ }
  intro other leaf hmem
  rw [Writer.recordLeaf, Std.ExtTreeMap.getD_insert] at hmem
  split at hmem
  · rcases List.mem_append.mp hmem with hold | hnew
    · exact happend.leaves key leaf hold
    · rw [List.mem_singleton.mp hnew]
      exact ⟨hw.size_mod, hw.header_le, Nat.le_of_eq (Nat.add_sub_cancel' hle)⟩
  · exact happend.leaves other leaf hmem

theorem unifyLeaf (hash : ContentHash) (hleaf : o.isLeaf = true) :
    ((w.appendObject o).unifyLeaf hash w.size o.contentsAt).1.InBounds ∧
      w.Addressable ((w.appendObject o).unifyLeaf hash w.size o.contentsAt).2 := by
  rcases (w.appendObject o).unifyLeaf_cases hash w.size o.contentsAt with
    ⟨_, hunify⟩ | ⟨leaf, _, hfound, hunify⟩ | ⟨_, _, hunify⟩
  · rw [hunify]
    exact ⟨hw.appendObject hroom hrecord, hw.addressable_size hroom⟩
  · rw [hunify]
    exact ⟨hw.dropLeaf hleaf, hw.addressable_leaf hroom (List.mem_of_find?_eq_some hfound)⟩
  · rw [hunify]
    exact ⟨hw.recordLeaf hroom hrecord _, hw.addressable_size hroom⟩

end Room

theorem copyObject (hw : w.InBounds) (ho : o.obstacle? w.hasRoom = none) :
    (w.copyObject hash id o).1.InBounds ∧ (w.copyObject hash id o).2 < wordLimit := by
  obtain ⟨_, size, hrecord, hroom⟩ := Object.obstacle?_eq_none_iff.mp ho
  cases hleaf : o.isLeaf with
  | false =>
    have hstored := (hw.addressable_size hroom).address
    rw [copyObject_of_not_isLeaf hleaf]
    exact ⟨(hw.appendObject hroom hrecord).recordCopy hstored, hstored⟩
  | true =>
    obtain ⟨hunify, haddressable⟩ := hw.unifyLeaf hroom hrecord hash hleaf
    have hbase : ((w.appendObject o).unifyLeaf hash w.size o.contentsAt).1.base = w.base :=
      base_unifyLeaf _ _ _ _
    have hstored := haddressable.address
    rw [← hbase] at hstored
    rw [copyObject_of_isLeaf hleaf]
    exact ⟨hunify.recordCopy hstored, hstored⟩

theorem store (hw : w.InBounds) (hnone : w.obstacle? h id = none) :
    (w.store hash h id).1.InBounds ∧ (w.store hash h id).2 < wordLimit := by
  rcases obstacle?_eq_none_iff.mp hnone with ⟨stored, hc⟩ | ⟨hc, ho⟩
  · rw [store_of_copied hc]
    exact ⟨hw, hw.copied id stored hc⟩
  · rw [store_of_new hc]
    exact hw.copyObject ho

theorem fill (hw : w.InBounds) (slot stored : Nat) : (w.fill slot stored).InBounds :=
  hw.of_size_eq w.stats (Buffer.size_putWord _ _ _)

theorem pop (hw : w.InBounds) {next : Hole} {rest : List Hole} (htodo : w.todo = next :: rest) :
    InBounds { w with todo := rest } :=
  { hw with holes := fun hole hhole => hw.holes hole (htodo ▸ List.mem_cons_of_mem next hhole) }

theorem advance (hw : w.InBounds) {next : Hole} {rest : List Hole} (htodo : w.todo = next :: rest)
    (hnone : w.obstacle? h next.child = none) : (w.advance hash h next rest).InBounds :=
  ((hw.pop htodo).store hnone).1.fill _ _

theorem drain (hw : w.InBounds) : (w.drain hash h).1.InBounds :=
  drain_invariant w hash h (fun _ _ _ htodo hnone hw => hw.advance htodo hnone) hw

theorem storeRoot (hw : w.InBounds) {root : Value} (hnone : root.id?.bind (w.obstacle? h) = none) :
    (w.storeRoot hash h root).1.InBounds ∧ (w.storeRoot hash h root).2 < wordLimit := by
  cases root with
  | scalar payload => exact ⟨hw, scalarWord_lt payload⟩
  | object id => exact hw.store hnone

theorem terminate (hw : w.InBounds) (hroom : w.hasRoom terminatorSize = true) (root : Nat) :
    (w.terminate root).InBounds := by
  have hsize := size_terminate w root
  have hmod := hw.size_mod
  rw [hasRoom, decide_eq_true_eq] at hroom
  refine hw.resize _ ?_ ?_ fun _ => ?_
  · change w.size ≤ (w.terminate root).size
    rw [hsize]
    exact Nat.le_add_right _ _
  · change (w.terminate root).size % 8 = 0
    rw [hsize, terminatorSize]
    omega
  · change w.base.toNat + (w.terminate root).size < wordLimit
    rw [hsize]
    exact hroom.2

theorem start (c : WriterConfig) (hbase : c.base.toNat % 8 = 0) : (Writer.start c).InBounds := by
  have hsize : (Writer.start c).size = headerSize := by
    rw [Writer.start, size, Buffer.size_putWord, Buffer.size_putWord, Buffer.size_reserve,
      Buffer.size_empty, Nat.zero_add]
  constructor
  case base_mod => exact hbase
  case size_mod => rw [hsize, headerSize]
  case header_le => exact Nat.le_of_eq hsize.symm
  case room =>
    rw [hsize]
    exact fun hlt => absurd hlt (Nat.lt_irrefl _)
  case leaves =>
    intro key leaf hleaf
    rw [Writer.start, Std.ExtTreeMap.getD_empty] at hleaf
    cases hleaf
  case holes => exact List.forall_mem_nil _
  case copied =>
    intro id stored hc
    rw [Writer.start, Std.ExtTreeMap.getElem?_empty] at hc
    cases hc

theorem create? {c : WriterConfig} (hw : Writer.create? c = .ok w) : w.InBounds := by
  unfold Writer.create? at hw
  split at hw
  · cases hw
  · rename_i hbase
    split at hw
    · cases hw
    · rw [← Except.ok.inj hw]
      exact start c (not_not.mp hbase)

theorem writeRoot_eq_none (hw : w.InBounds) {root : Value} {later : Writer}
    (hlater : w.writeRoot hash h root = (later, none)) : later.InBounds := by
  obtain ⟨hroot, _, hroom, rfl⟩ := Writer.writeRoot_eq_none hlater
  exact (hw.storeRoot hroot).1.drain.terminate hroom _

theorem compact (hw : w.InBounds) (hrest : w.AtRest) (hash : ContentHash) (h : Heap)
    (root : Value) : (w.compact hash h root).1.InBounds := by
  rcases compact_cases w hash h root with ⟨later, hlater, hcompact⟩ | ⟨later, e, hlater, hcompact⟩
  · rw [hcompact]
    have hdone := hw.writeRoot_eq_none hlater
    exact ⟨hdone.base_mod, hdone.size_mod, hdone.header_le, hdone.room, hdone.leaves, hdone.holes,
      hdone.copied⟩
  · rw [hcompact, (Undoable.of_writeRoot_eq_error hrest hlater).undo_eq hrest]
    exact hw.withCapacity _

end InBounds

theorem Reached.inBounds {hash : ContentHash} {c : WriterConfig} {w : Writer}
    (hw : Reached hash c w) : w.InBounds := by
  induction hw with
  | create hw => exact .create? hw
  | compact h root hw ih => exact ih.compact hw.atRest hash h root

/-- Neither the size nor the counts have fallen below the given ones. -/
structure AtLeast (w : Writer) (size : Nat) (stats : Stats) : Prop where
  size_le : size ≤ w.size
  objects_le : stats.objects ≤ w.stats.objects
  shared_le : stats.shared ≤ w.stats.shared

namespace AtLeast
variable {w : Writer} {size : Nat} {stats : Stats} {hash : ContentHash} {h : Heap} {id : Nat}

theorem refl (w : Writer) : w.AtLeast w.size w.stats :=
  ⟨Nat.le_refl _, Nat.le_refl _, Nat.le_refl _⟩

theorem recordCopy (hw : w.AtLeast size stats) (stored : Nat) :
    (w.recordCopy id stored).AtLeast size stats :=
  ⟨hw.size_le, hw.objects_le, hw.shared_le⟩

/-- A leaf that is dropped was counted when it was appended. -/
theorem copyObject (hw : w.AtLeast size stats) (o : Object Value) :
    (w.copyObject hash id o).1.AtLeast size stats := by
  have happend : (w.appendObject o).AtLeast size stats := by
    refine ⟨?_, Nat.le_trans hw.objects_le (Nat.le_succ _), hw.shared_le⟩
    rw [size_appendObject]
    exact Nat.le_trans hw.size_le (Nat.le_add_right _ _)
  cases hleaf : o.isLeaf with
  | false =>
    rw [copyObject_of_not_isLeaf hleaf]
    exact happend.recordCopy _
  | true =>
    rw [copyObject_of_isLeaf hleaf]
    apply recordCopy
    rcases (w.appendObject o).unifyLeaf_cases hash w.size o.contentsAt with
      ⟨_, hunify⟩ | ⟨leaf, _, _, hunify⟩ | ⟨_, _, hunify⟩
    · rw [hunify]
      exact happend
    · rw [hunify]
      refine ⟨?_, hw.objects_le, Nat.le_trans hw.shared_le (Nat.le_succ _)⟩
      rw [size_dropLeaf]
      exact Nat.le_min.mpr ⟨hw.size_le, happend.size_le⟩
    · rw [hunify]
      exact ⟨happend.size_le, happend.objects_le, happend.shared_le⟩

theorem store (hw : w.AtLeast size stats) (id : Nat) :
    (w.store hash h id).1.AtLeast size stats := by
  cases hc : w.copied[id]? with
  | some stored =>
    rw [store_of_copied hc]
    exact hw
  | none =>
    rw [store_of_new hc]
    exact hw.copyObject _

theorem advance (hw : w.AtLeast size stats) (next : Hole) (rest : List Hole) :
    (w.advance hash h next rest).AtLeast size stats := by
  have hpop : AtLeast { w with todo := rest } size stats :=
    ⟨hw.size_le, hw.objects_le, hw.shared_le⟩
  have hstore : ({ w with todo := rest }.store hash h next.child).1.AtLeast size stats :=
    hpop.store next.child
  refine ⟨?_, hstore.objects_le, hstore.shared_le⟩
  rw [Writer.advance, size_fill]
  exact hstore.size_le

theorem drain (hw : w.AtLeast size stats) : (w.drain hash h).1.AtLeast size stats := by
  refine drain_invariant w hash h (motive := fun later => later.AtLeast size stats) ?_ hw
  intro w next rest _ _ hw
  exact hw.advance next rest

theorem storeRoot (hw : w.AtLeast size stats) (root : Value) :
    (w.storeRoot hash h root).1.AtLeast size stats := by
  cases root with
  | scalar payload => exact hw
  | object id => exact hw.store id

theorem terminate (hw : w.AtLeast size stats) (root : Nat) :
    (w.terminate root).AtLeast size stats := by
  refine ⟨?_, hw.objects_le, hw.shared_le⟩
  rw [size_terminate]
  exact Nat.le_trans hw.size_le (Nat.le_add_right _ _)

theorem writeRoot (hw : w.AtLeast size stats) (hash : ContentHash) (h : Heap) (root : Value) :
    (w.writeRoot hash h root).1.AtLeast size stats := by
  cases hlater : w.writeRoot hash h root with
  | mk later failed =>
    cases failed with
    | none =>
      obtain ⟨_, _, _, rfl⟩ := writeRoot_eq_none hlater
      exact (hw.storeRoot root).drain.terminate _
    | some e =>
      rcases writeRoot_eq_error hlater with rfl | ⟨_, rfl⟩
      · exact hw
      · exact (hw.storeRoot root).drain

end AtLeast

end Writer
end HeapImage
