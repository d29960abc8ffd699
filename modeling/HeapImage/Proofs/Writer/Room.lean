import HeapImage.Proofs.Accounting
import HeapImage.Proofs.Writer.Preorder

/-!
# Room for a root

When a root is refused for the lack of room. The image with the root has a size that follows from
the set of the objects to be copied. If this size has no place at the base address, there is no
room; but a leaf is written before it is compared with the others, so that one which is shared in
the end takes room for a moment too. A call that would fit is refused if and only if such a leaf
does not.
-/

namespace HeapImage
set_option autoImplicit false

/-- An image of this size is not too large, and ends before the last address. -/
def FitsAt (base size : Nat) : Prop := size ≤ sizeLimit ∧ base + size < wordLimit

theorem FitsAt.of_le {base size size' : Nat} (hfits : FitsAt base size) (hle : size' ≤ size) :
    FitsAt base size' :=
  ⟨hle.trans hfits.1, Nat.lt_of_le_of_lt (Nat.add_le_add_left hle base) hfits.2⟩

instance (base size : Nat) : Decidable (FitsAt base size) := inferInstanceAs (Decidable (_ ∧ _))

namespace Heap
variable (h : Heap) (sharing : Bool) (layout : List HeapImage.Entry)

/-- The contents of the leaves among some objects that the layout does not have yet. -/
def newContentsIn (objects : Finset Nat) : Finset (Object Value) :=
  h.contentsIn objects \ (objectsOf layout).toFinset

/-- What some objects add to the size of an image. -/
def addedSize (objects : Finset Nat) : Nat :=
  if sharing then
    ∑ id ∈ h.innerIn objects, roundUp (h.object id).extent +
      ∑ o ∈ h.newContentsIn layout objects, roundUp o.extent
  else ∑ id ∈ objects, roundUp (h.object id).extent

theorem addedSize_empty : h.addedSize sharing layout ∅ = 0 := by
  have hnone : h.newContentsIn layout ∅ = ∅ := Finset.empty_sdiff _
  cases sharing with
  | false => rfl
  | true =>
    rw [addedSize, if_pos rfl, hnone]
    rfl

section Adding
variable {h layout} {id : Nat} {objects : Finset Nat}

theorem innerIn_insert_of_isLeaf (hleaf : (h.object id).isLeaf = true) :
    h.innerIn (insert id objects) = h.innerIn objects := by
  rw [innerIn, Finset.filter_insert, if_neg (not_not.mpr hleaf), innerIn]

theorem contentsIn_insert_of_isLeaf (hleaf : (h.object id).isLeaf = true) :
    h.contentsIn (insert id objects) = insert (h.object id) (h.contentsIn objects) := by
  rw [contentsIn, leavesIn, Finset.filter_insert, if_pos hleaf, Finset.image_insert, contentsIn,
    leavesIn]

theorem contentsIn_insert_of_not_isLeaf (hinner : ¬(h.object id).isLeaf = true) :
    h.contentsIn (insert id objects) = h.contentsIn objects := by
  rw [contentsIn, leavesIn, Finset.filter_insert, if_neg hinner, contentsIn, leavesIn]

theorem isLeaf_of_mem_contentsIn {o : Object Value} (ho : o ∈ h.contentsIn objects) :
    o.isLeaf = true := by
  obtain ⟨id, hid, rfl⟩ := Finset.mem_image.mp ho
  exact (Finset.mem_filter.mp hid).2

theorem mem_newContentsIn {o : Object Value} : o ∈ h.newContentsIn layout objects ↔
    o ∈ h.contentsIn objects ∧ o ∉ objectsOf layout := by
  rw [newContentsIn, Finset.mem_sdiff, List.mem_toFinset]

theorem newContentsIn_concat {o : Object Value} :
    h.newContentsIn (layout ++ [.object id o]) objects =
      (h.newContentsIn layout objects).erase o := by
  have hobjects : ∀ other, other ∈ objectsOf (layout ++ [.object id o]) ↔
      other ∈ objectsOf layout ∨ other = o := by
    intro other
    rw [objectsOf, List.filterMap_append, List.mem_append]
    exact or_congr_right List.mem_singleton
  ext other
  rw [mem_newContentsIn, hobjects, Finset.mem_erase, mem_newContentsIn]
  tauto

theorem newContentsIn_insert_of_new (hleaf : (h.object id).isLeaf = true)
    (hnew : h.object id ∉ objectsOf layout) : h.newContentsIn layout (insert id objects) =
      insert (h.object id) ((h.newContentsIn layout objects).erase (h.object id)) := by
  rw [newContentsIn, contentsIn_insert_of_isLeaf hleaf,
    Finset.insert_sdiff_of_notMem _ (by rwa [List.mem_toFinset]), ← newContentsIn,
    ← Finset.erase_insert_eq_erase, Finset.insert_erase (Finset.mem_insert_self _ _)]

/-- An object adds its record first, if it has one of its own, and then the others add theirs. -/
theorem addedSize_insert (hid : id ∉ objects) : h.addedSize sharing layout (insert id objects) =
    totalSize (additions sharing layout id (h.object id)) +
      h.addedSize sharing (layout ++ additions sharing layout id (h.object id)) objects := by
  have htotal : totalSize [.object id (h.object id)] = roundUp (h.object id).extent := rfl
  rw [additions]
  cases sharing with
  | false =>
    rw [if_neg fun hs => Bool.false_ne_true hs.1, htotal]
    exact Finset.sum_insert hid
  | true =>
    simp only [addedSize, if_true, true_and]
    by_cases hleaf : (h.object id).isLeaf = true
    · rw [innerIn_insert_of_isLeaf hleaf]
      by_cases hold : h.object id ∈ objectsOf layout
      · rw [if_pos ⟨hleaf, hold⟩, List.append_nil, totalSize_nil, Nat.zero_add, newContentsIn,
          contentsIn_insert_of_isLeaf hleaf,
          Finset.insert_sdiff_of_mem _ (List.mem_toFinset.mpr hold), newContentsIn]
      · rw [if_neg fun h => hold h.2, newContentsIn_concat, htotal,
          newContentsIn_insert_of_new hleaf hold, Finset.sum_insert (Finset.notMem_erase _ _)]
        exact Nat.add_left_comm _ _ _
    · have hkeep : (h.newContentsIn layout objects).erase (h.object id) =
          h.newContentsIn layout objects :=
        Finset.erase_eq_of_notMem fun hmem =>
          hleaf (isLeaf_of_mem_contentsIn (mem_newContentsIn.mp hmem).1)
      have hinner : h.innerIn (insert id objects) = insert id (h.innerIn objects) := by
        rw [innerIn, Finset.filter_insert, if_pos hleaf, innerIn]
      have hnotin : id ∉ h.innerIn objects := fun hmem => hid (Finset.mem_filter.mp hmem).1
      rw [if_neg fun h => hleaf h.1, newContentsIn_concat, hkeep, htotal, hinner,
        Finset.sum_insert hnotin, newContentsIn, contentsIn_insert_of_not_isLeaf hleaf,
        ← newContentsIn]
      exact Nat.add_assoc _ _ _

end Adding

end Heap

section Layouts
variable {h : Heap} {sharing : Bool} {layout : List Entry} {order : List Nat}

theorem totalSize_layoutAfter (horder : order.Nodup) :
    totalSize (layoutAfter h sharing layout order) =
      totalSize layout + h.addedSize sharing layout order.toFinset := by
  induction order generalizing layout with
  | nil => rw [List.toFinset_nil, Heap.addedSize_empty, Nat.add_zero, layoutAfter, List.foldl_nil]
  | cons id rest ih =>
    obtain ⟨hid, hrest⟩ := List.nodup_cons.mp horder
    have hnext : layoutAfter h sharing layout (id :: rest) =
        layoutAfter h sharing (layout ++ additions sharing layout id (h.object id)) rest := rfl
    rw [hnext, ih hrest, List.toFinset_cons, h.addedSize_insert sharing (by simpa using hid),
      totalSize_append, Nat.add_assoc]

/-- Each of the objects has a place for its record behind those before it, also if the record does
not stay. -/
def Roomy (base : Nat) (h : Heap) (sharing : Bool) (layout : List Entry) (order : List Nat) : Prop :=
  ∀ before id later, order = before ++ id :: later → FitsAt base
    (headerSize + totalSize (layoutAfter h sharing layout before) + roundUp (h.object id).extent)

theorem roomy_nil (base : Nat) (h : Heap) (sharing : Bool) (layout : List Entry) :
    Roomy base h sharing layout [] := by
  intro before id later hsplit
  exact absurd (List.nil_eq_append_iff.mp hsplit).2 (List.cons_ne_nil _ _)

theorem roomy_cons {base id : Nat} : Roomy base h sharing layout (id :: order) ↔
    FitsAt base (headerSize + totalSize layout + roundUp (h.object id).extent) ∧
      Roomy base h sharing (layout ++ additions sharing layout id (h.object id)) order := by
  constructor
  · intro hroomy
    refine ⟨hroomy [] id order rfl, ?_⟩
    rintro before other later rfl
    exact hroomy (id :: before) other later rfl
  · rintro ⟨hfirst, hrest⟩ before other later hsplit
    rcases List.cons_eq_append_iff.mp hsplit with ⟨rfl, heq⟩ | ⟨before, rfl, rfl⟩
    · cases heq
      exact hfirst
    · exact hrest before other later rfl

/-- A leaf that an equal one is shared for has no place for its record, which is written before the
leaves are compared. -/
def Cramped (base : Nat) (h : Heap) (sharing : Bool) (layout : List Entry) (order : List Nat) :
    Prop :=
  sharing = true ∧ ∃ before id later, order = before ++ id :: later ∧
    (h.object id).isLeaf = true ∧ h.object id ∈ objectsOf (layoutAfter h sharing layout before) ∧
    ¬FitsAt base (headerSize + totalSize (layoutAfter h sharing layout before) +
      roundUp (h.object id).extent)

theorem totalSize_layoutAfter_le (h : Heap) (sharing : Bool) (layout : List Entry)
    (before later : List Nat) : totalSize (layoutAfter h sharing layout before) ≤
      totalSize (layoutAfter h sharing layout (before ++ later)) := by
  induction later generalizing before with
  | nil => rw [List.append_nil]
  | cons id rest ih =>
    rw [List.append_cons]
    refine le_trans ?_ (ih (before ++ [id]))
    rw [layoutAfter_concat, totalSize_append]
    exact Nat.le_add_right _ _

/-- Records that stay have a place if all of the image has. -/
theorem roomy_and_fitsAt_iff {base extra : Nat} : Roomy base h sharing layout order ∧
      FitsAt base (headerSize + totalSize (layoutAfter h sharing layout order) + extra) ↔
    FitsAt base (headerSize + totalSize (layoutAfter h sharing layout order) + extra) ∧
      ¬Cramped base h sharing layout order := by
  constructor
  · rintro ⟨hroomy, hfits⟩
    refine ⟨hfits, ?_⟩
    rintro ⟨_, before, id, later, hsplit, _, _, hfull⟩
    exact hfull (hroomy before id later hsplit)
  · rintro ⟨hfits, hnot⟩
    refine ⟨?_, hfits⟩
    rintro before id later rfl
    by_cases hshared : sharing = true ∧ (h.object id).isLeaf = true ∧
        h.object id ∈ objectsOf (layoutAfter h sharing layout before)
    · by_contra hfull
      exact hnot ⟨hshared.1, before, id, later, rfl, hshared.2.1, hshared.2.2, hfull⟩
    · have hle := totalSize_layoutAfter_le h sharing layout (before ++ [id]) later
      rw [← List.append_cons, layoutAfter_concat, additions, if_neg hshared, totalSize_append] at hle
      have hrecord : totalSize [.object id (h.object id)] = roundUp (h.object id).extent := rfl
      exact hfits.of_le (by omega)

end Layouts

namespace Writer
variable {w v : Writer} {hash : ContentHash} {orig : Nat → Object Value} {layout : List Entry}
variable {f : Nat → Nat} {h : Heap} {id : Nat} {root : Value} {holes : List Hole}

theorem hasRoom_iff {size : Nat} : w.hasRoom size = true ↔ FitsAt w.base.toNat (w.size + size) :=
  decide_eq_true_iff

theorem obstacle?_object_eq_none_iff {o : Object Value} (ho : o.Settled) :
    o.obstacle? w.hasRoom = none ↔ FitsAt w.base.toNat (w.size + roundUp o.extent) := by
  rw [Object.obstacle?_eq_none_iff]
  constructor
  · rintro ⟨_, size, hsize, hroom⟩
    obtain ⟨rfl, _⟩ := Object.recordSize?_eq_some_iff.mp hsize
    exact hasRoom_iff.mp hroom
  · intro hfits
    have hlt := hfits.2
    exact ⟨ho, _, Object.recordSize?_eq_some_iff.mpr ⟨rfl, by omega⟩, hasRoom_iff.mpr hfits⟩

/-- The object itself, if it is not copied before. -/
def fresh (w : Writer) (id : Nat) : List Nat := if w.copied.contains id then [] else [id]

theorem fresh_of_copied {stored : Nat} (hc : w.copied[id]? = some stored) : w.fresh id = [] := by
  rw [fresh, Std.ExtTreeMap.contains_eq_isSome_getElem?, hc]
  rfl

theorem fresh_of_new (hc : w.copied[id]? = none) : w.fresh id = [id] := by
  rw [fresh, Std.ExtTreeMap.contains_eq_isSome_getElem?, hc]
  rfl

theorem met_of_forecast_eq {ids ids' : List Nat} (heq : w.forecast h ids = v.forecast h ids')
    (hv : v.newCopies = if w.copied.contains id then w.newCopies else id :: w.newCopies) :
    (h.walk w.copies ids).met = w.fresh id ++ (h.walk v.copies ids').met := by
  have hmet := congrArg Prod.fst heq
  simp only [forecast, hv] at hmet
  rw [fresh]
  split at hmet
  · rename_i hcopied
    rw [if_pos hcopied, List.nil_append]
    exact List.reverse_injective (List.append_cancel_right hmet)
  · rename_i hnew
    rw [if_neg hnew]
    rw [List.append_cons, ← List.reverse_cons] at hmet
    exact List.reverse_injective (List.append_cancel_right hmet)

/-- An object that can be stored has a place, and then it is up to the others. -/
theorem Laid.roomy_fresh_append (hl : Laid w hash orig layout f holes)
    (hnone : w.obstacle? h id = none) (rest : List Nat) :
    Roomy w.base.toNat h w.sharing layout (w.fresh id ++ rest) ↔
      Roomy w.base.toNat h w.sharing (layout ++ w.added h layout id) rest := by
  rcases obstacle?_eq_none_iff.mp hnone with ⟨stored, hc⟩ | ⟨hc, hobject⟩
  · rw [fresh_of_copied hc, added_of_copied hc, List.nil_append, List.append_nil]
  · have hplace := (obstacle?_object_eq_none_iff (Object.settled_of_obstacle? hobject)).mp hobject
    rw [hl.size_eq] at hplace
    rw [fresh_of_new hc, added_of_new hc, List.singleton_append, roomy_cons]
    exact and_iff_right hplace

/-- An object that cannot be stored has no place, if the walk does not end at it. -/
theorem Laid.not_roomy (hl : Laid w hash orig layout f holes) {e : Obstacle}
    (he : w.obstacle? h id = some e) {rest : List Nat}
    (hdone : (h.walk w.copies (id :: rest)).stop = none) :
    ¬Roomy w.base.toNat h w.sharing layout (h.walk w.copies (id :: rest)).met := by
  rw [obstacle?, Std.ExtTreeMap.contains_eq_isSome_getElem?] at he
  cases hc : w.copied[id]? with
  | some stored =>
    rw [hc] at he
    cases he
  | none =>
    rw [hc] at he
    cases hpending : (h.object id).pending? with
    | some e' =>
      rw [Heap.walk_of_pending (not_mem_copies hc) hpending] at hdone
      cases hdone
    | none =>
      intro hroomy
      rw [Heap.walk_of_new (not_mem_copies hc) hpending, Walk.startAt, roomy_cons,
        ← hl.size_eq] at hroomy
      have hsettled := Object.pending?_eq_none_iff.mp hpending
      have hnone := (obstacle?_object_eq_none_iff hsettled).mpr hroomy.1
      exact absurd (he.symm.trans hnone) (Option.some_ne_none _)

/-- The traversal comes to its end if and only if there is always room. -/
theorem Calling.drain_eq_none_iff (hc : Calling w hash orig h layout f)
    (hdone : (h.walk w.copies (w.todo.map Hole.child)).stop = none) :
    (w.drain hash h).2 = none ↔ Roomy w.base.toNat h w.sharing layout
      (h.walk w.copies (w.todo.map Hole.child)).met := by
  fun_induction Writer.drain w hash h generalizing layout f with
  | case1 w htodo =>
    rw [htodo, List.map_nil, h.walk_nil]
    exact iff_of_true rfl (roomy_nil _ _ _ _)
  | case2 w next rest htodo e he =>
    rw [htodo, List.map_cons] at hdone ⊢
    exact iff_of_false (Option.some_ne_none _) (hc.laid.not_roomy he hdone)
  | case3 w next rest htodo hnone ih =>
    obtain ⟨g, hnext⟩ := hc.advance htodo hnone
    have hforecast : _ = (w.advance hash h next rest).forecast h _ :=
      forecast_advance htodo hnone
    have hrest := (congrArg Prod.snd hforecast).symm.trans hdone
    rw [ih hnext hrest, met_of_forecast_eq hforecast (newCopies_advance w hash h next rest),
      hc.laid.roomy_fresh_append hnone, base_advance, sharing_advance]

/-- Storing the root has a place for it, and then it is up to the traversal. -/
theorem Laid.drain_storeRoot_eq_none_iff (hl : Laid w hash orig layout f []) (hrest : w.AtRest)
    (hh : h.Supplies w.copied orig) (hroot : root.In h)
    (hnone : root.id?.bind (w.obstacle? h) = none)
    (hdone : (h.walk w.copies root.id?.toList).stop = none) :
    ((w.storeRoot hash h root).1.drain hash h).2 = none ↔ Roomy w.base.toNat h w.sharing layout
      (h.walk w.copies root.id?.toList).met := by
  obtain ⟨⟨g, hcalling⟩, _⟩ := hl.storeRoot hrest.todo hh hroot hnone
  cases root with
  | scalar payload =>
    have hids : (Value.scalar payload).id?.toList = [] := rfl
    rw [Writer.storeRoot, drain_of_done hrest.todo, hids, h.walk_nil]
    exact iff_of_true rfl (roomy_nil _ _ _ _)
  | object id =>
    obtain ⟨new, hnew, hforecast⟩ := forecast_store hash hnone
    rw [hrest.todo, List.append_nil] at hnew
    have hbegin : w.forecast h [id] = (w.store hash h id).1.forecast h
        ((w.store hash h id).1.todo.map Hole.child) := by
      rw [hnew, hforecast [], List.append_nil]
    have hleft := (congrArg Prod.snd hbegin).symm.trans hdone
    have hmet := met_of_forecast_eq hbegin (newCopies_store w hash h id)
    have hids : (Value.object id).id?.toList = [id] := rfl
    rw [Writer.storeRoot] at hcalling ⊢
    rw [hcalling.drain_eq_none_iff hleft, hids, hmet, hl.roomy_fresh_append hnone, base_store,
      sharing_store]
    rfl

theorem Laid.writeRoot_eq_none_iff (hl : Laid w hash orig layout f []) (hrest : w.AtRest)
    (hh : h.Supplies w.copied orig) (hroot : root.In h)
    (hdone : (h.walk w.copies root.id?.toList).stop = none) :
    (w.writeRoot hash h root).2 = none ↔
      Roomy w.base.toNat h w.sharing layout (h.walk w.copies root.id?.toList).met ∧
      FitsAt w.base.toNat (headerSize + totalSize (layoutAfter h w.sharing layout
        (h.walk w.copies root.id?.toList).met) + terminatorSize) := by
  cases hobstacle : root.id?.bind (w.obstacle? h) with
  | some e =>
    obtain ⟨id, hid, he⟩ := Option.bind_eq_some_iff.mp hobstacle
    rw [hid, Option.toList_some] at hdone ⊢
    rw [writeRoot_of_obstacle hobstacle]
    exact iff_of_false nofun fun h => hl.not_roomy he hdone h.1
  | none =>
    have hiff := hl.drain_storeRoot_eq_none_iff hrest hh hroot hobstacle hdone
    rw [← hiff]
    cases hdrain : ((w.storeRoot hash h root).1.drain hash h).2 with
    | some e =>
      rw [writeRoot_of_stuck hobstacle hdrain]
      exact iff_of_false nofun fun h => nomatch h.1
    | none =>
      obtain ⟨_, g, hcalling⟩ := (hl.extends_storeRoot hrest hh hroot hobstacle).drain
      have hmet := (drain_storeRoot hrest hobstacle fun heq => nomatch hdrain.symm.trans heq).1
      have hsize := hcalling.laid.size_eq
      have hbase := (base_drain (w.storeRoot hash h root).1 hash h).trans
        (base_storeRoot w hash h root)
      rw [hmet, List.reverse_reverse] at hsize
      rw [writeRoot_of_done hobstacle hdrain, ← hsize, ← hbase, ← hasRoom_iff]
      generalize ((w.storeRoot hash h root).1.drain hash h).1 = u
      cases u.hasRoom terminatorSize <;> simp

/-- The size of the image with some more objects and a root. -/
def sizeWith (w : Writer) (h : Heap) (layout : List Entry) (objects : Finset Nat) : Nat :=
  w.size + h.addedSize w.sharing layout objects + terminatorSize

theorem Laid.sizeWith_eq (hl : Laid w hash orig layout f holes) (h : Heap) {order : List Nat}
    (horder : order.Nodup) : w.sizeWith h layout order.toFinset =
      headerSize + totalSize (layoutAfter h w.sharing layout order) + terminatorSize := by
  rw [sizeWith, totalSize_layoutAfter horder, hl.size_eq, Nat.add_assoc headerSize]

theorem compact_eq_ok_iff : (w.compact hash h root).2 = .ok () ↔
    (w.writeRoot hash h root).2 = none := by
  rcases compact_cases w hash h root with ⟨v, hv, hcompact⟩ | ⟨v, e, hv, hcompact⟩ <;>
    rw [hv, hcompact] <;> simp

/-- If no cell that is not settled is met, then either there is no room or the call succeeds. -/
theorem compact_eq_tooLarge_iff (hrest : w.AtRest)
    (hdone : (h.walk w.copies root.id?.toList).stop = none) :
    (w.compact hash h root).2 = .error .tooLarge ↔ (w.compact hash h root).2 ≠ .ok () := by
  constructor
  · intro herror hok
    exact nomatch herror.symm.trans hok
  · intro hnot
    by_contra hroom
    have hresult := compact_walk hrest hroom
    rw [hdone] at hresult
    exact hnot hresult

/-- A root from which every cell is settled is written or has no room. It has no room if the image
that the call would result in does not fit, or if a leaf does not that is shared in the end. -/
theorem compact_room {c : WriterConfig} {w₀ : Writer} (hcreate : create? c = .ok w₀)
    (hash : ContentHash) {calls : List (Heap × Value)}
    (hcalls : ∀ call ∈ calls, call.1.WellFormed ∧ call.2.In call.1)
    (hw : (w₀.calls hash calls).1 = w) (hh : h.WellFormed) (hroot : root.In h)
    (hsettled : ∀ id, h.ReachesNew w.copies root id → (h.object id).Settled) :
    ∃ layout order, w.WrittenAs layout ∧ order = (h.walk w.copies root.id?.toList).met ∧
      (∀ id, id ∈ order ↔ h.ReachesNew w.copies root id) ∧
      ((w.compact hash h root).2 = .error .tooLarge ↔
        ¬FitsAt w.base.toNat (w.sizeWith h layout order.toFinset) ∨
          Cramped w.base.toNat h w.sharing layout order) ∧
      ((w.compact hash h root).2 = .ok () ↔
        FitsAt w.base.toNat (w.sizeWith h layout order.toFinset) ∧
          ¬Cramped w.base.toNat h w.sharing layout order) ∧
      ((w.compact hash h root).2 = .ok () →
        (w.compact hash h root).1.size = w.sizeWith h layout order.toFinset) := by
  have hrest : w.AtRest := hw ▸ (atRest_of_create? hcreate).calls hash calls
  have hdone := Heap.walk_stop_eq_none_iff.mpr hsettled
  obtain ⟨layout, f, hbefore, _⟩ := (holding_of_create? hcreate hash h.object).history
    (atRest_of_create? hcreate) hcalls
  rw [hw, List.nil_append] at hbefore
  have hview := hbefore.view h
  have hsupplies := supplies_view hh w (w₀.originals hash h.object calls)
  have hsize := hview.laid.sizeWith_eq h (h.walk_nodup w.copies root.id?.toList).1
  have hok : (w.compact hash h root).2 = .ok () ↔ _ := compact_eq_ok_iff.trans
    ((hview.laid.writeRoot_eq_none_iff hrest hsupplies hroot hdone).trans roomy_and_fitsAt_iff)
  rw [← hsize] at hok
  refine ⟨_, _, hview.laid.writtenAs, rfl, fun _ => Heap.mem_walk_iff hdone, ?_, hok, ?_⟩
  · rw [compact_eq_tooLarge_iff hrest hdone, ne_eq, hok, not_and_or, not_not]
  · intro hwritten
    obtain ⟨g, hafter⟩ := hview.compact_walk hrest hsupplies hroot hwritten
    rw [hafter.size_eq, hsize, totalSize_append, Nat.add_assoc]
    rfl

end Writer

/-- A writer that holds the first of two equal strings. It has just enough room for the second, when
that is copied for a moment behind the constructor of both. -/
def narrowWriter : Writer :=
  ((Writer.start { base := 0xffffffffffffff78 }).calls fingerprint [(twinHeap, .object 0)]).1

theorem compact_narrowWriter : (narrowWriter.compact fingerprint twinHeap (.object 2)).2 = .ok () ∧
    (narrowWriter.compact fingerprint twinHeap (.object 2)).1.size = 120 := by
  decide +kernel

theorem settled_twinHeap (id : Nat) : (twinHeap.object id).Settled := by
  by_cases hid : id < twinHeap.size
  · have hcases : id = 0 ∨ id = 1 ∨ id = 2 := by
      have hsize : twinHeap.size = 3 := rfl
      omega
    rcases hcases with rfl | rfl | rfl <;> trivial
  · rw [Heap.object_of_size_le (Nat.le_of_not_lt hid)]
    trivial

/-- The constructor is written, which adds its own record and a terminator. -/
theorem twin_fits : ∃ layout order, narrowWriter.WrittenAs layout ∧ 1 ∈ order ∧ 2 ∈ order ∧
    FitsAt narrowWriter.base.toNat (narrowWriter.sizeWith twinHeap layout order.toFinset) ∧
    ¬Cramped narrowWriter.base.toNat twinHeap narrowWriter.sharing layout order ∧
    narrowWriter.sizeWith twinHeap layout order.toFinset = 120 := by
  have hcalls : ∀ call ∈ [(twinHeap, Value.object 0)],
      call.1.WellFormed ∧ call.2.In call.1 := by
    intro call hcall
    obtain rfl := List.mem_singleton.mp hcall
    exact ⟨wellFormed_twinHeap, show 0 < twinHeap.size by decide⟩
  have hroot : (Value.object 2).In twinHeap := show 2 < twinHeap.size by decide
  obtain ⟨layout, order, hwritten, _, horder, _, hok, hsize⟩ := Writer.compact_room
    (c := { base := 0xffffffffffffff78 }) (w := narrowWriter) rfl fingerprint hcalls rfl
    wellFormed_twinHeap hroot fun id _ => settled_twinHeap id
  obtain ⟨hcompact, hsame⟩ := compact_narrowWriter
  have hconstructor : twinHeap.ReachesNew narrowWriter.copies (.object 2) 2 :=
    .root rfl (Writer.not_mem_copies (by cbv))
  have hstring : twinHeap.ReachesNew narrowWriter.copies (.object 2) 1 :=
    .child hconstructor (by decide) (Writer.not_mem_copies (by cbv))
  exact ⟨layout, order, hwritten, (horder 1).mpr hstring, (horder 2).mpr hconstructor,
    (hok.mp hcompact).1, (hok.mp hcompact).2, (hsize hcompact).symm.trans hsame⟩

/-- A writer that holds the first of two equal strings, with room for a terminator but not for
another string. -/
def crampedWriter : Writer :=
  ((Writer.start { base := 0xffffffffffffffb0 }).compact fingerprint twinHeap (.object 0)).1

theorem exists_laid_crampedWriter : ∃ f, crampedWriter.Laid fingerprint twinHeap.object
    [.object 0 (.string #[104]), .terminator (.object 0)] f [] := by
  have hbegin := Writer.holding_of_create? (c := { base := 0xffffffffffffffb0 }) rfl fingerprint
    twinHeap.object
  have hok : ((Writer.start { base := 0xffffffffffffffb0 }).compact fingerprint twinHeap
      (.object 0)).2 = .ok () := by cbv
  have hsupplies : twinHeap.Supplies (Writer.start { base := 0xffffffffffffffb0 }).copied
      twinHeap.object := ⟨wellFormed_twinHeap, fun _ _ _ => rfl⟩
  have hwalk : twinHeap.walk (Writer.start { base := 0xffffffffffffffb0 }).copies [0] =
      ⟨[0], none⟩ := by
    have hnew : 0 ∉ (Writer.start { base := 0xffffffffffffffb0 }).copies :=
      Writer.not_mem_copies (by cbv)
    have hchildren : twinHeap.objectChildren 0 = [] := by decide
    rw [Heap.walk_of_new hnew rfl, hchildren, List.append_nil, Heap.walk_nil]
    rfl
  have hrest : (Writer.start { base := 0xffffffffffffffb0 }).AtRest :=
    Writer.atRest_of_create? (c := { base := 0xffffffffffffffb0 }) rfl
  have hroot : (Value.object 0).In twinHeap := show 0 < twinHeap.size by decide
  obtain ⟨g, hl⟩ := hbegin.compact_walk hrest hsupplies hroot hok
  have hids : (Value.object 0).id?.toList = [0] := rfl
  rw [hids, hwalk] at hl
  exact ⟨g, hl⟩

/-- The second string is refused, though it would add nothing but a terminator, which fits. -/
theorem twin_refused : ∃ layout, crampedWriter.WrittenAs layout ∧
    (∀ id, twinHeap.ReachesNew crampedWriter.copies (.object 1) id ↔ id = 1) ∧
    (twinHeap.object 1).Settled ∧
    FitsAt crampedWriter.base.toNat (crampedWriter.sizeWith twinHeap layout {1}) ∧
    (crampedWriter.compact fingerprint twinHeap (.object 1)).2 = .error .tooLarge := by
  obtain ⟨f, hl⟩ := exists_laid_crampedWriter
  have hnew : 1 ∉ crampedWriter.copies := Writer.not_mem_copies (by cbv)
  have hchildren : twinHeap.objectChildren 1 = [] := by decide
  have hsize := hl.sizeWith_eq twinHeap (List.nodup_singleton 1)
  have hbase : crampedWriter.base = 0xffffffffffffffb0 := by cbv
  have hsharing : crampedWriter.sharing = true := by cbv
  refine ⟨_, hl.writtenAs, fun id => ⟨fun hreaches => ?_, ?_⟩, trivial, ?_, by cbv⟩
  · induction hreaches with
    | root heq => exact (Value.object.inj heq).symm
    | child _ hchild _ ih =>
      rw [ih, hchildren] at hchild
      cases hchild
  · rintro rfl
    exact .root rfl hnew
  · rw [List.toFinset_cons, List.toFinset_nil, hsharing] at hsize
    rw [hbase]
    exact hsize ▸ (by decide)

end HeapImage
