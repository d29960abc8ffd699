import HeapImage.Proofs.Torn
import HeapImage.Proofs.Writer.Coverage

/-!
# What an image costs

How many records there are and how large the image is, said by the set of the objects that are
reached from the accepted roots alone. Neither the order of the roots matters nor which of several
equal leaves is met first.
-/

namespace HeapImage
set_option autoImplicit false

section Layouts
variable {layout : List Entry} {pos : Nat}

theorem exists_of_mem_ownersOf {id : Nat} (h : id ∈ ownersOf layout) (pos : Nat) :
    ∃ off o, (off, .object id o) ∈ placed pos layout := by
  obtain ⟨e, he, hid⟩ := List.mem_filterMap.mp h
  obtain ⟨off, hoff⟩ := exists_mem_placed pos he
  cases e with
  | terminator root => cases hid
  | object owner o =>
    cases hid
    exact ⟨off, o, hoff⟩

theorem nodup_ownersOf {place : Nat → Nat}
    (hplace : ∀ off id o, (off, .object id o) ∈ placed pos layout → place id = off) :
    (ownersOf layout).Nodup := by
  induction layout generalizing pos with
  | nil => exact List.nodup_nil
  | cons e rest ih =>
    have hrest : (ownersOf rest).Nodup :=
      ih fun off id o hmem => hplace off id o (List.mem_cons_of_mem _ hmem)
    cases e with
    | terminator root => exact hrest
    | object id o =>
      refine List.nodup_cons.mpr ⟨?_, hrest⟩
      intro hid
      obtain ⟨off, o', hoff⟩ := exists_of_mem_ownersOf hid (pos + (Entry.object id o).size)
      have hhere := hplace pos id o List.mem_cons_self
      have hthere := hplace off id o' (List.mem_cons_of_mem _ hoff)
      have hbehind := (bounds_of_mem_placed hoff).1
      have hsize := (Entry.object id o).le_size
      omega

theorem totalSize_eq_sum {orig : Nat → Object Value}
    (horig : ∀ id o, .object id o ∈ layout → o = orig id) :
    totalSize layout = terminatorSize * (rootsOf layout).length +
      ((ownersOf layout).map fun id => roundUp (orig id).extent).sum := by
  induction layout with
  | nil => rfl
  | cons e rest ih =>
    have hrest := ih fun id o hmem => horig id o (List.mem_cons_of_mem _ hmem)
    rw [totalSize_cons, hrest]
    cases e with
    | terminator root =>
      have hroots : (rootsOf (.terminator root :: rest)).length = (rootsOf rest).length + 1 := rfl
      have howners : ownersOf (.terminator root :: rest) = ownersOf rest := rfl
      rw [hroots, howners, Nat.mul_succ, Entry.size, terminatorSize]
      omega
    | object id o =>
      have hroots : rootsOf (.object id o :: rest) = rootsOf rest := rfl
      have howners : ownersOf (.object id o :: rest) = id :: ownersOf rest := rfl
      rw [hroots, howners, List.map_cons, List.sum_cons, Entry.size, horig id o List.mem_cons_self]
      omega

end Layouts

namespace Heap
variable (h : Heap) (sharing : Bool) (roots : Nat) (objects : Finset Nat)

def leavesIn : Finset Nat := objects.filter fun id => (h.object id).isLeaf = true

def innerIn : Finset Nat := objects.filter fun id => ¬ (h.object id).isLeaf = true

/-- The leaves up to equality of kind and contents. -/
def contentsIn : Finset (Object Value) := (h.leavesIn objects).image h.object

theorem card_leavesIn_add_innerIn :
    (h.leavesIn objects).card + (h.innerIn objects).card = objects.card :=
  Finset.card_filter_add_card_filter_not _

theorem sum_leavesIn_add_innerIn (cost : Nat → Nat) :
    ∑ id ∈ h.leavesIn objects, cost id + ∑ id ∈ h.innerIn objects, cost id =
      ∑ id ∈ objects, cost id :=
  Finset.sum_filter_add_sum_filter_not _ _ _

/-- The statistics of an image of some objects, with so many roots. -/
def imageStats : Stats where
  roots := roots
  objects :=
    if sharing then (h.innerIn objects).card + (h.contentsIn objects).card else objects.card
  shared := if sharing then (h.leavesIn objects).card - (h.contentsIn objects).card else 0

/-- The size of such an image. -/
def imageSize : Nat :=
  headerSize + terminatorSize * roots +
    if sharing then
      ∑ id ∈ h.innerIn objects, (h.object id).recordSize?.getD 0 +
        ∑ o ∈ h.contentsIn objects, o.recordSize?.getD 0
    else ∑ id ∈ objects, (h.object id).recordSize?.getD 0

end Heap

namespace Writer

theorem card_copies (w : Writer) : w.copies.card = w.copied.size := by
  rw [copies, List.toFinset_card_of_nodup Std.ExtTreeMap.nodup_keys, Std.ExtTreeMap.length_keys]

namespace Laid
variable {w : Writer} {hash : ContentHash} {orig : Nat → Object Value} {layout : List Entry}
variable {f : Nat → Nat} {holes : List Hole} (hl : Laid w hash orig layout f holes)
include hl

theorem eq_orig {off owner : Nat} {o : Object Value}
    (h : (off, .object owner o) ∈ placed headerSize layout) : o = orig owner := by
  obtain ⟨off', owner', hword, hmem, _⟩ := hl.copied owner _ (hl.owned off owner o h)
  rw [← Nat.add_left_cancel hword] at hmem
  cases eq_of_mem_placed h hmem
  rfl

theorem nodup_owners : (ownersOf layout).Nodup := by
  have hplace : ∀ off id o, (off, .object id o) ∈ placed headerSize layout →
      w.copied.getD id 0 - w.base.toNat = off := by
    intro off id o h
    rw [Std.ExtTreeMap.getD_eq_getD_getElem?, hl.owned off id o h]
    exact Nat.add_sub_cancel_left _ _
  exact nodup_ownersOf hplace

theorem mem_copies_of_mem_ownersOf {id : Nat} (h : id ∈ ownersOf layout) : id ∈ w.copies := by
  obtain ⟨off, o, hoff⟩ := exists_of_mem_ownersOf h headerSize
  exact mem_copies.mpr ⟨_, hl.owned off id o hoff⟩

theorem exists_owner {id : Nat} (h : id ∈ w.copies) :
    ∃ owner ∈ ownersOf layout, orig owner = orig id ∧
      (owner = id ∨ w.sharing = true ∧ (orig id).isLeaf = true) := by
  obtain ⟨word, hc⟩ := mem_copies.mp h
  obtain ⟨off, owner, _, hmem, howner⟩ := hl.copied id word hc
  exact ⟨owner, mem_ownersOf (mem_of_mem_placed hmem), (hl.eq_orig hmem).symm, howner⟩

theorem owner_eq {a b : Nat} (hs : w.sharing = true) (ha : a ∈ ownersOf layout)
    (hb : b ∈ ownersOf layout) (hleaf : (orig a).isLeaf = true) (heq : orig a = orig b) :
    a = b := by
  obtain ⟨offA, o, hA⟩ := exists_of_mem_ownersOf ha headerSize
  obtain ⟨offB, o', hB⟩ := exists_of_mem_ownersOf hb headerSize
  rw [hl.eq_orig hA] at hA
  rw [hl.eq_orig hB, ← heq] at hB
  obtain rfl := hl.distinct hs offA offB a b (orig a) hA hB hleaf
  cases eq_of_mem_placed hA hB
  rfl

theorem getD_recordSize? {id : Nat} (h : id ∈ ownersOf layout) :
    (orig id).recordSize?.getD 0 = roundUp (orig id).extent := by
  obtain ⟨off, o, hoff⟩ := exists_of_mem_ownersOf h headerSize
  have hroom := (hl.room (List.ne_nil_of_mem (mem_of_mem_placed hoff))).1
  have hbounds := (bounds_of_mem_placed hoff).2
  rw [hl.eq_orig hoff, Entry.size, ← hl.size_eq] at hbounds
  have hlimit : sizeLimit < wordLimit := by decide
  have hsize : (orig id).recordSize? = some (roundUp (orig id).extent) :=
    Object.recordSize?_eq_some_iff.mpr ⟨rfl, by omega⟩
  rw [hsize, Option.getD_some]

theorem size_eq_sum : w.size = headerSize + terminatorSize * w.stats.roots +
    ∑ id ∈ (ownersOf layout).toFinset, (orig id).recordSize?.getD 0 := by
  have horig : ∀ id o, .object id o ∈ layout → o = orig id := by
    intro id o hmem
    obtain ⟨off, hoff⟩ := exists_mem_placed headerSize hmem
    exact hl.eq_orig hoff
  have hsizes : (ownersOf layout).map (fun id => (orig id).recordSize?.getD 0) =
      (ownersOf layout).map fun id => roundUp (orig id).extent :=
    List.map_congr_left fun id hid => hl.getD_recordSize? hid
  rw [hl.size_eq, totalSize_eq_sum horig, List.sum_toFinset _ hl.nodup_owners, hsizes, hl.roots,
    Nat.add_assoc]

theorem objects_eq_card : w.stats.objects = (ownersOf layout).toFinset.card := by
  rw [List.toFinset_card_of_nodup hl.nodup_owners, hl.objects]

end Laid

section Accounts
variable {w : Writer} {hash : ContentHash} {h : Heap} {layout : List Entry}
variable {f : Nat → Nat} {holes : List Hole} (hl : Laid w hash h.object layout f holes)
include hl

/-- Without sharing every object that was copied has its own entry. -/
theorem Laid.owners_eq (hs : w.sharing = false) : (ownersOf layout).toFinset = w.copies := by
  ext id
  rw [List.mem_toFinset]
  constructor
  · exact hl.mem_copies_of_mem_ownersOf
  · intro hid
    obtain ⟨owner, hmem, _, rfl | ⟨hon, _⟩⟩ := hl.exists_owner hid
    · exact hmem
    · rw [hs] at hon
      cases hon

theorem Laid.innerIn_owners : h.innerIn (ownersOf layout).toFinset = h.innerIn w.copies := by
  ext id
  rw [Heap.innerIn, Heap.innerIn, Finset.mem_filter, Finset.mem_filter, List.mem_toFinset]
  constructor
  · rintro ⟨hid, hinner⟩
    exact ⟨hl.mem_copies_of_mem_ownersOf hid, hinner⟩
  · rintro ⟨hid, hinner⟩
    obtain ⟨owner, hmem, _, rfl | ⟨_, hleaf⟩⟩ := hl.exists_owner hid
    · exact ⟨hmem, hinner⟩
    · exact absurd hleaf hinner

/-- The contents of all leaves are those of the leaves that have an entry. -/
theorem Laid.contentsIn_owners :
    h.contentsIn (ownersOf layout).toFinset = h.contentsIn w.copies := by
  ext o
  simp only [Heap.contentsIn, Heap.leavesIn, Finset.mem_image, Finset.mem_filter,
    List.mem_toFinset]
  constructor
  · rintro ⟨id, ⟨hid, hleaf⟩, rfl⟩
    exact ⟨id, ⟨hl.mem_copies_of_mem_ownersOf hid, hleaf⟩, rfl⟩
  · rintro ⟨id, ⟨hid, hleaf⟩, rfl⟩
    obtain ⟨owner, hmem, heq, _⟩ := hl.exists_owner hid
    exact ⟨owner, ⟨hmem, heq ▸ hleaf⟩, heq⟩

theorem Laid.injOn_leaves (hs : w.sharing = true) :
    Set.InjOn h.object (h.leavesIn (ownersOf layout).toFinset) := by
  intro a ha b hb heq
  obtain ⟨hmemA, hleaf⟩ := Finset.mem_filter.mp ha
  obtain ⟨hmemB, _⟩ := Finset.mem_filter.mp hb
  exact hl.owner_eq hs (List.mem_toFinset.mp hmemA) (List.mem_toFinset.mp hmemB) hleaf heq

theorem Laid.stats_eq : w.stats = h.imageStats w.sharing w.stats.roots w.copies := by
  have hobjects := hl.objects_eq_card
  have hcounted := hl.counted
  rw [← card_copies] at hcounted
  have hcounts : w.stats.objects = (h.imageStats w.sharing w.stats.roots w.copies).objects ∧
      w.stats.shared = (h.imageStats w.sharing w.stats.roots w.copies).shared := by
    cases hs : w.sharing with
    | false =>
      rw [hl.owners_eq hs] at hobjects
      simp only [Heap.imageStats, Bool.false_eq_true, if_false]
      omega
    | true =>
      have hcontents : (h.contentsIn (ownersOf layout).toFinset).card =
          (h.leavesIn (ownersOf layout).toFinset).card :=
        Finset.card_image_of_injOn (hl.injOn_leaves hs)
      have howners := h.card_leavesIn_add_innerIn (ownersOf layout).toFinset
      have hcopies := h.card_leavesIn_add_innerIn w.copies
      simp only [Heap.imageStats, if_true]
      rw [hl.contentsIn_owners] at hcontents
      rw [hl.innerIn_owners] at howners
      omega
  exact congrArg₂ (Stats.mk w.stats.roots) hcounts.1 hcounts.2

theorem Laid.size_eq_imageSize : w.size = h.imageSize w.sharing w.stats.roots w.copies := by
  rw [hl.size_eq_sum, Heap.imageSize]
  cases hs : w.sharing with
  | false => rw [hl.owners_eq hs, if_neg Bool.false_ne_true]
  | true =>
    have hcontents : ∑ o ∈ h.contentsIn (ownersOf layout).toFinset, o.recordSize?.getD 0 =
        ∑ id ∈ h.leavesIn (ownersOf layout).toFinset, (h.object id).recordSize?.getD 0 :=
      Finset.sum_image (hl.injOn_leaves hs)
    rw [if_pos rfl, ← hl.innerIn_owners, ← hl.contentsIn_owners, hcontents,
      Nat.add_comm (∑ _ ∈ _, _), h.sum_leavesIn_add_innerIn]

end Accounts
end Writer

section Runs
variable {c : WriterConfig} {w : Writer} {h : Heap} {calls : List (Heap × Value)}

theorem Heap.Reaches.of_subset {roots roots' : List Value} (hsub : roots ⊆ roots') {id : Nat}
    (hr : h.Reaches roots id) : h.Reaches roots' id := by
  induction hr with
  | root hmem => exact .root (hsub hmem)
  | child _ hchild ih => exact ih.child hchild

/-- One run, accounted for by the objects that it has copied. -/
theorem accounts_of_calls (hcreate : Writer.create? c = .ok w) (hash : ContentHash)
    (hh : h.WellFormed)
    (hcalls : ∀ call ∈ calls, call.1.Closed ∧ h.GrownFrom call.1 ∧ call.2.In call.1) :
    (∀ id, id ∈ (w.calls hash calls).1.copies ↔
      h.Reaches ((w.accepted hash calls).map Prod.fst) id) ∧
    (w.calls hash calls).1.stats = h.imageStats c.sharing (w.accepted hash calls).length
      (w.calls hash calls).1.copies ∧
    (w.calls hash calls).1.size = h.imageSize c.sharing (w.accepted hash calls).length
      (w.calls hash calls).1.copies := by
  obtain ⟨layout, f, hw, hreached⟩ := Writer.exists_holding_of_calls hcreate hash hh hcalls
  have hsharing := ((Writer.atRest_of_create? hcreate).sharing_calls hash calls).trans
    (Writer.sharing_of_create? hcreate)
  have hroots : (w.calls hash calls).1.stats.roots = (w.accepted hash calls).length := by
    rw [hw.laid.roots, hw.roots_eq, List.length_map]
  have hstats := hw.laid.stats_eq
  have hsize := hw.laid.size_eq_imageSize
  rw [hsharing, hroots] at hstats hsize
  exact ⟨fun id => Writer.mem_copies.trans (hreached id), hstats, hsize⟩

/-- The size of an image and its statistics are those of the set of objects that are reached from
the accepted roots, with equal leaves taken together if they are shared. So whenever the same roots
are accepted, in whatever order, these are the same. -/
theorem accounting (hcreate : Writer.create? c = .ok w) (hash : ContentHash) (hh : h.WellFormed)
    (hcalls : ∀ call ∈ calls, call.1.Closed ∧ h.GrownFrom call.1 ∧ call.2.In call.1) :
    ∃ objects : Finset Nat,
      (∀ id, id ∈ objects ↔ h.Reaches ((w.accepted hash calls).map Prod.fst) id) ∧
      (w.calls hash calls).1.stats =
        h.imageStats c.sharing (w.accepted hash calls).length objects ∧
      (w.calls hash calls).1.size =
        h.imageSize c.sharing (w.accepted hash calls).length objects ∧
      ∀ (c' : WriterConfig) (w' : Writer) (hash' : ContentHash) (calls' : List (Heap × Value)),
        Writer.create? c' = .ok w' → c'.sharing = c.sharing →
        (∀ call ∈ calls', call.1.Closed ∧ h.GrownFrom call.1 ∧ call.2.In call.1) →
        ((w'.accepted hash' calls').map Prod.fst).Perm ((w.accepted hash calls).map Prod.fst) →
          (w'.calls hash' calls').1.stats = (w.calls hash calls).1.stats ∧
          (w'.calls hash' calls').1.size = (w.calls hash calls).1.size := by
  obtain ⟨hreached, hstats, hsize⟩ := accounts_of_calls hcreate hash hh hcalls
  refine ⟨_, hreached, hstats, hsize, ?_⟩
  intro c' w' hash' calls' hcreate' hsharing hcalls' hperm
  obtain ⟨hreached', hstats', hsize'⟩ := accounts_of_calls hcreate' hash' hh hcalls'
  have hcopies : (w'.calls hash' calls').1.copies = (w.calls hash calls).1.copies := by
    ext id
    rw [hreached id, hreached' id]
    exact ⟨.of_subset hperm.subset, .of_subset hperm.symm.subset⟩
  have hlength : (w'.accepted hash' calls').length = (w.accepted hash calls).length := by
    have hlength := hperm.length_eq
    rwa [List.length_map, List.length_map] at hlength
  rw [hsharing, hlength, hcopies] at hstats' hsize'
  exact ⟨hstats'.trans hstats.symm, hsize'.trans hsize.symm⟩

end Runs

theorem unchanged_twinCalls : ∀ call ∈ twinCalls,
    call.1.Closed ∧ twinHeap.GrownFrom call.1 ∧ call.2.In call.1 := by
  intro call hcall
  have hheap : call.1 = twinHeap := by
    simp only [twinCalls, List.mem_cons, List.not_mem_nil, or_false] at hcall
    rcases hcall with rfl | rfl <;> rfl
  obtain ⟨hw, hroot⟩ := wellFormed_twinCalls call hcall
  exact ⟨hw.closed, hheap ▸ .refl _, hroot⟩

set_option maxRecDepth 4096 in
theorem accepted_twin_reverse : (Writer.start {}).accepted (fun _ => 0) twinCalls.reverse =
    [(.scalar ⟨5, by decide⟩, 32), (.object 2, 120)] := by
  cbv

/-- The roots take up as much in the other order, though all leaves have one hash there. -/
theorem twin_accounted : ∃ objects : Finset Nat, (0 ∈ objects ∧ 1 ∈ objects ∧ 2 ∈ objects) ∧
    ((Writer.start { base := 4096 }).calls fingerprint twinCalls).1.stats =
      twinHeap.imageStats true 2 objects ∧
    ((Writer.start {}).calls (fun _ => 0) twinCalls.reverse).1.size =
      ((Writer.start { base := 4096 }).calls fingerprint twinCalls).1.size := by
  obtain ⟨objects, hreached, hstats, _, horder⟩ := accounting (c := { base := 4096 }) rfl
    fingerprint wellFormed_twinHeap unchanged_twinCalls
  rw [accepted_twin] at hreached hstats horder
  have hroot : twinHeap.Reaches [.object 2, .scalar ⟨5, by decide⟩] 2 := .root List.mem_cons_self
  refine ⟨objects, ⟨?_, ?_, ?_⟩, hstats, ?_⟩
  · exact (hreached 0).mpr (hroot.child (by decide))
  · exact (hreached 1).mpr (hroot.child (by decide))
  · exact (hreached 2).mpr hroot
  · refine (horder {} _ (fun _ => 0) twinCalls.reverse rfl rfl ?_ ?_).2
    · intro call hcall
      exact unchanged_twinCalls call (List.mem_reverse.mp hcall)
    · rw [accepted_twin_reverse]
      exact List.Perm.swap _ _ _

end HeapImage
