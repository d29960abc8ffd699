import HeapImage.Proofs.Image.Beginning
import HeapImage.Proofs.RoundTrip
import HeapImage.Proofs.Writer.History

/-!
# Torn images

If an image is cut off somewhere, then the reader notices, unless the cut is just behind a root.
There the beginning is an image of its own, the one that the writer had when the root was written.
-/

namespace HeapImage
set_option autoImplicit false

/-- Loads of the first bytes and of the whole image. From the first bytes the given roots are read,
and no more; from the whole they are read first. All objects of the first bytes are objects of the
whole, with the same contents. What was copied, roots and children included, has the contents that
it had at that time. -/
structure Writer.LoadsFirst {ε : Type} (w : Writer) (orig : Nat → Object Value)
    (roots : List Value) (m : Nat → Nat) (first whole : Heap × Region ε) : Prop where
  rootCount : first.2.rootCount = roots.length
  reads : first.2.reads (roots.length + 1) = roots.map (fun root => some (root.mapId m)) ++ [none]
  reads_whole : whole.2.reads roots.length = roots.map fun root => some (root.mapId m)
  inside : ∀ id, .object id ∈ roots → w.copied.contains id = true ∧ m id < first.1.size
  entries : first.1.entries.toList <+: whole.1.entries.toList
  entry_eq : ∀ id, w.copied.contains id = true →
    whole.1.entry (m id) = ⟨(orig id).map (Value.mapId m), true⟩ ∧
      ∀ child, .object child ∈ (orig id).children → w.copied.contains child = true

theorem Writer.LoadsFirst.entry_first {ε : Type} {w : Writer} {orig : Nat → Object Value}
    {roots : List Value} {m : Nat → Nat} {first whole : Heap × Region ε} {id : Nat}
    (hl : w.LoadsFirst orig roots m first whole) (hc : w.copied.contains id = true)
    (hin : m id < first.1.size) :
    first.1.entry (m id) = ⟨(orig id).map (Value.mapId m), true⟩ := by
  obtain ⟨rest, hrest⟩ := hl.entries
  have hsame : whole.1.entries[m id]? = first.1.entries[m id]? := by
    rw [← Array.getElem?_toList, ← Array.getElem?_toList, ← hrest]
    exact List.getElem?_append_left hin
  rw [← (hl.entry_eq id hc).1, Heap.entry, Heap.entry, Array.getD_eq_getD_getElem?,
    Array.getD_eq_getD_getElem?, hsame]

/-- The first bytes that are written can be loaded, with the given roots. -/
def Writer.CanLoadFirst {ε : Type} (w : Writer) (orig : Nat → Object Value) (base : UInt64)
    (last : Nat) (roots : List Value) (h : Heap) (release : ε) : Prop :=
  ∃ first whole m,
    Region.load h (w.data.extract 0 last) base true false release = (.ok first, []) ∧
    Region.load h w.data base true false release = (.ok whole, []) ∧
    w.LoadsFirst orig roots m first whole

namespace Region
variable {ε : Type} {r : Region ε} {values : List Value}

theorem reads_of_eq (hnext : r.next = 0) (hroots : r.roots.toList = values) :
    r.reads (values.length + 1) = values.map some ++ [none] := by
  rw [← hroots, Array.length_toList]
  exact r.reads_all hnext

theorem reads_of_isPrefix (hnext : r.next = 0) (hroots : values <+: r.roots.toList) :
    r.reads values.length = values.map some := by
  have hle : values.length ≤ r.roots.size := hroots.length_le
  rw [reads_eq _ _ (by omega), hnext, List.drop_zero, ← List.prefix_iff_eq_take.mp hroots]

end Region

theorem lt_size_of_mem_roots {bytes : Bytes} {base id : Nat} {records : List Record} (h : Heap)
    (himage : IsImage bytes base records)
    (hid : .object id ∈ (imageGraph bytes base h.size records).roots.toList) :
    id < (h.adopt (imageGraph bytes base h.size records).objects).size := by
  rcases inImage_of_mem_roots himage (Array.mem_toList_iff.mp hid) with
    ⟨payload, hscalar⟩ | ⟨number, r, hobject, hr⟩
  · cases hscalar
  · obtain ⟨_, _, _, hat⟩ := exists_getElem?_objects hr
    rw [Value.object.inj hobject, Heap.size_adopt]
    exact Nat.add_lt_add_left (Array.getElem?_eq_some_iff.mp hat).1 h.size

namespace Writer

theorem CopiedAt.contains {w : Writer} {orig : Nat → Object Value} {layout : List Entry}
    {id off : Nat} (hat : w.CopiedAt orig layout id off) : w.copied.contains id = true := by
  rw [Std.ExtTreeMap.contains_eq_isSome_getElem?, hat.1]
  rfl

theorem loadsFirst_of_graphs {ε : Type} {w : Writer} {orig : Nat → Object Value}
    {roots : List Value} {m : Nat → Nat} {h : Heap} {g₁ g : ImageGraph} {part whole : Region ε}
    (hpart : part.next = 0 ∧ part.roots = g₁.roots) (hwhole : whole.next = 0 ∧ whole.roots = g.roots)
    (hobjects : g₁.objects.toList <+: g.objects.toList)
    (hroots : g₁.roots.toList <+: g.roots.toList)
    (hroots₁ : g₁.roots.toList = roots.map (Value.mapId m))
    (hinside : ∀ id, .object id ∈ g₁.roots.toList → id < (h.adopt g₁.objects).size)
    (hcopied : ∀ id, .object id ∈ roots → w.copied.contains id = true)
    (hentry : ∀ id, w.copied.contains id = true →
      (h.adopt g.objects).entry (m id) = ⟨(orig id).map (Value.mapId m), true⟩ ∧
        ∀ child, .object child ∈ (orig id).children → w.copied.contains child = true) :
    w.LoadsFirst orig roots m (h.adopt g₁.objects, part) (h.adopt g.objects, whole) where
  rootCount := by
    rw [Region.rootCount, hpart.2, ← Array.length_toList, hroots₁, List.length_map]
  reads := by
    have hreads := Region.reads_of_eq hpart.1 (hpart.2 ▸ hroots₁)
    rwa [List.length_map, List.map_map] at hreads
  reads_whole := by
    rw [hroots₁, ← hwhole.2] at hroots
    have hreads := Region.reads_of_isPrefix hwhole.1 hroots
    rwa [List.length_map, List.map_map] at hreads
  inside id hid := by
    refine ⟨hcopied id hid, hinside _ ?_⟩
    rw [hroots₁]
    exact List.mem_map_of_mem hid
  entries := by
    rw [Heap.adopt, Heap.adopt, Array.toList_append, Array.toList_append, Array.toList_map,
      Array.toList_map]
    exact (List.prefix_append_right_inj _).mpr (hobjects.map _)
  entry_eq := hentry

variable {w w₁ : Writer} {hash : ContentHash} {orig orig₁ : Nat → Object Value}
variable {roots roots₁ : List Value} {layout layout₁ : List Entry} {f f₁ : Nat → Nat}

/-- An image that what a writer holds begins with ends behind one of the roots. -/
theorem Holding.mem_endsFrom (hw : Holding w hash orig roots layout f) {first : Bytes}
    (hp : first.toList <+: w.data.toList) {records : List Record}
    (himage : IsImage first w.base.toNat records) : first.size ∈ endsFrom headerSize layout := by
  have hrecords : records <+: recordsOf headerSize layout :=
    himage.tiling.isPrefix hp hw.laid.size_lt hw.laid.tiling
  obtain ⟨r, hlast, hterminator⟩ := himage.closed
  obtain ⟨off, e, hmem, rfl⟩ :=
    mem_recordsOf.mp (hrecords.subset (List.mem_of_getLast? hlast))
  have hend := himage.tiling.end_of_getLast? hlast
  apply HeapImage.mem_endsFrom.mpr
  cases e with
  | object id o =>
    rw [isTerminator_object] at hterminator
    cases hterminator
  | terminator root => exact ⟨off, root, hmem, hend.symm⟩

/-- What a writer held at first is read in the same way from what it holds later. -/
theorem Holding.canLoadFirst {ε : Type} (hw : Holding w hash orig roots layout f)
    (hw₁ : Holding w₁ hash orig₁ roots₁ layout₁ f₁) (hgrown : w.GrownFrom w₁) (hne : roots ≠ [])
    (hne₁ : roots₁ ≠ []) (h : Heap) (release : ε) :
    w.CanLoadFirst orig w.base w₁.size (roots.take roots₁.length) h release := by
  have himage₁ := hw₁.isImage hne₁
  have hcount := congrArg List.length (hw₁.roots_imageGraph hne₁ h.size)
  rw [← hgrown.base] at himage₁ hcount
  have hrecords := himage₁.tiling.isPrefix hgrown.data hw.laid.size_lt hw.laid.tiling
  obtain ⟨hobjects, hroots⟩ := imageGraph_of_isPrefix hgrown.data himage₁ hrecords h.size
  -- There are as many roots as there were by then, and they are the first of those that are there.
  have hroots₁ := List.prefix_iff_eq_take.mp hroots
  rw [hcount, hw.roots_imageGraph hne h.size, List.length_map, ← List.map_take] at hroots₁
  have hload₁ := Region.load_of_isImage h false release hw₁.laid.size_lt himage₁
  have hload := Region.load_of_isImage h false release hw.laid.size_lt (hw.isImage hne)
  rw [CanLoadFirst, ← hgrown.data_eq_extract]
  refine ⟨_, _, w.loadedId layout h.size, hload₁, hload, ?_⟩
  refine loadsFirst_of_graphs ⟨rfl, rfl⟩ ⟨rfl, rfl⟩ hobjects hroots hroots₁ ?_ ?_ ?_
  · exact fun id => lt_size_of_mem_roots h himage₁
  · intro id hid
    obtain ⟨off, hat⟩ := hw.copiedAt_of_root (List.mem_of_mem_take hid)
    exact hat.contains
  · intro id hc
    rw [Std.ExtTreeMap.contains_eq_isSome_getElem?, Option.isSome_iff_exists] at hc
    obtain ⟨off, hat⟩ := hw.copiedAt hc.choose_spec
    refine ⟨(hw.entry_loadedId hne rfl hat).2, fun child hchild => ?_⟩
    obtain ⟨_, hat'⟩ := hw.copiedAt_of_child hat hchild
    exact hat'.contains

end Writer

section Cut
variable {ε : Type} {c : WriterConfig} {w : Writer} {calls : List (Heap × Value)} {last : Nat}

theorem canLoadFirst_of_accepted (hcreate : Writer.create? c = .ok w) (hash : ContentHash)
    (hcalls : ∀ call ∈ calls, call.1.WellFormed ∧ call.2.In call.1) {k : Nat} {root : Value}
    (hk : (w.accepted hash calls)[k]? = some (root, last)) (orig : Nat → Object Value) (h : Heap)
    (release : ε) :
    (w.calls hash calls).1.CanLoadFirst (w.originals hash orig calls) c.base last
      (((w.accepted hash calls).take (k + 1)).map Prod.fst) h release := by
  have hrest := Writer.atRest_of_create? hcreate
  have hstart := Writer.holding_of_create? hcreate hash orig
  obtain ⟨earlier, h', later, hsplit, hlength, hsize⟩ := Writer.exists_of_getElem?_accepted hk
  rw [List.append_cons] at hsplit
  have hfirst : ∀ call ∈ earlier ++ [(h', root)], call.1.WellFormed ∧ call.2.In call.1 := by
    intro call hcall
    exact hcalls call (hsplit ▸ List.mem_append_left _ hcall)
  obtain ⟨layout, f, hw, _⟩ := hstart.history hrest hcalls
  obtain ⟨layout₁, f₁, hw₁, _⟩ := hstart.history hrest hfirst
  have hbase := (hrest.grownFrom_calls hash calls).base.trans (Writer.base_of_create? hcreate)
  have hgrown := hrest.grownFrom_calls_append hash (earlier ++ [(h', root)]) later
  rw [← hsplit] at hgrown
  have hne : w.accepted hash calls ≠ [] := List.ne_nil_of_mem (List.mem_of_getElem? hk)
  have hne₁ : w.accepted hash (earlier ++ [(h', root)]) ≠ [] :=
    List.ne_nil_of_length_eq_add_one hlength
  have hloads := hw.canLoadFirst hw₁ hgrown (by simpa using hne) (by simpa using hne₁) h release
  rwa [List.nil_append, List.nil_append, List.length_map, hlength, ← List.map_take, hsize,
    hbase] at hloads

/-- Only there the image can be cut. -/
theorem accepted_of_load (hcreate : Writer.create? c = .ok w) (hash : ContentHash)
    (hcalls : ∀ call ∈ calls, call.1.WellFormed ∧ call.2.In call.1)
    (hlast : last ≤ (w.calls hash calls).1.size) {h h₁ : Heap} {release : ε} {part : Region ε}
    {effects : List ε} (hload : Region.load h ((w.calls hash calls).1.data.extract 0 last) c.base
      true false release = (.ok (h₁, part), effects)) :
    ∃ (k : Nat) (root : Value), (w.accepted hash calls)[k]? = some (root, last) := by
  have hrest := Writer.atRest_of_create? hcreate
  have hstart := Writer.holding_of_create? hcreate hash fun _ => .array #[]
  obtain ⟨layout, f, hw, hends⟩ := hstart.history hrest hcalls
  have hbase := (hrest.grownFrom_calls hash calls).base.trans (Writer.base_of_create? hcreate)
  generalize w.calls hash calls = final at *
  unfold Region.load at hload
  dsimp only at hload
  split at hload
  · cases hload
  · rename_i g hg
    obtain ⟨records, himage, _⟩ := isImage_of_load hg
    rw [← hbase] at himage
    have hp : (final.1.data.extract 0 last).toList <+: final.1.data.toList := by
      rw [Array.toList_extract, List.extract_eq_take_drop, List.drop_zero]
      exact List.take_prefix _ _
    have hmem := hw.mem_endsFrom hp himage
    have hsize : (final.1.data.extract 0 last).size = last := by
      have hdata : last ≤ final.1.data.size := hlast
      rw [Array.size_extract]
      omega
    rw [hsize, List.nil_append] at hmem
    rw [totalSize_nil, Nat.add_zero] at hends
    rw [hends, List.mem_map] at hmem
    obtain ⟨⟨root, size⟩, hmem, rfl⟩ := hmem
    obtain ⟨k, hk⟩ := List.mem_iff_getElem?.mp hmem
    exact ⟨k, root, hk⟩

/-- The first bytes of what a writer has written can be loaded if and only if they end where a call
that succeeded has ended. Then just the roots of the calls up to that one are read, and the graph is
the same as in the whole image. -/
theorem exists_load_cut_iff (hcreate : Writer.create? c = .ok w) (hash : ContentHash)
    (hcalls : ∀ call ∈ calls, call.1.WellFormed ∧ call.2.In call.1)
    (hlast : last ≤ (w.calls hash calls).1.size) (orig : Nat → Object Value) (h : Heap)
    (release : ε) :
    ((∃ h₁ part, Region.load h ((w.calls hash calls).1.data.extract 0 last) c.base true false
        release = (.ok (h₁, part), [])) ↔
      ∃ (k : Nat) (root : Value), (w.accepted hash calls)[k]? = some (root, last)) ∧
    ∀ (k : Nat) (root : Value), (w.accepted hash calls)[k]? = some (root, last) →
      (w.calls hash calls).1.CanLoadFirst (w.originals hash orig calls) c.base last
        (((w.accepted hash calls).take (k + 1)).map Prod.fst) h release := by
  have hloads : ∀ (k : Nat) (root : Value), (w.accepted hash calls)[k]? = some (root, last) → _ :=
    fun k root hk => canLoadFirst_of_accepted hcreate hash hcalls hk orig h release
  refine ⟨⟨?_, ?_⟩, hloads⟩
  · intro hload
    obtain ⟨h₁, part, hload⟩ := hload
    exact accepted_of_load hcreate hash hcalls hlast hload
  · intro haccepted
    obtain ⟨k, root, hk⟩ := haccepted
    obtain ⟨⟨h₁, part⟩, _, _, hpart, _⟩ := hloads k root hk
    exact ⟨h₁, part, hpart⟩

theorem Writer.originals_of_same {w : Writer} {hash : ContentHash} {orig : Nat → Object Value}
    (hsame : ∀ call ∈ calls, call.1.object = orig) : w.originals hash orig calls = orig := by
  induction calls generalizing w with
  | nil => rfl
  | cons call rest ih =>
    obtain ⟨rfl, hrest⟩ := List.forall_mem_cons.mp hsame
    have hview : w.view call.1.object call.1 = call.1.object := funext fun id => ite_self _
    rw [originals, hview, ih hrest]

end Cut

set_option maxRecDepth 4096 in
theorem accepted_twin : (Writer.start { base := 4096 }).accepted fingerprint twinCalls =
    [(.object 2, 104), (.scalar ⟨5, by decide⟩, 120)] := by
  cbv

/-- Up to byte 104 there is the first root, which is read as the constructor that it was; up to byte
112 there is half of a terminator. -/
theorem twin_cut :
    (∃ first, ∃ m : Nat → Nat, Region.load twinHeap
        (((Writer.start { base := 4096 }).calls fingerprint twinCalls).1.data.extract 0 104) 4096
        true false () = (.ok first, []) ∧
      first.2.reads 2 = [some (.object (m 2)), none] ∧
      first.1.object (m 2) = .constructor 7 #[.object (m 2), .object (m 0), .object (m 1)] #[]) ∧
    ¬∃ h₁ part, Region.load twinHeap
      (((Writer.start { base := 4096 }).calls fingerprint twinCalls).1.data.extract 0 112) 4096
      true false () = (.ok (h₁, part), []) := by
  have hcreate : Writer.create? { base := 4096 } = .ok (Writer.start { base := 4096 }) := rfl
  have hrest := Writer.atRest_of_create? hcreate
  have hsize : 120 ≤ ((Writer.start { base := 4096 }).calls fingerprint twinCalls).1.size := by
    apply Writer.le_size_of_mem_accepted hrest
    rw [accepted_twin]
    exact List.mem_cons_of_mem _ List.mem_cons_self
  have hcuts : ∀ last, last ≤ 120 → _ := fun last hlast =>
    exists_load_cut_iff hcreate fingerprint wellFormed_twinCalls (hlast.trans hsize)
      twinHeap.object twinHeap ()
  rw [accepted_twin] at hcuts
  constructor
  · obtain ⟨first, whole, m, hload, _, hfirst⟩ := (hcuts 104 (by decide)).2 0 _ rfl
    have hsame : ∀ call ∈ twinCalls, call.1.object = twinHeap.object := by
      simp [twinCalls]
    obtain ⟨hcopied, hinside⟩ := hfirst.inside 2 List.mem_cons_self
    have hentry := hfirst.entry_first hcopied hinside
    rw [Writer.originals_of_same hsame] at hentry
    refine ⟨first, m, hload, hfirst.reads, ?_⟩
    rw [Heap.object, hentry]
    simp [twinHeap, Heap.object, Heap.entry, Object.map, Value.mapId]
  · intro hload
    obtain ⟨k, root, hk⟩ := (hcuts 112 (by decide)).1.mp hload
    have hmem := List.mem_of_getElem? hk
    simp at hmem

end HeapImage
