import HeapImage.Proofs.Image.Addresses
import HeapImage.Proofs.Image.Beginning
import HeapImage.Proofs.Renaming

/-!
# Base addresses

What a writer does is the same for every base address, except that addresses near the end of the
address space may leave too little room. The image for a base address is the one for none with the
base address added wherever an address stands, and it is loaded as the same graph.
-/

namespace HeapImage
set_option autoImplicit false

section Identity

theorem Value.mapId_id : Value.mapId id = id := by
  funext v
  cases v <;> rfl

theorem Object.map_id {ρ : Type} (o : Object ρ) : o.map id = o := by
  cases o with
  | thunk state => cases state <;> rfl
  | task result | promise result => cases result <;> rfl
  | constructor | array => simp [Object.map]
  | _ => rfl

theorem Entry.mapId_id : Entry.mapId id = id := by
  funext e
  cases e with
  | object owner o => rw [mapId, Value.mapId_id, Object.map_id, id, id]
  | terminator root => rw [mapId, Value.mapId_id, id, id]

end Identity

theorem Heap.renamedBy_refl (h : Heap) : h.RenamedBy h (Equiv.refl Nat) := by
  refine ⟨fun _ => Iff.rfl, fun other _ => ?_⟩
  have hrenamed := Object.renamed_map (Equiv.refl Nat) (h.object other)
  rwa [Equiv.coe_refl, Value.mapId_id, Object.map_id] at hrenamed

theorem renamedCall_refl {call : Heap × Value} (hcall : call.1.WellFormed ∧ call.2.In call.1) :
    RenamedCall (Equiv.refl Nat) call call := by
  refine ⟨hcall.1, hcall.2, call.1.renamedBy_refl, ?_⟩
  rw [Equiv.coe_refl, Value.mapId_id, id]

namespace Writer
variable {hash hash' : ContentHash} {orig orig' : Nat → Object Value} {w w' : Writer}

section Places
variable {layout : List Entry} {f : Nat → Nat} {place : Nat → Nat}

theorem Laid.places (hl : Laid w hash orig layout f [])
    (hplace : ∀ id off : Nat, w.copied[id]? = some (w.base.toNat + off) → place id = off) :
    ∀ slot v, (slot, v) ∈ slotsFrom headerSize layout →
      Places w.base.toNat place layout (f slot) v := by
  intro slot v hv
  cases v with
  | scalar payload => exact hl.filled slot _ hv
  | object id =>
    obtain ⟨off, hword, hc, owner, hmem, _⟩ := hl.copiedAt_of_mem_slotsFrom hv
    obtain rfl := hplace id off hc
    exact ⟨hword, owner, _, hmem⟩

/-- The offset at which an object was copied. -/
def placeOf (w : Writer) (id : Nat) : Nat := w.copied.getD id 0 - w.base.toNat

theorem placeOf_eq {id off : Nat} (hc : w.copied[id]? = some (w.base.toNat + off)) :
    w.placeOf id = off := by
  rw [placeOf, Std.ExtTreeMap.getD_eq_getD_getElem?, hc]
  exact Nat.add_sub_cancel_left _ _

theorem Alike.placeOf_eq {met : Nat → Prop} {holes : List Hole}
    (ha : Alike id met hash hash' orig orig' w w' layout holes) {other off : Nat}
    (hc : w'.copied[other]? = some (w'.base.toNat + off)) : w.placeOf other = off := by
  obtain ⟨_, hl⟩ := ha.left
  obtain ⟨before, word, rfl, hword⟩ := ha.exists_copied other _ hc
  obtain ⟨off', _, rfl, _⟩ := hl.copied before word hword
  have hsame := Option.some.inj ((ha.copied before off' hword).symm.trans hc)
  rw [id, Writer.placeOf_eq hword]
  exact Nat.add_left_cancel hsame

end Places

section Alike
variable {layout : List Entry} {met : Nat → Prop}
variable (ha : Alike id met hash hash' orig orig' w w' layout [])
include ha

theorem Alike.laid_right : ∃ f', Laid w' hash' orig' layout f' [] := by
  obtain ⟨f', hl'⟩ := ha.right
  rw [Entry.mapId_id, List.map_id] at hl'
  exact ⟨f', hl'⟩

theorem Alike.imageGraph_eq (first : Nat) :
    imageGraph w'.data w'.base.toNat first (recordsOf headerSize layout) =
      imageGraph w.data w.base.toNat first (recordsOf headerSize layout) := by
  obtain ⟨f, hl⟩ := ha.left
  obtain ⟨f', hl'⟩ := ha.laid_right
  have hplaces := hl.places fun id off hc => Writer.placeOf_eq hc
  have hplaces' := hl'.places fun id off hc => ha.placeOf_eq hc
  rw [imageGraph_layout hl.data_eq hl.limit hplaces hl.base_mod hl.valid,
    imageGraph_layout hl'.data_eq hl'.limit hplaces' hl'.base_mod hl'.valid]

theorem Alike.rebased (hbase : w'.base = 0) :
    Rebased w.base.toNat (recordsOf headerSize layout) w'.data w.data := by
  obtain ⟨f, hl⟩ := ha.left
  obtain ⟨f', hl'⟩ := ha.laid_right
  have hzero : w'.base.toNat = 0 := by
    rw [hbase]
    rfl
  have hplaces := hl.places fun id off hc => Writer.placeOf_eq hc
  have hplaces' := hl'.places fun id off hc => ha.placeOf_eq hc
  have hbytes' := hl'.bytes
  rw [hzero] at hplaces' hbytes'
  exact rebased_of_layout hbytes' hl.bytes w.base.toNat_lt hl.limit hl.valid hplaces' hplaces

theorem Alike.exists_load {ε : Type}
    (himage : IsImage w.data w.base.toNat (recordsOf headerSize layout))
    (himage' : IsImage w'.data w'.base.toNat (recordsOf headerSize layout)) (h : Heap)
    (release : ε) :
    ∃ h' region, Region.ofWriter h w release = (.ok (h', region), []) ∧
      Region.ofWriter h w' release = (.ok (h', { region with base := w'.base }), []) := by
  obtain ⟨f, hl⟩ := ha.left
  obtain ⟨f', hl'⟩ := ha.laid_right
  have hsize : w'.data.size = w.data.size := ha.size_eq
  refine ⟨_, _, Region.load_of_isImage h false release hl.size_lt himage, ?_⟩
  rw [Region.ofWriter, Region.load_of_isImage h false release hl'.size_lt himage',
    ha.imageGraph_eq, hsize]

end Alike
end Writer

section Runs
variable {ε : Type} {c c' : WriterConfig} {w w' : Writer} {calls : List (Heap × Value)}

/-- New writers are abreast, if the base address of the second is not larger. -/
theorem Writer.abreast_of_create? (hcreate : Writer.create? c = .ok w)
    (hcreate' : Writer.create? c' = .ok w') (hbase : c'.base ≤ c.base)
    (hsharing : c'.sharing = c.sharing) (hash hash' : ContentHash) (orig orig' : Nat → Object Value)
    (m : Nat → Nat) : Writer.Abreast m (fun _ => True) hash hash' orig orig' w w' := by
  have hle : w'.base ≤ w.base := by
    rwa [Writer.base_of_create? hcreate', Writer.base_of_create? hcreate]
  have hsame : w'.sharing = w.sharing := by
    rw [Writer.sharing_of_create? hcreate', Writer.sharing_of_create? hcreate, hsharing]
  exact (Writer.holding_of_create? hcreate hash orig).abreast
    (Writer.holding_of_create? hcreate' hash' orig') (Writer.atRest_of_create? hcreate)
    (Writer.atRest_of_create? hcreate') hle hsame

section Loading
variable (hcreate : Writer.create? c = .ok w) (hash : ContentHash)
variable (hcalls : ∀ call ∈ calls, call.1.WellFormed ∧ call.2.In call.1)
variable (hsome : .ok () ∈ (w.calls hash calls).2)
include hcreate hcalls hsome

theorem Writer.exists_holding_of_accepted : ∃ orig layout f,
    Holding (w.calls hash calls).1 hash orig ((w.accepted hash calls).map Prod.fst) layout f ∧
      (w.accepted hash calls).map Prod.fst ≠ [] := by
  have hstart := Writer.holding_of_create? hcreate hash fun _ => .array #[]
  obtain ⟨layout, f, hw, _⟩ := hstart.history (Writer.atRest_of_create? hcreate) hcalls
  rw [List.nil_append] at hw
  refine ⟨_, _, f, hw, ?_⟩
  rw [ne_eq, List.map_eq_nil_iff]
  exact Writer.accepted_ne_nil_iff.mpr hsome

/-- What a writer holds after a call that has succeeded is an image, however it is split. -/
theorem Writer.isImage_of_calls {records : List Record}
    (htiling : Tiling (w.calls hash calls).1.data (w.calls hash calls).1.base.toNat headerSize
      records) :
    IsImage (w.calls hash calls).1.data (w.calls hash calls).1.base.toNat records := by
  obtain ⟨orig, layout, f, hw, hne⟩ := Writer.exists_holding_of_accepted hcreate hash hcalls hsome
  have himage := hw.isImage hne
  rwa [himage.tiling.unique hw.laid.size_lt htiling] at himage

/-- The roots of the calls that have succeeded are read, in their order. -/
theorem Writer.exists_reads_of_calls {h h' : Heap} {release : ε} {region : Region ε}
    {effects : List ε}
    (hload : Region.ofWriter h (w.calls hash calls).1 release = (.ok (h', region), effects)) :
    region.rootCount = (w.accepted hash calls).length ∧ ∃ m : Nat → Nat,
      region.reads region.rootCount =
        (w.accepted hash calls).map fun call => some (call.1.mapId m) := by
  obtain ⟨orig, layout, f, hw, hne⟩ := Writer.exists_holding_of_accepted hcreate hash hcalls hsome
  obtain ⟨g, loaded, _, hloaded, hcount, hreads⟩ := hw.exists_load hne h release
  rw [hload] at hloaded
  cases hloaded
  rw [List.length_map] at hcount hreads
  rw [List.map_map] at hreads
  exact ⟨hcount, _, hcount.symm ▸ hreads⟩

end Loading

/-- The writer for a base address and the one for none do the same, as long as the former has room.
Their images differ in the addresses only. They are loaded as the same graph, and the roots that are
read are those of the calls that have succeeded. -/
theorem calls_of_rebased (hcreate : Writer.create? c = .ok w)
    (hcreate' : Writer.create? c' = .ok w') (hbase : c'.base = 0)
    (hsharing : c'.sharing = c.sharing) (hash hash' : ContentHash)
    (hcalls : ∀ call ∈ calls, call.1.WellFormed ∧ call.2.In call.1)
    (hroom : ∀ result ∈ (w.calls hash calls).2, result ≠ .error .tooLarge) :
    (w'.calls hash' calls).2 = (w.calls hash calls).2 ∧
    (w'.calls hash' calls).1.size = (w.calls hash calls).1.size ∧
    (w'.calls hash' calls).1.stats = (w.calls hash calls).1.stats ∧
    (∃ records,
      Tiling (w.calls hash calls).1.data c.base.toNat headerSize records ∧
      Tiling (w'.calls hash' calls).1.data 0 headerSize records ∧
      Rebased c.base.toNat records (w'.calls hash' calls).1.data (w.calls hash calls).1.data) ∧
    (.ok () ∈ (w.calls hash calls).2 → ∀ (h : Heap) (release : ε), ∃ h' region,
      Region.ofWriter h (w.calls hash calls).1 release = (.ok (h', region), []) ∧
      Region.ofWriter h (w'.calls hash' calls).1 release =
        (.ok (h', { region with base := 0 }), []) ∧
      region.rootCount = (w.accepted hash calls).length ∧ ∃ m : Nat → Nat,
        region.reads region.rootCount =
          (w.accepted hash calls).map fun call => some (call.1.mapId m)) := by
  have hbefore := Writer.abreast_of_create? hcreate hcreate' (hbase ▸ UInt64.zero_le) hsharing hash
    hash' (fun _ => .array #[]) (fun _ => .array #[]) (Equiv.refl Nat)
  obtain ⟨hresults, _, _, _, _, layout, ha⟩ := hbefore.calls_renamed (.inr hroom)
    (List.forall₂_same.mpr fun call hcall => renamedCall_refl (hcalls call hcall))
  rw [Equiv.coe_refl] at ha
  have hbase₁ : (w.calls hash calls).1.base = c.base :=
    ((Writer.atRest_of_create? hcreate).grownFrom_calls hash calls).base.trans
      (Writer.base_of_create? hcreate)
  have hbase₁' : (w'.calls hash' calls).1.base = 0 :=
    ((Writer.atRest_of_create? hcreate').grownFrom_calls hash' calls).base.trans
      ((Writer.base_of_create? hcreate').trans hbase)
  obtain ⟨f, hl⟩ := ha.left
  obtain ⟨f', hl'⟩ := ha.laid_right
  have htiling := hl.tiling
  have htiling' := hl'.tiling
  refine ⟨hresults, ha.size_eq, ?_, ?_, ?_⟩
  · exact Stats.ext ha.roots_eq ha.objects_eq (ha.shared_eq Function.injective_id)
  · have hrebased := ha.rebased hbase₁'
    rw [hbase₁] at htiling hrebased
    rw [hbase₁'] at htiling'
    exact ⟨_, htiling, htiling', hrebased⟩
  · intro hsome h release
    have himage := Writer.isImage_of_calls hcreate hash hcalls hsome htiling
    have himage' := Writer.isImage_of_calls hcreate' hash' hcalls (hresults ▸ hsome) htiling'
    obtain ⟨h', region, hload, hload'⟩ := ha.exists_load himage himage' h release
    rw [hbase₁'] at hload'
    exact ⟨h', region, hload, hload',
      Writer.exists_reads_of_calls hcreate hash hcalls hsome hload⟩

end Runs

/-- An array of a big integer and a scalar. -/
def numberHeap : Heap :=
  ⟨#[⟨.array #[.object 1, .scalar ⟨5, five_lt_scalarLimit⟩], false⟩,
    ⟨.bigInteger ⟨false, [7]⟩, false⟩]⟩

theorem wellFormed_numberHeap : numberHeap.WellFormed := by
  have hsize : numberHeap.size = 2 := rfl
  refine ⟨fun id hid => ?_, fun id hid => ?_⟩
  · have hcases : id = 0 ∨ id = 1 := by omega
    rcases hcases with rfl | rfl
    · trivial
    · exact nofun
  · revert id
    decide

set_option maxRecDepth 4096 in
theorem accepted_number :
    ((Writer.start { base := 4096 }).accepted fingerprint [(numberHeap, .object 0)]).map Prod.fst =
      [.object 0] := by
  cbv

set_option maxRecDepth 4096 in
theorem calls_number :
    ((Writer.start { base := 4096 }).calls fingerprint [(numberHeap, .object 0)]).2 = [.ok ()] := by
  cbv

/-- The reference to the array, that to the big integer and that to its limb are moved. -/
theorem number_rebased :
    (∃ records, Rebased 4096 records
      ((Writer.start {}).calls fingerprint [(numberHeap, .object 0)]).1.data
      ((Writer.start { base := 4096 }).calls fingerprint [(numberHeap, .object 0)]).1.data) ∧
    ∃ h' region,
      Region.ofWriter .empty
          ((Writer.start { base := 4096 }).calls fingerprint [(numberHeap, .object 0)]).1 () =
        (.ok (h', region), []) ∧
      Region.ofWriter .empty
          ((Writer.start {}).calls fingerprint [(numberHeap, .object 0)]).1 () =
        (.ok (h', { region with base := 0 }), []) ∧
      region.rootCount = 1 := by
  have hcalls : ∀ call ∈ [(numberHeap, Value.object 0)],
      call.1.WellFormed ∧ call.2.In call.1 := by
    intro call hcall
    obtain rfl := List.mem_singleton.mp hcall
    exact ⟨wellFormed_numberHeap, show 0 < numberHeap.size by decide⟩
  have hroom : ∀ result ∈ ((Writer.start { base := 4096 }).calls fingerprint
      [(numberHeap, .object 0)]).2, result ≠ .error .tooLarge := by
    rw [calls_number]
    simp
  have hcreate : Writer.create? { base := 4096 } = .ok (Writer.start { base := 4096 }) := rfl
  have hcreate' : Writer.create? {} = .ok (Writer.start {}) := rfl
  obtain ⟨_, _, _, ⟨records, _, _, hrebased⟩, hload⟩ :=
    calls_of_rebased hcreate hcreate' rfl rfl fingerprint fingerprint hcalls hroom
  rw [calls_number] at hload
  obtain ⟨h', region, hfirst, hsecond, hcount, _⟩ := hload List.mem_cons_self .empty ()
  rw [← List.length_map Prod.fst, accepted_number] at hcount
  exact ⟨⟨records, hrebased⟩, h', region, hfirst, hsecond, hcount⟩

end HeapImage
