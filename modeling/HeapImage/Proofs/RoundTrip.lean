import HeapImage.Proofs.Heap.Bisimilar
import HeapImage.Proofs.Writer.Traversal
import HeapImage.Proofs.Writer.Undo
import HeapImage.Storage

/-!
# Round trips

What a writer has written can be read, and what is read is a copy of the graph: every object that
is reached from the roots has a counterpart with the same data, whose references are to the
counterparts of its children. Only equal leaves are identified, and these exactly with sharing.
-/

namespace HeapImage
set_option autoImplicit false

namespace Region
variable {ε : Type}

def reads (r : Region ε) : Nat → List (Option Value)
  | 0 => []
  | count + 1 => r.read.2 :: r.read.1.reads count

theorem reads_eq_map (r : Region ε) (count : Nat) :
    r.reads count = (List.range count).map fun i => r.roots[r.next + i]? := by
  induction count generalizing r with
  | zero => rfl
  | succ count ih =>
    rw [reads, ih, List.range_succ_eq_map, List.map_cons, List.map_map, Nat.add_zero]
    cases hroot : r.roots[r.next]? with
    | some root =>
      simp only [read, hroot, Function.comp_def, Nat.succ_eq_add_one, Nat.add_assoc, Nat.add_comm 1]
    | none =>
      have hle := Array.getElem?_eq_none_iff.mp hroot
      have hnone : ∀ i, r.roots[r.next + i]? = none := fun i => Array.getElem?_eq_none (by omega)
      simp only [read, hroot, Function.comp_def, hnone]

theorem reads_eq (r : Region ε) (count : Nat) (hnext : r.next + count ≤ r.roots.size) :
    r.reads count = ((r.roots.toList.drop r.next).take count).map some := by
  rw [reads_eq_map]
  apply List.ext_getElem
  · simp only [List.length_map, List.length_range, List.length_take, List.length_drop,
      Array.length_toList]
    omega
  · intro i hi _
    rw [List.length_map, List.length_range] at hi
    have hlt : r.next + i < r.roots.size := by omega
    simp only [List.getElem_map, List.getElem_range, List.getElem_take, List.getElem_drop,
      Array.getElem_toList, Array.getElem?_eq_getElem hlt]

theorem reads_all (r : Region ε) (hnext : r.next = 0) :
    r.reads (r.rootCount + 1) = r.roots.toList.map some ++ [none] := by
  have hroots := r.reads_eq r.rootCount (by rw [hnext, rootCount, Nat.zero_add])
  rw [reads_eq_map] at hroots
  have hlast : r.roots[r.next + r.rootCount]? = none :=
    Array.getElem?_eq_none (Nat.le_add_left _ _)
  rw [reads_eq_map, List.range_succ, List.map_append, hroots, List.map_singleton, hlast, hnext,
    List.drop_zero, rootCount, ← Array.length_toList, List.take_length]

theorem load_of_isImage (h : Heap) {bytes : Bytes} {declared : UInt64} {records : List Record}
    (mapped : Bool) (release : ε) (hlimit : bytes.size < wordLimit)
    (himage : IsImage bytes declared.toNat records) :
    Region.load h bytes declared true mapped release =
      (.ok (h.adopt (imageGraph bytes declared.toNat h.size records).objects,
        { size := bytes.size
          base := declared
          mapped := mapped
          roots := (imageGraph bytes declared.toNat h.size records).roots
          next := 0
          guard := some (Guard.arm (.bare release)).wrap }), []) := by
  rw [Region.load, HeapImage.load_of_isImage hlimit himage]

end Region

/-- The map takes the objects reached from the roots to compacted objects of a heap that has grown,
with the same kind and data, and with children that correspond position by position. Different
objects stay different, except for equal leaves that are shared. -/
structure IsCopy (h h' : Heap) (sharing : Bool) (roots : List Value) (m : Nat → Nat) : Prop where
  grown : h'.GrownFrom h
  settled : ∀ id, h.Reaches roots id → (h.object id).Settled
  object_eq : ∀ id, h.Reaches roots id → h'.object (m id) = (h.object id).map (Value.mapId m)
  compacted : ∀ id, h.Reaches roots id → h'.isCompacted (.object (m id)) = true
  new : ∀ id, h.Reaches roots id → h.size ≤ m id ∧ m id < h'.size
  identified : ∀ a b, h.Reaches roots a → h.Reaches roots b → a ≠ b →
    (m a = m b ↔ sharing = true ∧ (h.object a).isLeaf = true ∧ h.object a = h.object b)

/-- A reached value and what the map makes of it. -/
def Heap.MapsTo (h : Heap) (roots : List Value) (m : Nat → Nat) (a b : Value) : Prop :=
  b = a.mapId m ∧ ∀ id, a = .object id → h.Reaches roots id

namespace IsCopy
variable {h h' : Heap} {sharing : Bool} {roots : List Value} {m : Nat → Nat}
variable (hc : IsCopy h h' sharing roots m) (hh : h.WellFormed)
variable (hroots : ∀ root ∈ roots, root.In h)
include hc hh hroots

theorem bisimulation : h'.Bisimulation (h.MapsTo roots m) := by
  intro a b hab
  obtain ⟨rfl, hreached⟩ := hab
  cases a with
  | scalar payload => exact .inl rfl
  | object id =>
    have hr := hreached id rfl
    have hobject := hc.grown.object_eq id (hr.lt_size hh hroots)
    have hpairs : (h'.object id).pairs? (h'.object (m id)) =
        some ((h.object id).children.map fun v => (v, v.mapId m)) := by
      rw [hobject, hc.object_eq id hr]
      exact Object.pairs?_map (hc.settled id hr) (Value.mapId m)
    refine .inr ⟨id, m id, _, rfl, rfl, hpairs, ?_⟩
    intro p hp
    obtain ⟨v, hv, rfl⟩ := List.mem_map.mp hp
    refine ⟨rfl, ?_⟩
    intro child hchild
    obtain rfl : v = .object child := hchild
    exact hr.child (Heap.mem_objectChildren.mpr hv)

theorem structurallyEqual {root : Value} (hroot : root ∈ roots) :
    h'.structurallyEqual root (root.mapId m) = true := by
  apply Heap.structurallyEqual_of_bisimulation (hc.bisimulation hh hroots)
  refine ⟨rfl, ?_⟩
  intro id hid
  exact .root (hid ▸ hroot)

end IsCopy

namespace Writer

/-- The number that a copied object gets when the image is loaded. -/
def loadedId (w : Writer) (layout : List Entry) (first id : Nat) : Nat :=
  first + recordNumber layout (w.copied.getD id 0 - w.base.toNat)

theorem loadedId_eq {w : Writer} {off id : Nat} (layout : List Entry) (first : Nat)
    (hc : w.copied[id]? = some (w.base.toNat + off)) :
    w.loadedId layout first id = first + recordNumber layout off := by
  rw [loadedId, Std.ExtTreeMap.getD_eq_getD_getElem?, hc, Option.getD_some, Nat.add_sub_cancel_left]

/-- An object was copied, to an entry of its own or to that of an equal leaf. -/
def CopiedAt (w : Writer) (orig : Nat → Object Value) (layout : List Entry) (id off : Nat) : Prop :=
  w.copied[id]? = some (w.base.toNat + off) ∧
    ∃ owner, (off, .object owner (orig id)) ∈ placed headerSize layout ∧
      (owner = id ∨ w.sharing = true ∧ (orig id).isLeaf = true)

section Complete
variable {w : Writer} {hash : ContentHash} {orig : Nat → Object Value} {layout : List Entry}
variable {f : Nat → Nat} {first id : Nat} {v : Value} {slot : Nat}

/-- If nothing is left to fill in, every reference is to an object that was copied. -/
theorem Laid.copiedAt_of_mem_slotsFrom (hl : Laid w hash orig layout f [])
    (hv : (slot, .object id) ∈ slotsFrom headerSize layout) :
    ∃ off, f slot = w.base.toNat + off ∧ w.CopiedAt orig layout id off := by
  rcases hl.filled slot _ hv with hhole | hstored
  · cases hhole
  · obtain ⟨off, owner, hword, hmem, howner⟩ := hl.copied id _ hstored
    exact ⟨off, hword, hword ▸ hstored, owner, hmem, howner⟩

theorem Laid.refers (hl : Laid w hash orig layout f [])
    (hv : (slot, v) ∈ slotsFrom headerSize layout) : Refers w.base.toNat layout (f slot) v := by
  cases v with
  | scalar payload => exact hl.filled slot _ hv
  | object id =>
    obtain ⟨off, hword, _, owner, hmem, _⟩ := hl.copiedAt_of_mem_slotsFrom hv
    exact ⟨off, owner, _, hmem, hword⟩

/-- The reader takes a word to be the value that it was stored for. -/
theorem Laid.wordValue_slot (hl : Laid w hash orig layout f [])
    (hv : (slot, v) ∈ slotsFrom headerSize layout) :
    wordValue w.base.toNat first (recordsOf headerSize layout) (f slot) =
      v.mapId (w.loadedId layout first) := by
  cases v with
  | scalar payload =>
    have hword : f slot = scalarWord payload := hl.filled slot _ hv
    rw [hword]
    exact wordValue_scalarWord _ payload
  | object id =>
    obtain ⟨off, hword, hc, owner, hmem, _⟩ := hl.copiedAt_of_mem_slotsFrom hv
    rw [hword, wordValue_offset hl.base_mod hmem, Value.mapId, loadedId_eq layout first hc]

theorem Holding.copiedAt {roots : List Value} (hw : Holding w hash orig roots layout f)
    {word : Nat} (hc : w.copied[id]? = some word) : ∃ off, w.CopiedAt orig layout id off := by
  obtain ⟨off, owner, rfl, hmem, howner⟩ := hw.laid.copied id word hc
  exact ⟨off, hc, owner, hmem, howner⟩

theorem Holding.copiedAt_of_root {roots : List Value} (hw : Holding w hash orig roots layout f)
    (hroot : .object id ∈ roots) : ∃ off, w.CopiedAt orig layout id off := by
  rw [← hw.roots_eq, rootsOf, List.mem_filterMap] at hroot
  obtain ⟨e, he, hid⟩ := hroot
  cases e with
  | object owner o => cases hid
  | terminator root =>
    obtain rfl : root = .object id := Option.some.inj hid
    obtain ⟨off, hmem⟩ := exists_mem_placed headerSize he
    have hslot := mem_slotsFrom.mpr ⟨off, _, hmem, Entry.mem_slots.mpr ⟨0, rfl, rfl⟩⟩
    obtain ⟨target, _, hc⟩ := hw.laid.copiedAt_of_mem_slotsFrom hslot
    exact ⟨target, hc⟩

/-- Between two calls the children of what was copied are copied too. -/
theorem Holding.copiedAt_of_child {roots : List Value} (hw : Holding w hash orig roots layout f)
    {off child : Nat} (hc : w.CopiedAt orig layout id off)
    (hchild : .object child ∈ (orig id).children) : ∃ off, w.CopiedAt orig layout child off := by
  obtain ⟨_, owner, hmem, _⟩ := hc
  obtain ⟨i, hi⟩ := List.mem_iff_getElem?.mp hchild
  have hslot := mem_slotsFrom.mpr ⟨off, _, hmem, Entry.mem_slots.mpr ⟨i, hi, rfl⟩⟩
  obtain ⟨target, _, hc⟩ := hw.laid.copiedAt_of_mem_slotsFrom hslot
  exact ⟨target, hc⟩

/-- Whatever is reached from the roots that a writer holds was copied. -/
theorem Holding.copiedAt_of_reaches {h : Heap} {roots : List Value}
    (hw : Holding w hash h.object roots layout f) (hr : h.Reaches roots id) :
    ∃ off, w.CopiedAt h.object layout id off := by
  induction hr with
  | root hroot => exact hw.copiedAt_of_root hroot
  | child _ hchild ih =>
    obtain ⟨off, hc⟩ := ih
    exact hw.copiedAt_of_child hc (Heap.mem_objectChildren.mp hchild)

/-- Two objects have one copy exactly if they are equal leaves that are shared. -/
theorem Laid.eq_iff_of_copiedAt {a b offA offB : Nat} {holes : List Hole}
    (hl : Laid w hash orig layout f holes) (ha : w.CopiedAt orig layout a offA)
    (hb : w.CopiedAt orig layout b offB) (hne : a ≠ b) :
    offA = offB ↔ w.sharing = true ∧ (orig a).isLeaf = true ∧ orig a = orig b := by
  obtain ⟨_, ownerA, hmemA, hownerA⟩ := ha
  obtain ⟨_, ownerB, hmemB, hownerB⟩ := hb
  constructor
  · intro heq
    subst heq
    obtain ⟨howner, hobject⟩ := Entry.object.inj (eq_of_mem_placed hmemA hmemB)
    rcases hownerA with rfl | ⟨hs, hleaf⟩
    · rcases hownerB with rfl | ⟨hs, hleaf⟩
      · exact absurd howner hne
      · exact ⟨hs, hobject ▸ hleaf, hobject⟩
    · exact ⟨hs, hleaf, hobject⟩
  · intro hequal
    obtain ⟨hs, hleaf, hobject⟩ := hequal
    rw [← hobject] at hmemB
    exact hl.distinct hs offA offB ownerA ownerB _ hmemA hmemB hleaf

theorem loadedId_eq_iff_of_copiedAt {a b offA offB : Nat} (layout : List Entry) (first : Nat)
    (ha : w.CopiedAt orig layout a offA) (hb : w.CopiedAt orig layout b offB) :
    w.loadedId layout first a = w.loadedId layout first b ↔ offA = offB := by
  obtain ⟨hca, ownerA, hmemA, _⟩ := ha
  obtain ⟨hcb, ownerB, hmemB, _⟩ := hb
  rw [loadedId_eq layout first hca, loadedId_eq layout first hcb]
  constructor
  · intro heq
    exact recordNumber_inj hmemA hmemB (Nat.add_left_cancel heq)
  · intro heq
    rw [heq]

end Complete

section Loading
variable {w : Writer} {hash : ContentHash} {orig : Nat → Object Value} {h : Heap}
variable {roots : List Value} {layout : List Entry} {f : Nat → Nat}
variable (hw : Holding w hash orig roots layout f)
include hw

variable (hne : roots ≠ [])
include hne

theorem Holding.limit : w.base.toNat + w.data.size < 2 ^ 64 := by
  obtain ⟨root, hroot⟩ := hw.closed hne
  have hlayout : layout ≠ [] := by
    intro hnil
    rw [hnil] at hroot
    cases hroot
  exact hw.laid.limit hlayout

theorem Holding.isImage : IsImage w.data w.base.toNat (recordsOf headerSize layout) :=
  isImage_of_layout hw.laid.bytes hw.laid.base_mod (hw.limit hne) hw.laid.valid (hw.closed hne)
    fun _ _ hv => hw.laid.refers hv

theorem Holding.wordValue_word (first : Nat) {slot : Nat} {v : Value}
    (hv : (slot, v) ∈ slotsFrom headerSize layout) :
    wordValue w.base.toNat first (recordsOf headerSize layout) (w.data.word slot) =
      v.mapId (w.loadedId layout first) := by
  have hword : w.data.word slot = f slot :=
    word_of_mem_slotsFrom hw.laid.bytes (hw.limit hne) hv (hw.laid.refers hv)
  rw [hword, hw.laid.wordValue_slot hv]

theorem Holding.entry_loadedId {g : ImageGraph}
    (hload : g = imageGraph w.data w.base.toNat h.size (recordsOf headerSize layout)) {id off : Nat}
    (hc : w.CopiedAt orig layout id off) :
    recordNumber layout off < g.objects.size ∧
      (h.adopt g.objects).entry (w.loadedId layout h.size id) =
        ⟨(orig id).map (Value.mapId (w.loadedId layout h.size)), true⟩ := by
  obtain ⟨hcopied, owner, hmem, _⟩ := hc
  have hobject := getElem?_objects_layout hw.laid.bytes hw.laid.valid
    (fun r hr => (hw.isImage hne).filled hr) (fun slot v hv => hw.wordValue_word hne h.size hv) hmem
  obtain ⟨hlt, _⟩ := Array.getElem?_eq_some_iff.mp hobject
  rw [hload, loadedId_eq layout h.size hcopied]
  exact ⟨hlt, entry_adopt_add hobject⟩

theorem Holding.roots_imageGraph (first : Nat) :
    (imageGraph w.data w.base.toNat first (recordsOf headerSize layout)).roots.toList =
      roots.map (Value.mapId (w.loadedId layout first)) := by
  have hroots := roots_layout fun slot v hv => hw.wordValue_word hne first hv
  rw [imageGraph, List.toList_toArray, hroots, hw.roots_eq]

/-- What a writer holds can be loaded into any heap, and its roots are read in order. -/
theorem Holding.exists_load {ε : Type} (h : Heap) (release : ε) :
    ∃ (g : ImageGraph) (region : Region ε),
      g = imageGraph w.data w.base.toNat h.size (recordsOf headerSize layout) ∧
      Region.ofWriter h w release = (.ok (h.adopt g.objects, region), []) ∧
      region.rootCount = roots.length ∧
      region.reads roots.length =
        roots.map (fun root => some (root.mapId (w.loadedId layout h.size))) := by
  have hroots := hw.roots_imageGraph hne h.size
  have hload : Region.ofWriter h w release = _ :=
    Region.load_of_isImage h false release hw.laid.size_lt (hw.isImage hne)
  generalize imageGraph w.data w.base.toNat h.size (recordsOf headerSize layout) = g
    at hroots hload
  have hcount : g.roots.size = roots.length := by
    rw [← Array.length_toList, hroots, List.length_map]
  refine ⟨g, _, rfl, hload, hcount, ?_⟩
  rw [Region.reads_eq _ _ (by dsimp only; omega)]
  dsimp only
  rw [List.drop_zero, hroots, List.take_of_length_le (by simp), List.map_map]
  rfl

end Loading

section Copies
variable {w : Writer} {hash : ContentHash} {h : Heap} {roots : List Value} {layout : List Entry}
variable {f : Nat → Nat} (hw : Holding w hash h.object roots layout f) (hne : roots ≠ [])
include hw hne

theorem Holding.isCopy {g : ImageGraph}
    (hg : g = imageGraph w.data w.base.toNat h.size (recordsOf headerSize layout)) :
    IsCopy h (h.adopt g.objects) w.sharing roots (w.loadedId layout h.size) := by
  refine ⟨⟨?_, ?_⟩, ?_, ?_, ?_, ?_, ?_⟩
  · rw [Heap.size_adopt]
    omega
  · intro id hid
    rw [Heap.object, Heap.entry_adopt_of_lt hid]
    rfl
  · intro id hr
    obtain ⟨off, _, owner, hmem, _⟩ := hw.copiedAt_of_reaches hr
    exact (hw.laid.valid _ (mem_of_mem_placed hmem)).2
  · intro id hr
    obtain ⟨off, hc⟩ := hw.copiedAt_of_reaches hr
    rw [Heap.object, (hw.entry_loadedId hne hg hc).2]
  · intro id hr
    obtain ⟨off, hc⟩ := hw.copiedAt_of_reaches hr
    rw [Heap.isCompacted, (hw.entry_loadedId hne hg hc).2]
  · intro id hr
    obtain ⟨off, hc⟩ := hw.copiedAt_of_reaches hr
    have hlt := (hw.entry_loadedId hne hg hc).1
    rw [loadedId_eq layout h.size hc.1, Heap.size_adopt]
    omega
  · intro a b hra hrb hab
    obtain ⟨offA, ha⟩ := hw.copiedAt_of_reaches hra
    obtain ⟨offB, hb⟩ := hw.copiedAt_of_reaches hrb
    rw [loadedId_eq_iff_of_copiedAt layout h.size ha hb]
    exact hw.laid.eq_iff_of_copiedAt ha hb hab

theorem Holding.exists_copy {ε : Type} (release : ε) :
    ∃ h' region m, Region.ofWriter h w release = (.ok (h', region), []) ∧
      region.rootCount = roots.length ∧
      region.reads roots.length = roots.map (fun root => some (root.mapId m)) ∧
      IsCopy h h' w.sharing roots m := by
  obtain ⟨g, region, hg, hload, hcount, hreads⟩ := hw.exists_load hne h release
  exact ⟨_, region, _, hload, hcount, hreads, hw.isCopy hne hg⟩

end Copies

end Writer

/-- If all calls of a writer succeed, over heaps that grow but do not change, then what it holds can
be loaded, and each root is read as the copy of the root of its call. -/
theorem exists_copy_of_calls {ε : Type} {c : WriterConfig} {w : Writer}
    (hcreate : Writer.create? c = .ok w) (hash : ContentHash) {h : Heap} (hh : h.WellFormed)
    {calls : List (Heap × Value)} (hne : calls ≠ [])
    (hcalls : ∀ call ∈ calls, call.1.Closed ∧ h.GrownFrom call.1 ∧ call.2.In call.1)
    (hok : ∀ result ∈ (w.calls hash calls).2, result = .ok ()) (release : ε) :
    ∃ h' region m, Region.ofWriter h (w.calls hash calls).1 release = (.ok (h', region), []) ∧
      region.rootCount = calls.length ∧
      region.reads calls.length = calls.map (fun call => some (call.2.mapId m)) ∧
      IsCopy h h' c.sharing (calls.map Prod.snd) m ∧
      ∀ call ∈ calls, h'.structurallyEqual call.2 (call.2.mapId m) = true := by
  have hshows : ∀ call ∈ calls, call.1.Shows h.object ∧ call.2.In call.1 := by
    intro call hcall
    obtain ⟨hclosed, hgrown, hin⟩ := hcalls call hcall
    exact ⟨⟨fun id hid => (hgrown.object_eq id hid).symm, fun id _ => hh.object id, hclosed⟩, hin⟩
  have hroots : ∀ root ∈ calls.map Prod.snd, root.In h := by
    intro root hroot
    obtain ⟨call, hcall, rfl⟩ := List.mem_map.mp hroot
    obtain ⟨_, hgrown, hin⟩ := hcalls call hcall
    exact hgrown.in_of_in hin
  obtain ⟨layout, f, hw⟩ := (Writer.holding_of_create? hcreate hash h.object).calls hshows hok
  obtain ⟨h', region, m, hload, hcount, hreads, hcopy⟩ :=
    hw.exists_copy (by simpa using hne) release
  have hsharing := (Writer.atRest_of_create? hcreate).sharing_calls hash calls
  rw [List.nil_append] at hcount hreads hcopy
  rw [hsharing, Writer.sharing_of_create? hcreate] at hcopy
  rw [List.length_map] at hcount hreads
  rw [List.map_map] at hreads
  refine ⟨h', region, m, hload, hcount, hreads, hcopy, ?_⟩
  intro call hcall
  exact hcopy.structurallyEqual hh hroots (List.mem_map_of_mem hcall)

theorem five_lt_scalarLimit : 5 < scalarLimit := by decide

/-- Two equal strings, and a constructor that refers to itself and to both. -/
def twinHeap : Heap :=
  ⟨#[⟨.string #[104], false⟩, ⟨.string #[104], false⟩,
    ⟨.constructor 7 #[.object 2, .object 0, .object 1] #[], false⟩]⟩

def twinCalls : List (Heap × Value) := [(twinHeap, .object 2), (twinHeap, .scalar ⟨5, by decide⟩)]

theorem wellFormed_twinHeap : twinHeap.WellFormed := by
  have hsize : twinHeap.size = 3 := rfl
  refine ⟨fun id hid => ?_, fun id hid => ?_⟩
  · have hcases : id = 0 ∨ id = 1 ∨ id = 2 := by omega
    rcases hcases with rfl | rfl | rfl <;> trivial
  · revert id
    decide

theorem wellFormed_twinCalls : ∀ call ∈ twinCalls, call.1.WellFormed ∧ call.2.In call.1 := by
  intro call hcall
  simp only [twinCalls, List.mem_cons, List.not_mem_nil, or_false] at hcall
  rcases hcall with rfl | rfl
  · exact ⟨wellFormed_twinHeap, show 2 < twinHeap.size by decide⟩
  · exact ⟨wellFormed_twinHeap, trivial⟩

set_option maxRecDepth 4096 in
theorem calls_twin : ((Writer.start { base := 4096 }).calls fingerprint twinCalls).2 =
    [.ok (), .ok ()] := by
  cbv

/-- The strings are shared in the copy, which is cyclic again. -/
theorem twin_copied : ∃ h' region, ∃ m : Nat → Nat,
    Region.ofWriter twinHeap ((Writer.start { base := 4096 }).calls fingerprint twinCalls).1 () =
      (.ok (h', region), []) ∧
    region.reads 2 = [some (.object (m 2)), some (.scalar ⟨5, by decide⟩)] ∧
    h'.object (m 2) = .constructor 7 #[.object (m 2), .object (m 0), .object (m 1)] #[] ∧
    m 0 = m 1 ∧ m 0 ≠ m 2 := by
  have hgrown : twinHeap.GrownFrom twinHeap := .refl twinHeap
  have hcalls : ∀ call ∈ twinCalls,
      call.1.Closed ∧ twinHeap.GrownFrom call.1 ∧ call.2.In call.1 := by
    intro call hcall
    simp only [twinCalls, List.mem_cons, List.not_mem_nil, or_false] at hcall
    rcases hcall with rfl | rfl
    · exact ⟨wellFormed_twinHeap.closed, hgrown, show 2 < twinHeap.size by decide⟩
    · exact ⟨wellFormed_twinHeap.closed, hgrown, trivial⟩
  have hok : ∀ result ∈ ((Writer.start { base := 4096 }).calls fingerprint twinCalls).2,
      result = .ok () := by
    rw [calls_twin]
    simp
  obtain ⟨h', region, m, hload, _, hreads, hcopy, _⟩ :=
    exists_copy_of_calls (c := { base := 4096 }) rfl fingerprint wellFormed_twinHeap
      (List.cons_ne_nil _ _) hcalls hok ()
  have hroot : twinHeap.Reaches (twinCalls.map Prod.snd) 2 := .root (by decide)
  have hleft : twinHeap.Reaches (twinCalls.map Prod.snd) 0 := hroot.child (by decide)
  have hright : twinHeap.Reaches (twinCalls.map Prod.snd) 1 := hroot.child (by decide)
  refine ⟨h', region, m, hload, hreads, ?_, ?_, ?_⟩
  · rw [hcopy.object_eq 2 hroot]
    simp [twinHeap, Heap.object, Heap.entry, Object.map, Value.mapId]
  · exact (hcopy.identified 0 1 hleft hright (by decide)).mpr ⟨rfl, rfl, rfl⟩
  · intro heq
    obtain ⟨_, _, hsame⟩ := (hcopy.identified 0 2 hleft hroot (by decide)).mp heq
    cases hsame

end HeapImage
