import HeapImage.Proofs.Heap.Graph
import HeapImage.Proofs.Image.Loaded

/-!
# Heaps in use

Heaps come into being by operations: objects are made, cells are settled, references and fields
are replaced, images are loaded. Whatever an operation is given is in the heap already, and so
every heap is well-formed.
-/

namespace HeapImage
set_option autoImplicit false

theorem Object.wellFormed_of_dataMisuse? {o : Object Value} (ho : o.dataMisuse? = none)
    (hkind : o.kind ≠ .bigInteger) : o.WellFormed := by
  cases o with
  | byteArray elemSize bytes =>
    simp only [dataMisuse?] at ho
    split at ho
    · cases ho
    · rename_i hpos
      split at ho
      · rename_i hwhole
        exact ⟨hpos, hwhole⟩
      · cases ho
  | bigInteger value => exact absurd rfl hkind
  | _ => trivial

theorem Record.wellFormed_object {bytes : Bytes} {base : Nat} {r : Record} {raw : Object RawRef}
    (h : IsRecord bytes base r) (hfilled : r.Filled bytes) (hraw : r.object? bytes = some raw) :
    raw.WellFormed := by
  have hexposes := exposes_object h hfilled hraw fun _ => .object 0
  cases raw with
  | byteArray elemSize data =>
    obtain ⟨_, hpos, hsize, _⟩ := hexposes
    refine ⟨fun hzero => ?_, by rw [hsize, Nat.mul_mod_left]⟩
    rw [hzero] at hpos
    cases hpos
  | bigInteger value =>
    have hdescribed := h.described
    cases hs : r.shape with
    | bigInteger sign length =>
      rw [hs] at hdescribed
      obtain ⟨_, _, _, _, _, hzero⟩ := hdescribed
      simp only [object?, hs, Option.some.injEq, Object.bigInteger.injEq] at hraw
      intro hlimbs
      rw [← hraw] at hlimbs ⊢
      have hlength : length = 0 := by simpa [limbs] using hlimbs
      rw [hzero hlength]
      rfl
    | thunk =>
      simp only [object?, hs] at hraw
      split at hraw <;> cases hraw
    | _ => simp [object?, hs] at hraw
  | _ => trivial

namespace Heap
variable {h : Heap} {o : Object Value} {id : Nat}

/-- An object that may be put into the heap: its children are there. -/
def Admits (h : Heap) (o : Object Value) : Prop := o.WellFormed ∧ ∀ v ∈ o.children, v.In h

theorem Admits.of_size_le {h' : Heap} (ho : h.Admits o) (hsize : h.size ≤ h'.size) :
    h'.Admits o := by
  refine ⟨ho.1, fun v hv => ?_⟩
  have hin := ho.2 v hv
  cases v with
  | scalar payload => trivial
  | object id => exact Nat.lt_of_lt_of_le hin hsize

theorem wellFormed_iff : h.WellFormed ↔ ∀ id, id < h.size → h.Admits (h.object id) := by
  constructor
  · intro hw id hid
    refine ⟨hw.data id hid, fun v hv => ?_⟩
    cases v with
    | scalar payload => trivial
    | object child => exact hw.closed id hid child (mem_objectChildren.mpr hv)
  · intro hall
    refine ⟨fun id hid => (hall id hid).1, fun id hid child hchild => ?_⟩
    exact (hall id hid).2 _ (mem_objectChildren.mp hchild)

theorem WellFormed.admits (hw : h.WellFormed) (id : Nat) : h.Admits (h.object id) := by
  by_cases hid : id < h.size
  · exact wellFormed_iff.mp hw id hid
  · rw [object_of_size_le (Nat.le_of_not_lt hid)]
    exact ⟨trivial, nofun⟩

theorem WellFormed.alloc (hw : h.WellFormed) (ho : h.Admits o) : (h.alloc o).1.WellFormed := by
  refine wellFormed_iff.mpr fun id hid => Admits.of_size_le (h := h) ?_ (by simp)
  rw [size_alloc] at hid
  by_cases hlast : id = h.size
  · rw [hlast, Heap.object, entry_alloc_self]
    exact ho
  · rw [Heap.object, entry_alloc_of_lt (by omega)]
    exact hw.admits id

theorem WellFormed.put (hw : h.WellFormed) (ho : h.Admits o) (id : Nat) :
    (h.put id o).WellFormed := by
  refine wellFormed_iff.mpr fun other hother => Admits.of_size_le (h := h) ?_ (by simp)
  rw [size_put] at hother
  by_cases heq : id = other
  · rw [heq, Heap.object, entry_put_self hother]
    exact ho
  · rw [Heap.object, entry_put_ne heq]
    exact hw.admits other

theorem WellFormed.adopt (hw : h.WellFormed) {objects : Array (Object Value)}
    (hobjects : ∀ o ∈ objects, (h.adopt objects).Admits o) : (h.adopt objects).WellFormed := by
  apply wellFormed_iff.mpr
  intro id hid
  rw [size_adopt] at hid
  by_cases hold : id < h.size
  · rw [Heap.object, entry_adopt_of_lt hold]
    exact (hw.admits id).of_size_le (by simp)
  · obtain ⟨number, rfl⟩ := Nat.exists_eq_add_of_le (Nat.le_of_not_lt hold)
    have hnumber : objects[number]? = some objects[number] := Array.getElem?_eq_getElem (by omega)
    rw [Heap.object, entry_adopt_add hnumber]
    exact hobjects _ (Array.mem_of_getElem? hnumber)

theorem WellFormed.build (hw : h.WellFormed) (hkind : o.kind ≠ .bigInteger)
    (hin : ∀ v ∈ o.children, v.In h) : (h.build o).1.WellFormed := by
  unfold Heap.build
  split
  · exact hw
  · rename_i hrefusal
    unfold Object.refusal? at hrefusal
    split at hrefusal
    · cases hrefusal
    · rename_i hdata
      exact hw.alloc ⟨Object.wellFormed_of_dataMisuse? hdata hkind, hin⟩

theorem WellFormed.bigInteger (hw : h.WellFormed) (negative : Bool) (limbs : List UInt64) :
    (h.bigInteger negative limbs).1.WellFormed := by
  refine hw.alloc ⟨fun hzero => ?_, nofun⟩
  simp only [LimbInteger.ofLimbs] at hzero ⊢
  rw [hzero, List.isEmpty_nil, Bool.not_true, Bool.and_false]

theorem WellFormed.load {ε : Type} {h' : Heap} (hw : h.WellFormed) {bytes : Bytes}
    {declared : UInt64} {aligned mapped : Bool} {release : ε} {region : Region ε} {effects : List ε}
    (hload : Region.load h bytes declared aligned mapped release = (.ok (h', region), effects)) :
    h'.WellFormed := by
  unfold Region.load at hload
  dsimp only at hload
  split at hload
  · cases hload
  · rename_i g hg
    cases hload
    obtain ⟨records, himage, rfl⟩ := isImage_of_load hg
    apply hw.adopt
    intro o ho
    obtain ⟨number, hnumber⟩ := Array.mem_iff_getElem?.mp ho
    rw [getElem?_objects_imageGraph, Option.bind_eq_some_iff] at hnumber
    obtain ⟨r, hr, hobject⟩ := hnumber
    obtain ⟨raw, hraw, rfl⟩ := Option.map_eq_some_iff.mp hobject
    obtain ⟨hmem, _⟩ := mem_objectRecords.mp (List.mem_of_getElem? hr)
    have hrecord := himage.tiling.isRecord r hmem
    have hwell := Record.wellFormed_object hrecord (himage.filled hmem) hraw
    refine ⟨Object.wellFormed_map _ hwell, fun v hv => ?_⟩
    obtain ⟨payload, rfl⟩ | ⟨child, target, rfl, hchild⟩ :=
      inImage_of_mem_children himage hmem hraw hv
    · trivial
    · obtain ⟨_, _, _, hat⟩ := exists_getElem?_objects hchild
      rw [Value.In, size_adopt]
      exact Nat.add_lt_add_left (Array.getElem?_eq_some_iff.mp hat).1 h.size

/-- Heaps made by the operations. Values that are given to an operation are of the heap. -/
inductive Made : Heap → Prop where
  | empty : Made .empty
  | build {h : Heap} {o : Object Value} : Made h → o.kind ≠ .bigInteger →
      (∀ v ∈ o.children, v.In h) → Made (h.build o).1
  | bigInteger {h : Heap} (negative : Bool) (limbs : List UInt64) : Made h →
      Made (h.bigInteger negative limbs).1
  | force {h h' : Heap} {v x : Value} {s : Settlement} : Made h → x.In h →
      h.force v x = .ok (h', s) → Made h'
  | resolveTask {h h' : Heap} {v x : Value} {s : Settlement} : Made h → x.In h →
      h.resolveTask v x = .ok (h', s) → Made h'
  | resolvePromise {h h' : Heap} {v x : Value} {s : Settlement} : Made h → x.In h →
      h.resolvePromise v x = .ok (h', s) → Made h'
  | setRef {h h' : Heap} {v x old : Value} : Made h → x.In h → h.setRef v x = .ok (h', old) →
      Made h'
  | setField {h h' : Heap} {v x old : Value} {index : Nat} : Made h → x.In h →
      h.setField v index x = .ok (h', old) → Made h'
  | load {ε : Type} {h h' : Heap} {bytes : Bytes} {declared : UInt64} {aligned mapped : Bool}
      {release : ε} {region : Region ε} {effects : List ε} : Made h →
      Region.load h bytes declared aligned mapped release = (.ok (h', region), effects) → Made h'

theorem object?_eq_some {v : Value} (hv : h.object? v = some (id, o)) :
    v = .object id ∧ h.object id = o := by
  cases v with
  | scalar payload => cases hv
  | object other =>
    obtain ⟨rfl, rfl⟩ := Prod.mk.inj (Option.some.inj hv)
    exact ⟨rfl, rfl⟩

section Cells
variable {h' : Heap} {v x old : Value} {s : Settlement} {index : Nat}

theorem WellFormed.put_cell (hw : h.WellFormed) (hchildren : o.children = [x]) (hx : x.In h)
    (ho : o.WellFormed) : (h.put id o).WellFormed := by
  refine hw.put ⟨ho, fun v hv => ?_⟩ id
  rw [hchildren, List.mem_singleton] at hv
  exact hv ▸ hx

theorem WellFormed.force (hw : h.WellFormed) (hx : x.In h) (hf : h.force v x = .ok (h', s)) :
    h'.WellFormed := by
  unfold Heap.force at hf
  split at hf
  · cases hf
    exact hw.put_cell rfl hx trivial
  · cases hf
    exact hw
  · cases hf

theorem WellFormed.resolveTask (hw : h.WellFormed) (hx : x.In h)
    (hr : h.resolveTask v x = .ok (h', s)) : h'.WellFormed := by
  unfold Heap.resolveTask at hr
  split at hr
  · cases hr
    exact hw.put_cell rfl hx trivial
  · cases hr
    exact hw
  · cases hr

theorem WellFormed.resolvePromise (hw : h.WellFormed) (hx : x.In h)
    (hr : h.resolvePromise v x = .ok (h', s)) : h'.WellFormed := by
  unfold Heap.resolvePromise at hr
  split at hr
  · cases hr
    exact hw.put_cell rfl hx trivial
  · cases hr
    exact hw
  · cases hr

theorem WellFormed.setRef (hw : h.WellFormed) (hx : x.In h) (hs : h.setRef v x = .ok (h', old)) :
    h'.WellFormed := by
  unfold Heap.setRef at hs
  split at hs
  · split at hs
    · cases hs
    · cases hs
      exact hw.put_cell rfl hx trivial
  · cases hs

theorem WellFormed.setField (hw : h.WellFormed) (hx : x.In h)
    (hs : h.setField v index x = .ok (h', old)) : h'.WellFormed := by
  unfold Heap.setField at hs
  split at hs
  · rename_i id tag fields scalars hobject
    split at hs
    · cases hs
    · split at hs
      · cases hs
        refine hw.put (o := .constructor tag (fields.set index x) scalars)
          ⟨trivial, fun child hchild => ?_⟩ id
        rcases Array.mem_or_eq_of_mem_set (Array.mem_def.mpr hchild) with hchild | rfl
        · have hadmits := (hw.admits id).2
          rw [(object?_eq_some hobject).2] at hadmits
          exact hadmits child (Array.mem_def.mp hchild)
        · exact hx
      · cases hs
  · cases hs

end Cells

theorem Made.wellFormed {h : Heap} (hm : h.Made) : h.WellFormed := by
  induction hm with
  | empty => exact ⟨nofun, nofun⟩
  | build _ hkind hin ih => exact ih.build hkind hin
  | bigInteger negative limbs _ ih => exact ih.bigInteger negative limbs
  | force _ hx hf ih => exact ih.force hx hf
  | resolveTask _ hx hr ih => exact ih.resolveTask hx hr
  | resolvePromise _ hx hr ih => exact ih.resolvePromise hx hr
  | setRef _ hx hs ih => exact ih.setRef hx hs
  | setField _ hx hs ih => exact ih.setField hx hs
  | load _ hload ih => exact ih.load hload

/-- What a program can ask of its heap: objects are made, changed and loaded. -/
inductive Update where
  | build (o : Object Value)
  | bigInteger (negative : Bool) (limbs : List UInt64)
  | force (v x : Value)
  | resolveTask (v x : Value)
  | resolvePromise (v x : Value)
  | setRef (v x : Value)
  | setField (v : Value) (index : Nat) (x : Value)
  | load (bytes : Bytes) (declared : UInt64) (aligned : Bool)

def after {ε α : Type} (h : Heap) : Except ε (Heap × α) → Heap
  | .ok (h', _) => h'
  | .error _ => h

def update (h : Heap) : Update → Heap
  | .build o => (h.build o).1
  | .bigInteger negative limbs => (h.bigInteger negative limbs).1
  | .force v x => h.after (h.force v x)
  | .resolveTask v x => h.after (h.resolveTask v x)
  | .resolvePromise v x => h.after (h.resolvePromise v x)
  | .setRef v x => h.after (h.setRef v x)
  | .setField v index x => h.after (h.setField v index x)
  | .load bytes declared aligned => h.after (Region.load h bytes declared aligned false ()).1

def Update.Fits (h : Heap) : Update → Prop
  | .build o => o.kind ≠ .bigInteger ∧ ∀ v ∈ o.children, v.In h
  | .force _ x | .resolveTask _ x | .resolvePromise _ x | .setRef _ x | .setField _ _ x => x.In h
  | .bigInteger .. | .load .. => True

theorem WellFormed.after {ε α : Type} (hw : h.WellFormed) {result : Except ε (Heap × α)}
    (hok : ∀ h' a, result = .ok (h', a) → h'.WellFormed) : (h.after result).WellFormed := by
  rcases result with e | ⟨h', a⟩
  · exact hw
  · exact hok h' a rfl

theorem WellFormed.update (hw : h.WellFormed) {u : Update} (hu : u.Fits h) :
    (h.update u).WellFormed := by
  cases u with
  | build o => exact hw.build hu.1 hu.2
  | bigInteger negative limbs => exact hw.bigInteger negative limbs
  | force v x => exact hw.after fun h' s hf => hw.force hu hf
  | resolveTask v x => exact hw.after fun h' s hr => hw.resolveTask hu hr
  | resolvePromise v x => exact hw.after fun h' s hr => hw.resolvePromise hu hr
  | setRef v x => exact hw.after fun h' old hs => hw.setRef hu hs
  | setField v index x => exact hw.after fun h' old hs => hw.setField hu hs
  | load bytes declared aligned => exact hw.after fun h' region hl => hw.load (Prod.ext hl rfl)

end Heap
end HeapImage
