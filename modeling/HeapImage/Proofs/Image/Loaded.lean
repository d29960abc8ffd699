import HeapImage.Heap.Cell
import HeapImage.Proofs.Bytes.Shows
import HeapImage.Proofs.Image.Resolution
import HeapImage.Region

/-!
# Loaded graphs

Nothing is assumed here about where an image comes from. Whatever can be got from its roots, one
step to a child after the other, is a scalar or the object of one of its records, and what such an
object exposes stands inside that record.
-/

namespace HeapImage
set_option autoImplicit false

/-- Values reached from a root by steps to a field, an element or the contents of a cell. -/
inductive Heap.Accessible (h : Heap) (root : Value) : Value → Prop where
  | root : Heap.Accessible h root root
  | child {v w : Value} {index : Nat} : Heap.Accessible h root v → h.child? v index = some w →
      Heap.Accessible h root w

def Kind.ofTag? : Nat → Option Kind
  | 0 => some .constructor
  | 1 => some .array
  | 2 => some .byteArray
  | 3 => some .string
  | 4 => some .thunk
  | 5 => some .task
  | 6 => some .promise
  | 7 => some .mutableRef
  | 8 => some .bigInteger
  | _ => none

namespace Record

def Covers (r : Record) (pos count : Nat) : Prop :=
  r.offset ≤ pos ∧ pos + count ≤ r.offset + r.size

/-- References are read from words of the record, one after the other. -/
def ExposesRefs (bytes : Bytes) (value : Nat → Value) (r : Record) (pos : Nat)
    (refs : List Value) : Prop :=
  r.Covers pos (8 * refs.length) ∧
    ∀ i (hi : i < refs.length), refs[i] = value (bytes.word (pos + 8 * i))

def ExposesBytes (bytes : Bytes) (r : Record) (pos : Nat) (data : Bytes) : Prop :=
  r.Covers pos data.size ∧ data = bytes.extract pos (pos + data.size)

/-- All that an object exposes is read from the record, and in full: counts and extra data are the
stored ones, and everything else comes from bytes of the record. -/
def Exposes (bytes : Bytes) (value : Nat → Value) (r : Record) : Object Value → Prop
  | .constructor tag fields scalars =>
    tag.toNat = bytes.extraAt r.offset ∧ fields.size = bytes.word (r.offset + 8) ∧
      scalars.size = bytes.word (r.offset + 16) ∧
      r.ExposesRefs bytes value (r.offset + 24) fields.toList ∧
      r.ExposesBytes bytes (r.offset + 24 + 8 * fields.size) scalars
  | .array elements =>
    elements.size = bytes.word (r.offset + 8) ∧
      r.ExposesRefs bytes value (r.offset + 16) elements.toList
  | .byteArray elemSize data =>
    elemSize.toNat = bytes.extraAt r.offset ∧ 0 < elemSize.toNat ∧
      data.size = bytes.word (r.offset + 8) * elemSize.toNat ∧
      r.ExposesBytes bytes (r.offset + 16) data
  | .string data =>
    data.size = bytes.word (r.offset + 8) ∧ r.ExposesBytes bytes (r.offset + 16) data
  | .thunk state => ∃ v, state = .forced v ∧ r.ExposesRefs bytes value (r.offset + 8) [v]
  | .task result => ∃ v, result = some v ∧ r.ExposesRefs bytes value (r.offset + 8) [v]
  | .promise result => ∃ v, result = some v ∧ r.ExposesRefs bytes value (r.offset + 8) [v]
  | .mutableRef contents => r.ExposesRefs bytes value (r.offset + 16) [contents]
  | .bigInteger x =>
    x.negative.toNat = bytes.extraAt r.offset ∧ x.limbs.length = bytes.word (r.offset + 16) ∧
      r.Covers (r.offset + 24) (8 * x.limbs.length) ∧
      ∀ i (hi : i < x.limbs.length), x.limbs[i].toNat = bytes.word (r.offset + 24 + 8 * i)

variable {bytes : Bytes} {base : Nat} {r : Record}

theorem size_extract_of_covers {pos count : Nat} (h : IsRecord bytes base r)
    (hcovers : r.Covers pos count) : (bytes.extract pos (pos + count)).size = count := by
  have hfits := h.fits
  have hend := hcovers.2
  rw [Array.size_extract]
  omega

theorem exposesBytes_extract {pos count : Nat} (h : IsRecord bytes base r)
    (hcovers : r.Covers pos count) :
    r.ExposesBytes bytes pos (bytes.extract pos (pos + count)) := by
  have hsize := size_extract_of_covers h hcovers
  exact ⟨by rwa [hsize], by rw [hsize]⟩

theorem exposesRefs_children (bytes : Bytes) (value : Nat → Value) {start count : Nat}
    (hs : r.shape.slotRange = (start, count)) (hcovers : r.Covers (r.offset + start) (8 * count)) :
    ((r.children bytes).map fun ref => value ref.word).size = count ∧
      r.ExposesRefs bytes value (r.offset + start)
        ((r.children bytes).map fun ref => value ref.word).toList := by
  have hrefs : ((r.children bytes).map fun ref => value ref.word).toList =
      (List.range count).map fun i => value (bytes.word (r.offset + start + 8 * i)) := by
    simp [children, slots, rawRef, hs, Function.comp_def]
  rw [← Array.length_toList, hrefs]
  refine ⟨by simp, by simpa using hcovers, ?_⟩
  simp

theorem exposesRefs_content {value : Nat → Value} {start : Nat} (hs : r.shape.slotRange.1 = start)
    (hcovers : r.Covers (r.offset + start) 8) :
    r.ExposesRefs bytes value (r.offset + start) [value (r.content bytes).word] := by
  refine ⟨hcovers, ?_⟩
  simp [content, rawRef, hs]

/-- The contents of a cell are read from its word, which must not be zero. -/
theorem exposes_object {raw : Object RawRef} (h : IsRecord bytes base r)
    (hfilled : r.Filled bytes) (hraw : r.object? bytes = some raw) (value : Nat → Value) :
    r.Exposes bytes value (raw.map fun ref => value ref.word) := by
  have hdescribed := h.described
  have hextent := h.extent_le
  cases hs : r.shape with
  | constructor tag numFields scalarSize =>
    simp only [object?, hs, Option.some.injEq] at hraw
    subst hraw
    rw [hs] at hdescribed hextent
    obtain ⟨_, hx, hle, hfields, hscalars⟩ := hdescribed
    simp only [Shape.extent] at hextent
    obtain ⟨hcount, hrefs⟩ := exposesRefs_children bytes value
      (by rw [hs]; rfl) (show r.Covers (r.offset + 24) (8 * numFields) from ⟨by omega, by omega⟩)
    have hcovers : r.Covers (r.offset + 24 + 8 * numFields) scalarSize :=
      ⟨by omega, by omega⟩
    refine ⟨?_, by rw [hcount, hfields], ?_, hrefs, ?_⟩
    · rw [hx, UInt16.toNat_ofNat', Nat.mod_eq_of_lt (by omega)]
    · rw [size_extract_of_covers h hcovers, hscalars]
    · rw [hcount]
      exact exposesBytes_extract h hcovers
  | array length =>
    simp only [object?, hs, Option.some.injEq] at hraw
    subst hraw
    rw [hs] at hdescribed hextent
    obtain ⟨_, _, hlength⟩ := hdescribed
    simp only [Shape.extent] at hextent
    obtain ⟨hcount, hrefs⟩ := exposesRefs_children bytes value
      (by rw [hs]; rfl) (show r.Covers (r.offset + 16) (8 * length) from ⟨by omega, by omega⟩)
    exact ⟨by rw [hcount, hlength], hrefs⟩
  | byteArray elemSize length =>
    simp only [object?, hs, Option.some.injEq] at hraw
    subst hraw
    rw [hs] at hdescribed hextent
    obtain ⟨_, hx, hpos, hle, hlength⟩ := hdescribed
    simp only [Shape.extent] at hextent
    have hcovers : r.Covers (r.offset + 16) (length * elemSize) := ⟨by omega, by omega⟩
    have helem : (UInt8.ofNat elemSize).toNat = elemSize := by
      rw [UInt8.toNat_ofNat', Nat.mod_eq_of_lt (by omega)]
    refine ⟨by rw [helem, hx], by omega, ?_, exposesBytes_extract h hcovers⟩
    rw [size_extract_of_covers h hcovers, hlength, helem]
  | string length =>
    simp only [object?, hs, Option.some.injEq] at hraw
    subst hraw
    rw [hs] at hdescribed hextent
    obtain ⟨_, _, hlength⟩ := hdescribed
    simp only [Shape.extent] at hextent
    have hcovers : r.Covers (r.offset + 16) length := ⟨by omega, by omega⟩
    exact ⟨by rw [size_extract_of_covers h hcovers, hlength], exposesBytes_extract h hcovers⟩
  | thunk | task | promise =>
    have hcontents := contents?_eq_some hfilled (by rw [hs]; rfl)
    simp only [object?, hs, hcontents, Option.some.injEq] at hraw
    subst hraw
    rw [hs] at hextent
    simp only [Shape.extent] at hextent
    exact ⟨_, rfl, exposesRefs_content (by rw [hs]; rfl) ⟨by omega, by omega⟩⟩
  | mutableRef =>
    simp only [object?, hs, Option.some.injEq] at hraw
    subst hraw
    rw [hs] at hextent
    simp only [Shape.extent] at hextent
    exact exposesRefs_content (by rw [hs]; rfl) ⟨by omega, by omega⟩
  | bigInteger sign length =>
    simp only [object?, hs, Option.some.injEq] at hraw
    subst hraw
    rw [hs] at hdescribed hextent
    obtain ⟨_, hx, hle, hlength, _, _⟩ := hdescribed
    simp only [Shape.extent] at hextent
    have hcount : (r.limbs bytes length).length = length := by simp [limbs]
    refine ⟨?_, by rw [hcount, hlength], ⟨by omega, by rw [hcount]; omega⟩, ?_⟩
    · have : sign = 0 ∨ sign = 1 := by omega
      rcases this with rfl | rfl <;> simp [hx]
    · intro i hi
      have := bytes.word_lt (r.offset + 24 + 8 * i)
      simp only [limbs, List.getElem_map, List.getElem_range, UInt64.toNat_ofNat']
      exact Nat.mod_eq_of_lt this
  | terminator => simp [object?, hs] at hraw

theorem kind_object {raw : Object RawRef} (h : IsRecord bytes base r)
    (hraw : r.object? bytes = some raw) :
    Kind.ofTag? (bytes.tagAt r.offset) = some raw.kind := by
  have hdescribed := h.described
  cases hs : r.shape <;> rw [hs] at hdescribed <;> rw [hdescribed.1]
  case terminator => simp [object?, hs] at hraw
  case thunk =>
    simp only [object?, hs] at hraw
    cases hcontents : r.contents? bytes <;> rw [hcontents] at hraw <;> cases hraw <;> rfl
  all_goals
    simp only [object?, hs, Option.some.injEq] at hraw
    subst hraw
    rfl

end Record

section Graphs
variable {bytes : Bytes} {base first : Nat} {records : List Record}

theorem getElem?_objects_imageGraph (number : Nat) :
    (imageGraph bytes base first records).objects[number]? =
      (objectRecords records)[number]?.bind fun r =>
        (r.object? bytes).map (Object.map fun ref => wordValue base first records ref.word) := by
  have hlist : ∀ rs : List Record, (rs.filterMap (Record.object? bytes))[number]? =
      (objectRecords rs)[number]?.bind (Record.object? bytes) := by
    intro rs
    induction rs generalizing number with
    | nil => simp [objectRecords]
    | cons r rest ih =>
      cases hr : r.isTerminator with
      | true =>
        rw [List.filterMap_cons_none (Record.object?_eq_none_iff.mpr hr), ih]
        simp [objectRecords, hr]
      | false =>
        obtain ⟨o, ho⟩ := Record.exists_object? bytes hr
        rw [List.filterMap_cons_some ho]
        cases number with
        | zero => simp [objectRecords, hr, ho]
        | succ number =>
          rw [List.getElem?_cons_succ, ih]
          simp [objectRecords, hr]
  simp only [imageGraph, List.getElem?_toArray, List.getElem?_map, hlist]
  cases (objectRecords records)[number]? <;> simp

theorem exists_getElem?_objects {number : Nat} {r : Record}
    (hr : (objectRecords records)[number]? = some r) :
    ∃ raw, r ∈ records ∧ r.object? bytes = some raw ∧
      (imageGraph bytes base first records).objects[number]? =
        some (raw.map fun ref => wordValue base first records ref.word) := by
  obtain ⟨hmem, hobject⟩ := mem_objectRecords.mp (List.mem_of_getElem? hr)
  obtain ⟨raw, hraw⟩ := Record.exists_object? bytes hobject
  refine ⟨raw, hmem, hraw, ?_⟩
  rw [getElem?_objects_imageGraph, hr, Option.bind_some, hraw, Option.map_some]

/-- Values that are scalars or numbered objects of the image. -/
def InImage (first : Nat) (records : List Record) (v : Value) : Prop :=
  (∃ payload, v = .scalar payload) ∨
    ∃ number r, v = .object (first + number) ∧ (objectRecords records)[number]? = some r

theorem inImage_wordValue {word : Nat} (h : IsReference base records word) :
    InImage first records (wordValue base first records word) := by
  unfold wordValue
  split
  · exact .inl ⟨_, rfl⟩
  · rename_i heven
    obtain ⟨r, hr, hobject, hword⟩ := h.resolve_left heven
    have hmem : word - base ∈ (objectRecords records).map Record.offset := by
      rw [show word - base = r.offset by omega]
      exact List.mem_map_of_mem (mem_objectRecords.mpr ⟨hr, hobject⟩)
    have hlt := List.idxOf_lt_length_of_mem hmem
    rw [List.length_map] at hlt
    exact .inr ⟨_, _, rfl, List.getElem?_eq_getElem hlt⟩

theorem inImage_of_mem_roots (h : IsImage bytes base records) {v : Value}
    (hv : v ∈ (imageGraph bytes base first records).roots) : InImage first records v := by
  simp only [imageGraph, List.mem_toArray, List.mem_map, List.mem_filterMap,
    Record.root?_eq_some_iff] at hv
  obtain ⟨_, ⟨r, hr, hroot, rfl⟩, rfl⟩ := hv
  exact inImage_wordValue (h.references r hr _ (by simp [Record.references_of_isTerminator hroot]))

theorem inImage_of_mem_children (h : IsImage bytes base records) {r : Record} (hr : r ∈ records)
    {raw : Object RawRef} (hraw : r.object? bytes = some raw) {v : Value}
    (hv : v ∈ (raw.map fun ref => wordValue base first records ref.word).children) :
    InImage first records v := by
  rw [Object.children_map, Record.children_of_object? (h.filled hr) hraw, List.map_map, List.mem_map] at hv
  obtain ⟨slot, hslot, rfl⟩ := hv
  rw [Function.comp_apply, Record.rawRef]
  exact inImage_wordValue (h.references r hr slot hslot)

theorem entry_adopt_add {h : Heap} {objects : Array (Object Value)} {number : Nat}
    {o : Object Value} (ho : objects[number]? = some o) :
    (h.adopt objects).entry (h.size + number) = ⟨o, true⟩ := by
  simp only [Heap.adopt, Heap.entry, Heap.size, Array.getD_eq_getD_getElem?]
  rw [Array.getElem?_append_right (Nat.le_add_right _ _), Nat.add_sub_cancel_left,
    Array.getElem?_map, ho]
  rfl

theorem mem_children_of_child? {h : Heap} {v w : Value} {index : Nat}
    (hw : h.child? v index = some w) : w ∈ h.children v := by
  cases v with
  | scalar payload => simp [Heap.child?, Heap.object?] at hw
  | object id =>
    simp only [Heap.child?, Heap.object?] at hw
    simp only [Heap.children]
    generalize h.object id = o at hw
    cases o with
    | constructor tag fields scalars =>
      simpa [Object.children] using Array.mem_of_getElem? hw
    | array elements => simpa [Object.children] using Array.mem_of_getElem? hw
    | _ => exact List.mem_of_head? hw

theorem inImage_of_accessible {h : Heap} {root v : Value} (himage : IsImage bytes base records)
    (hroot : root ∈ (imageGraph bytes base h.size records).roots)
    (hv : (h.adopt (imageGraph bytes base h.size records).objects).Accessible root v) :
    InImage h.size records v := by
  induction hv with
  | root => exact inImage_of_mem_roots himage hroot
  | @child v w index _ hw ih =>
    have hchild := mem_children_of_child? hw
    rcases ih with ⟨payload, rfl⟩ | ⟨number, r, rfl, hr⟩
    · cases hchild
    · obtain ⟨raw, hmem, hraw, hobject⟩ := exists_getElem?_objects hr
      rw [Heap.children, Heap.object, entry_adopt_add hobject] at hchild
      exact inImage_of_mem_children himage hmem hraw hchild

section Loading
variable {ε : Type} {h h' : Heap} {declared : UInt64} {aligned mapped : Bool} {release : ε}
variable {region : Region ε} {effects : List ε}
variable (hload : Region.load h bytes declared aligned mapped release =
  (.ok (h', region), effects))
include hload

theorem exists_adopt_of_load : ∃ records, IsImage bytes declared.toNat records ∧
    h' = h.adopt (imageGraph bytes declared.toNat h.size records).objects ∧
    region.roots = (imageGraph bytes declared.toNat h.size records).roots := by
  unfold Region.load at hload
  dsimp only at hload
  split at hload
  · cases hload
  · rename_i g hg
    cases hload
    obtain ⟨records, himage, rfl⟩ := isImage_of_load hg
    exact ⟨records, himage, rfl, rfl⟩

/-- What is reached from the roots of a loaded image is read from its records. -/
theorem exists_entry_of_load : ∃ records, IsImage bytes declared.toNat records ∧
    ∀ root ∈ region.roots, ∀ v, h'.Accessible root v → (∃ payload, v = .scalar payload) ∨
      ∃ number r raw, v = .object (h.size + number) ∧
        (objectRecords records)[number]? = some r ∧ r ∈ records ∧ r.object? bytes = some raw ∧
        h.size + number < h'.size ∧ h'.entry (h.size + number) =
          ⟨raw.map fun ref => wordValue declared.toNat h.size records ref.word, true⟩ := by
  obtain ⟨records, himage, rfl, hroots⟩ := exists_adopt_of_load hload
  refine ⟨records, himage, fun root hroot v hv => ?_⟩
  rw [hroots] at hroot
  rcases inImage_of_accessible himage hroot hv with hscalar | ⟨number, r, rfl, hr⟩
  · exact .inl hscalar
  · obtain ⟨raw, hmem, hraw, hobject⟩ := exists_getElem?_objects hr
    refine .inr ⟨number, r, raw, rfl, hr, hmem, hraw, ?_, entry_adopt_add hobject⟩
    rw [Heap.size_adopt]
    exact Nat.add_lt_add_left (Array.getElem?_eq_some_iff.mp hobject).1 h.size

theorem exists_object?_of_load : ∃ records, IsImage bytes declared.toNat records ∧
    ∀ root ∈ region.roots, ∀ id, h'.Accessible root (.object id) → id < h'.size ∧
      ∃ r ∈ records, ∃ raw, r.object? bytes = some raw ∧ h'.object id =
        raw.map fun ref => wordValue declared.toNat h.size records ref.word := by
  obtain ⟨records, himage, hall⟩ := exists_entry_of_load hload
  refine ⟨records, himage, fun root hroot id hid => ?_⟩
  rcases hall root hroot _ hid with ⟨_, hscalar⟩ | ⟨number, r, raw, heq, _, hr, hraw, hlt, hentry⟩
  · cases hscalar
  · obtain rfl := Value.object.inj heq
    exact ⟨hlt, r, hr, raw, hraw, congrArg Heap.Entry.object hentry⟩

end Loading

/-- Whatever is reached from the roots of a loaded image, if it is no scalar, is a compacted object
with a record of its own in the image, has the kind that the tag of the record stands for, and
exposes just what the record holds. -/
theorem accessible_of_load {ε : Type} {h h' : Heap} {bytes : Bytes} {declared : UInt64}
    {aligned mapped : Bool} {release : ε} {region : Region ε} {effects : List ε}
    (hload : Region.load h bytes declared aligned mapped release =
      (.ok (h', region), effects)) :
    ∃ records, IsImage bytes declared.toNat records ∧
      ∀ root ∈ region.roots, ∀ v, h'.Accessible root v →
        (∃ payload, v = .scalar payload) ∨
        ∃ number r, v = .object (h.size + number) ∧ (objectRecords records)[number]? = some r ∧
          h'.isCompacted v = true ∧ Kind.ofTag? (bytes.tagAt r.offset) = some (h'.kind v) ∧
          r.Exposes bytes (wordValue declared.toNat h.size records)
            (h'.object (h.size + number)) := by
  obtain ⟨records, himage, hall⟩ := exists_entry_of_load hload
  refine ⟨records, himage, fun root hroot v hv => ?_⟩
  rcases hall root hroot v hv with hscalar | ⟨number, r, raw, rfl, hr, hmem, hraw, _, hentry⟩
  · exact .inl hscalar
  have hrecord := himage.tiling.isRecord r hmem
  have hfilled := himage.filled hmem
  refine .inr ⟨number, r, rfl, hr, ?_, ?_, ?_⟩
  · rw [Heap.isCompacted, hentry]
  · rw [Heap.kind, Heap.object, hentry, Object.kind_map]
    exact Record.kind_object hrecord hraw
  · rw [Heap.object, hentry]
    exact Record.exposes_object hrecord hfilled hraw _

end Graphs

def knotHeap : Heap :=
  ⟨#[⟨.constructor 7 #[.object 0, .object 1] #[1, 2, 3], true⟩, ⟨.string #[104, 105], true⟩]⟩

set_option maxRecDepth 4096 in
theorem load_knot_region : Region.load .empty knot 4096 true false () =
    (.ok (knotHeap, ⟨104, 4096, false, #[.object 0], 0, some ⟨.wrapped (.bare ())⟩⟩), []) := by
  cbv

/-- The string is reached from the root in two steps, and its bytes stand in the second record. -/
theorem knot_string_exposed : ∃ records, IsImage knot 4096 records ∧
    ∃ r, (objectRecords records)[1]? = some r ∧
      r.Exposes knot (wordValue 4096 0 records) (.string #[104, 105]) := by
  obtain ⟨records, himage, hall⟩ := accessible_of_load load_knot_region
  refine ⟨records, himage, ?_⟩
  have hself : knotHeap.child? (.object 0) 0 = some (.object 0) := rfl
  have hother : knotHeap.child? (.object 0) 1 = some (.object 1) := rfl
  have hstring : knotHeap.Accessible (.object 0) (.object 1) := .child (.child .root hself) hother
  rcases hall _ (by simp) _ hstring with ⟨_, hscalar⟩ | ⟨number, r, hnumber, hr, _, _, hexposes⟩
  · cases hscalar
  · have hone : number = 1 := by
      have := Value.object.inj hnumber
      simp only [Heap.size, Heap.empty, List.size_toArray, List.length_nil] at this
      omega
    subst hone
    exact ⟨r, hr, hexposes⟩

end HeapImage
