import HeapImage.Proofs.Image.Layout
import HeapImage.Proofs.Image.Loaded

/-!
# Reading layouts back

The bytes of a layout are an image, and the reader finds the entries again: each where it was put,
with the shape and the data that it had, and with the words that stand for its references.
-/

namespace HeapImage
set_option autoImplicit false

/-- Entries that an image can hold: their data are well-formed, and all their references count. -/
def Entry.Valid : Entry → Prop
  | .object _ o => o.WellFormed ∧ o.Settled
  | .terminator _ => True

def Entry.record (pos : Nat) (e : Entry) : Record := ⟨pos, e.size, e.shape⟩

def recordsOf (pos : Nat) (layout : List Entry) : List Record :=
  (placed pos layout).map fun p => p.2.record p.1

def rootsOf (layout : List Entry) : List Value :=
  layout.filterMap fun e =>
    match e with
    | .object .. => none
    | .terminator root => some root

theorem rootsOf_append (layout rest : List Entry) :
    rootsOf (layout ++ rest) = rootsOf layout ++ rootsOf rest :=
  List.filterMap_append

def ownersOf (layout : List Entry) : List Nat :=
  layout.filterMap fun e =>
    match e with
    | .object id _ => some id
    | .terminator _ => none

theorem mem_ownersOf {layout : List Entry} {id : Nat} {o : Object Value}
    (he : .object id o ∈ layout) : id ∈ ownersOf layout :=
  List.mem_filterMap.mpr ⟨_, he, rfl⟩

theorem ownersOf_append (layout rest : List Entry) :
    ownersOf (layout ++ rest) = ownersOf layout ++ ownersOf rest :=
  List.filterMap_append

def objectsOf (layout : List Entry) : List (Object Value) :=
  layout.filterMap fun e =>
    match e with
    | .object _ o => some o
    | .terminator _ => none

theorem mem_objectsOf {layout : List Entry} {o : Object Value} (pos : Nat) :
    o ∈ objectsOf layout ↔ ∃ off owner, (off, .object owner o) ∈ placed pos layout := by
  rw [objectsOf, List.mem_filterMap]
  constructor
  · rintro ⟨e, he, ho⟩
    obtain ⟨off, hoff⟩ := exists_mem_placed pos he
    cases e with
    | object owner o' =>
      cases ho
      exact ⟨off, owner, hoff⟩
    | terminator root => cases ho
  · rintro ⟨off, owner, hmem⟩
    exact ⟨_, mem_of_mem_placed hmem, rfl⟩

section Entries
variable {bytes : Bytes} {base pos : Nat} {f : Nat → Nat} {id : Nat} {o : Object Value}

theorem tagAt_of_half {tag extra : Nat} (h : bytes.half (pos + 4) = 16 * extra + tag)
    (htag : tag < 16) : bytes.tagAt pos = tag ∧ bytes.extraAt pos = extra := by
  unfold Bytes.tagAt Bytes.extraAt
  omega

theorem describedAt_object (hw : o.WellFormed) (ho : o.Settled)
    (hs : bytes.Shows pos ((Entry.object id o).encode base f pos)) (hlimit : o.extent < 2 ^ 64) :
    o.shape.DescribedAt bytes base pos := by
  obtain ⟨hheader, _, htail, hpadding⟩ := Entry.shows_parts hs
  rw [Entry.header, Bytes.shows_append, Bytes.shows_append, length_leBytes, length_leBytes]
    at hheader
  obtain ⟨_, hhalf, hcounts⟩ := hheader
  have htags := tagAt_of_half (hhalf.half o.header_lt) (by cases o <;> simp [Object.tagNumber])
  cases o with
  | constructor tag fields scalars =>
    have := tag.toNat_lt
    simp only [Object.extent] at hlimit
    rw [Object.counts, Bytes.shows_append, length_leBytes] at hcounts
    exact ⟨htags.1, htags.2, by omega, hcounts.1.word (by omega), hcounts.2.word (by omega)⟩
  | array elements =>
    simp only [Object.extent] at hlimit
    exact ⟨htags.1, htags.2, hcounts.word (by omega)⟩
  | byteArray elemSize data =>
    have := elemSize.toNat_lt
    have hpos : elemSize.toNat ≠ 0 := fun hzero => hw.1 (UInt8.toNat_inj.mp hzero)
    have hcount := Nat.div_le_self data.size elemSize.toNat
    simp only [Object.extent] at hlimit
    simp only [Entry.tail, Object.tail, Object.contents, Bytes.shows_append] at htail
    exact ⟨htags.1, htags.2, by omega, by omega, htail.1.word (by omega)⟩
  | string data =>
    simp only [Object.extent] at hlimit
    simp only [Entry.tail, Object.tail, Object.contents, Bytes.shows_append] at htail
    exact ⟨htags.1, htags.2, htail.1.word (by omega)⟩
  | bigInteger value =>
    have hsign := value.negative.toNat_le
    simp only [Object.extent] at hlimit
    simp only [Entry.tail, Object.tail, Object.contents, Bytes.shows_append, length_leBytes]
      at htail
    refine ⟨htags.1, htags.2, hsign, htail.2.1.word (by omega), htail.1.field, fun hzero => ?_⟩
    rw [hw (List.length_eq_zero_iff.mp hzero)]
    rfl
  | thunk state =>
    cases state with
    | waiting closure => exact ho.elim
    | forced value =>
      have hclosure : bytes.Shows (pos + 16) (List.replicate 8 0) := by
        simpa only [Entry.refsAt, Object.slotsAt, Entry.refs, Object.children,
          List.length_singleton, Entry.tailSize, Object.tailSize, Entry.size, Object.extent,
          roundUp] using hpadding
      have hzero : List.replicate 8 0 = leBytes 8 0 := by decide
      rw [hzero] at hclosure
      exact ⟨htags.1, htags.2, hclosure.word (by omega)⟩
  | task | promise | mutableRef => exact htags

theorem map_children_record {α : Type} (bytes : Bytes) (r : Record) (refs : List Value)
    {value : Nat → α} {g : Value → α} {start : Nat}
    (hrange : r.shape.slotRange = (start, refs.length))
    (h : ∀ i v, refs[i]? = some v → value (bytes.word (r.offset + start + 8 * i)) = g v) :
    (r.children bytes).map (fun ref => value ref.word) = refs.toArray.map g := by
  have hlist : (List.range refs.length).map
      (fun i => value (bytes.word (r.offset + start + 8 * i))) = refs.map g := by
    apply List.ext_getElem (by simp)
    intro i hi _
    rw [List.length_map, List.length_range] at hi
    rw [List.getElem_map, List.getElem_map, List.getElem_range,
      h i _ (List.getElem?_eq_getElem hi)]
  have hright : refs.toArray.map g = (refs.map g).toArray := by simp
  rw [hright, ← hlist]
  simp [Record.children, Record.slots, Record.rawRef, hrange, Function.comp_def]

theorem limbs_of_shows {limbs : List UInt64} {start : Nat}
    (hs : bytes.Shows start (limbs.flatMap fun limb => leBytes 8 limb.toNat)) :
    (List.range limbs.length).map (fun i => UInt64.ofNat (bytes.word (start + 8 * i))) = limbs := by
  induction limbs generalizing start with
  | nil => rfl
  | cons limb rest ih =>
    rw [List.flatMap_cons, Bytes.shows_append, length_leBytes] at hs
    rw [List.length_cons, List.range_succ_eq_map, List.map_cons, List.map_map, Nat.mul_zero,
      Nat.add_zero, hs.1.word limb.toNat_lt, UInt64.ofNat_toNat]
    congr 1
    refine Eq.trans (List.map_congr_left fun i _ => ?_) (ih hs.2)
    rw [Function.comp_apply, show start + 8 * (i + 1) = start + 8 + 8 * i by omega]

/-- The object that is read is the one that was written, with its references replaced. -/
theorem object?_record {α : Type} {value : Nat → α} {g : Value → α} (hw : o.WellFormed)
    (ho : o.Settled) (hs : bytes.Shows pos ((Entry.object id o).encode base f pos))
    (hfilled : ((Entry.object id o).record pos).Filled bytes)
    (hg : ∀ slot v, (slot, v) ∈ (Entry.object id o).slots pos → value (bytes.word slot) = g v) :
    ∃ raw, ((Entry.object id o).record pos).object? bytes = some raw ∧
      (raw.map fun ref => value ref.word) = o.map g := by
  obtain ⟨_, _, htail, _⟩ := Entry.shows_parts hs
  have hword : ∀ i v, o.children[i]? = some v →
      value (bytes.word (pos + o.slotsAt + 8 * i)) = g v := by
    intro i v hv
    exact hg _ v (Entry.mem_slots.mpr ⟨i, hv, rfl⟩)
  cases o with
  | constructor tag fields scalars =>
    have htag : UInt16.ofNat tag.toNat = tag := UInt16.ofNat_toNat
    have hfields := map_children_record bytes
      ((Entry.object id (.constructor tag fields scalars)).record pos) fields.toList rfl hword
    rw [Array.toArray_toList] at hfields
    have hscalars : bytes.extract (pos + 24 + 8 * fields.size)
        (pos + 24 + 8 * fields.size + scalars.size) = scalars := htail.extract
    refine ⟨_, rfl, ?_⟩
    rw [Object.map, Object.map, hfields]
    exact congr (congrArg (fun t => Object.constructor t (fields.map g)) htag) hscalars
  | array elements =>
    have helements := map_children_record bytes
      ((Entry.object id (.array elements)).record pos) elements.toList rfl hword
    refine ⟨_, rfl, ?_⟩
    rw [Object.map, Object.map, helements, Array.toArray_toList]
  | byteArray elemSize data =>
    have hsize : UInt8.ofNat elemSize.toNat = elemSize := UInt8.ofNat_toNat
    have hlength := Nat.div_mul_cancel (Nat.dvd_of_mod_eq_zero hw.2)
    simp only [Entry.tail, Object.tail, Object.contents, Bytes.shows_append, length_leBytes]
      at htail
    have hdata : bytes.extract (pos + 16) (pos + 16 + data.size) = data := htail.2.extract
    rw [← hlength] at hdata
    refine ⟨_, rfl, ?_⟩
    rw [Object.map, Object.map]
    exact congr (congrArg Object.byteArray hsize) hdata
  | string data =>
    simp only [Entry.tail, Object.tail, Object.contents, Bytes.shows_append, length_leBytes]
      at htail
    have hdata : bytes.extract (pos + 16) (pos + 16 + data.size) = data := htail.2.extract
    exact ⟨_, rfl, congrArg Object.string hdata⟩
  | bigInteger value =>
    simp only [Entry.tail, Object.tail, Object.contents, Bytes.shows_append, length_leBytes]
      at htail
    have hsign : (value.negative.toNat == 1) = value.negative := by cases value.negative <;> rfl
    have hlimbs : (List.range value.limbs.length).map
        (fun i => UInt64.ofNat (bytes.word (pos + 24 + 8 * i))) = value.limbs :=
      limbs_of_shows htail.2.2
    refine ⟨_, rfl, ?_⟩
    rw [Object.map, Object.map]
    exact congrArg Object.bigInteger (congr (congrArg LimbInteger.mk hsign) hlimbs)
  | thunk state =>
    cases state with
    | waiting closure => exact ho.elim
    | forced v =>
      exact ⟨_, Record.object?_of_thunk rfl hfilled,
        congrArg (Object.thunk ∘ .forced) (hword 0 v rfl)⟩
  | task result =>
    cases result with
    | none => exact ho.elim
    | some v =>
      exact ⟨_, Record.object?_of_task rfl hfilled,
        congrArg (Object.task ∘ some) (hword 0 v rfl)⟩
  | promise result =>
    cases result with
    | none => exact ho.elim
    | some v =>
      exact ⟨_, Record.object?_of_promise rfl hfilled,
        congrArg (Object.promise ∘ some) (hword 0 v rfl)⟩
  | mutableRef contents => exact ⟨_, rfl, congrArg Object.mutableRef (hword 0 contents rfl)⟩

theorem shows_wordsFrom {count i : Nat} (hs : bytes.Shows pos (wordsFrom f pos count))
    (hi : i < count) : bytes.Shows (pos + 8 * i) (leBytes 8 (f (pos + 8 * i))) := by
  induction count generalizing pos i with
  | zero => omega
  | succ count ih =>
    rw [wordsFrom, Bytes.shows_append, length_leBytes] at hs
    cases i with
    | zero => exact hs.1
    | succ i =>
      have := ih hs.2 (show i < count by omega)
      rwa [show pos + 8 + 8 * i = pos + 8 * (i + 1) by omega] at this

theorem word_of_mem_slots {e : Entry} {slot : Nat} {v : Value}
    (hs : bytes.Shows pos (e.encode base f pos)) (hv : (slot, v) ∈ e.slots pos)
    (hlt : f slot < 2 ^ 64) : bytes.word slot = f slot := by
  obtain ⟨i, hi, rfl⟩ := Entry.mem_slots.mp hv
  obtain ⟨hi, _⟩ := List.getElem?_eq_some_iff.mp hi
  exact (shows_wordsFrom (Entry.shows_parts hs).2.1 hi).word hlt

theorem references_record (pos : Nat) {e : Entry} (he : e.Valid) :
    (e.record pos).shape.references pos = (e.slots pos).map Prod.fst := by
  have hrange : ∀ (refs : List Value) (start : Nat),
      (List.range refs.length).map (fun i => start + 8 * i) =
        (refs.mapIdx fun i v => (start + 8 * i, v)).map Prod.fst := by
    intro refs start
    apply List.ext_getElem (by simp)
    intro i _ _
    simp
  cases e with
  | terminator root => rfl
  | object id o =>
    cases o with
    | constructor tag fields scalars => exact hrange fields.toList (pos + 24)
    | array elements => exact hrange elements.toList (pos + 16)
    | byteArray | string | bigInteger => rfl
    | thunk state =>
      cases state with
      | waiting closure => exact he.2.elim
      | forced v => rfl
    | task result | promise result =>
      cases result with
      | none => exact he.2.elim
      | some v => rfl
    | mutableRef contents => rfl

theorem isRecord_record {e : Entry} (he : e.Valid) (hs : bytes.Shows pos (e.encode base f pos))
    (hfits : pos + e.size ≤ bytes.size) (hlimit : bytes.size < 2 ^ 64) :
    IsRecord bytes base (e.record pos) := by
  cases e with
  | object id o =>
    have hextent := le_roundUp o.extent
    simp only [Entry.size] at hfits
    refine ⟨describedAt_object he.1 he.2 hs (by omega), ?_, hfits⟩
    rw [Entry.record, Entry.shape, Object.extent_shape he.1]
    rfl
  | terminator root =>
    obtain ⟨hheader, _⟩ := Entry.shows_parts hs
    rw [Entry.header, Bytes.shows_append, length_leBytes] at hheader
    have hhalf : bytes.half (pos + 4) = 16 * 0 + 15 := hheader.2.half (by decide)
    refine ⟨tagAt_of_half hhalf (by decide), ?_, hfits⟩
    simp [Entry.record, Entry.size, Entry.shape, Shape.extent, roundUp]

end Entries

section Images
variable {bytes : Bytes} {base first pos off : Nat} {f : Nat → Nat} {layout : List Entry}
variable {e : Entry}

theorem shows_of_mem_placed (hs : bytes.Shows pos (encodeAll base f pos layout))
    (he : (off, e) ∈ placed pos layout) : bytes.Shows off (e.encode base f off) := by
  induction layout generalizing pos with
  | nil => cases he
  | cons first rest ih =>
    rw [encodeAll_cons, Bytes.shows_append, Entry.length_encode] at hs
    rcases List.mem_cons.mp he with heq | hrest
    · cases heq
      exact hs.1
    · exact ih hs.2 hrest

theorem tiling_of_shows (hs : bytes.Shows pos (encodeAll base f pos layout))
    (hend : pos + totalSize layout = bytes.size) (hlimit : bytes.size < 2 ^ 64)
    (hvalid : ∀ e ∈ layout, e.Valid) : Tiling bytes base pos (recordsOf pos layout) := by
  induction layout generalizing pos with
  | nil =>
    rw [totalSize_nil, Nat.add_zero] at hend
    subst hend
    exact .done
  | cons e rest ih =>
    obtain ⟨he, hrest⟩ := List.forall_mem_cons.mp hvalid
    rw [encodeAll_cons, Bytes.shows_append, Entry.length_encode] at hs
    rw [totalSize_cons] at hend
    have hrecord := isRecord_record he hs.1 (by omega) hlimit
    have htiling := ih hs.2 (by omega) hrest
    exact .cons hrecord htiling

theorem mem_recordsOf {r : Record} :
    r ∈ recordsOf pos layout ↔ ∃ off e, (off, e) ∈ placed pos layout ∧ e.record off = r := by
  simp only [recordsOf, List.mem_map, Prod.exists]

theorem exists_getLast?_recordsOf (pos : Nat) (h : layout.getLast? = some e) :
    ∃ off, (recordsOf pos layout).getLast? = some (e.record off) := by
  obtain ⟨initial, rfl⟩ := List.getLast?_eq_some_iff.mp h
  refine ⟨pos + totalSize initial, ?_⟩
  rw [recordsOf, placed_append, List.map_append]
  exact List.getLast?_concat

theorem isTerminator_object (pos id : Nat) (o : Object Value) :
    ((Entry.object id o).record pos).isTerminator = false := by
  cases o <;> rfl

/-- The word stands for the value: it is a scalar, or refers to an object of the layout. -/
def Refers (base : Nat) (layout : List Entry) (word : Nat) : Value → Prop
  | .scalar payload => word = scalarWord payload
  | .object _ =>
    ∃ off owner o, (off, .object owner o) ∈ placed headerSize layout ∧ word = base + off

theorem isReference_of_refers {word : Nat} {v : Value} (h : Refers base layout word v) :
    IsReference base (recordsOf headerSize layout) word := by
  cases v with
  | scalar payload =>
    left
    simp only [Refers, scalarWord] at h
    omega
  | object id =>
    obtain ⟨off, owner, o, hmem, hword⟩ := h
    right
    exact ⟨_, mem_recordsOf.mpr ⟨off, _, hmem, rfl⟩, isTerminator_object off owner o, hword⟩

theorem header_of_toList {rest : List UInt8}
    (hbytes : bytes.toList = leBytes 8 magic ++ (leBytes 8 base ++ rest)) (hbase : base < 2 ^ 64) :
    headerSize ≤ bytes.size ∧ bytes.word 0 = magic ∧ bytes.word 8 = base := by
  have hmagic := Bytes.shows_of_toList (hbytes.trans (List.nil_append _).symm)
  have hword := Bytes.shows_of_toList hbytes
  rw [length_leBytes] at hword
  have hsize := hword.le_size (by rw [leBytes]; exact List.cons_ne_nil _ _)
  rw [length_leBytes] at hsize
  exact ⟨hsize, hmagic.word (by decide), hword.word hbase⟩

variable (hbytes : bytes.toList = imageBytes base f layout)
include hbytes

theorem size_eq_of_toList : bytes.size = headerSize + totalSize layout := by
  rw [← Array.length_toList, hbytes, imageBytes, List.length_append, List.length_append,
    length_leBytes, length_leBytes, length_encodeAll, headerSize]
  omega

theorem shows_layout : bytes.Shows headerSize (encodeAll base f headerSize layout) := by
  have hsplit : bytes.toList = (leBytes 8 magic ++ leBytes 8 base) ++
      (encodeAll base f headerSize layout ++ []) := by
    rw [hbytes, imageBytes, List.append_nil, List.append_assoc]
  have hshows := Bytes.shows_of_toList hsplit
  rwa [List.length_append, length_leBytes, length_leBytes] at hshows

theorem Refers.lt {word : Nat} {v : Value} (hlimit : base + bytes.size < 2 ^ 64)
    (h : Refers base layout word v) : word < 2 ^ 64 := by
  cases v with
  | scalar payload =>
    have := payload.isLt
    simp only [Refers, scalarWord, scalarLimit] at h this
    omega
  | object id =>
    obtain ⟨off, owner, o, hmem, rfl⟩ := h
    have := bounds_of_mem_placed hmem
    have := (Entry.object owner o).le_size
    have := size_eq_of_toList hbytes
    omega

theorem word_of_mem_slotsFrom {slot : Nat} {v : Value} (hlimit : base + bytes.size < 2 ^ 64)
    (hv : (slot, v) ∈ slotsFrom headerSize layout) (hf : Refers base layout (f slot) v) :
    bytes.word slot = f slot := by
  obtain ⟨off, e, he, hslot⟩ := mem_slotsFrom.mp hv
  exact word_of_mem_slots (shows_of_mem_placed (shows_layout hbytes) he) hslot
    (hf.lt hbytes hlimit)

section References
variable (hvalid : ∀ e ∈ layout, e.Valid)
variable (hrefs : ∀ slot v, (slot, v) ∈ slotsFrom headerSize layout →
  Refers base layout (f slot) v)
include hvalid hrefs

theorem isReference_layout (hlimit : base + bytes.size < 2 ^ 64) :
    ∀ r ∈ recordsOf headerSize layout, ∀ slot ∈ r.shape.references r.offset,
      IsReference base (recordsOf headerSize layout) (bytes.word slot) := by
  intro r hr slot hslot
  obtain ⟨off, e, he, rfl⟩ := mem_recordsOf.mp hr
  have hslots := references_record off (hvalid e (mem_of_mem_placed he))
  rw [show (e.record off).offset = off from rfl, hslots, List.mem_map] at hslot
  obtain ⟨⟨slot, v⟩, hv, rfl⟩ := hslot
  have hmem := mem_slotsFrom.mpr ⟨off, e, he, hv⟩
  have hrefers := hrefs slot v hmem
  rw [word_of_mem_slotsFrom hbytes hlimit hmem hrefers]
  exact isReference_of_refers hrefers

theorem filled_layout (hlimit : layout ≠ [] → base + bytes.size < 2 ^ 64) :
    ∀ r ∈ recordsOf headerSize layout, r.Filled bytes := by
  intro r hr
  obtain ⟨off, e, he, _⟩ := mem_recordsOf.mp hr
  have hfits := hlimit (List.ne_nil_of_mem (mem_of_mem_placed he))
  have htiling : Tiling bytes base headerSize (recordsOf headerSize layout) :=
    tiling_of_shows (shows_layout hbytes) (size_eq_of_toList hbytes).symm (by omega) hvalid
  exact htiling.filled (isReference_layout hbytes hvalid hrefs hfits r hr)

end References

/-- The bytes of a complete layout are an image. -/
theorem isImage_of_layout (hbase : base % 8 = 0) (hlimit : base + bytes.size < 2 ^ 64)
    (hvalid : ∀ e ∈ layout, e.Valid)
    (hlast : ∃ root, layout.getLast? = some (.terminator root))
    (hrefs : ∀ slot v, (slot, v) ∈ slotsFrom headerSize layout → Refers base layout (f slot) v) :
    IsImage bytes base (recordsOf headerSize layout) := by
  have hsize := size_eq_of_toList hbytes
  have hshows := shows_layout hbytes
  have heven := totalSize_mod layout
  obtain ⟨hheader, hmagic, hword⟩ := header_of_toList hbytes (by omega)
  refine ⟨by rw [hsize, headerSize]; omega, hheader, hmagic, hword, hbase,
    tiling_of_shows hshows hsize.symm (by omega) hvalid, ?_, ?_⟩
  · obtain ⟨root, hroot⟩ := hlast
    obtain ⟨off, hoff⟩ := exists_getLast?_recordsOf headerSize hroot
    exact ⟨_, hoff, rfl⟩
  · exact isReference_layout hbytes hvalid hrefs hlimit

end Images

/-- The number of the object at an offset among the objects of a layout. -/
def recordNumber (layout : List Entry) (off : Nat) : Nat :=
  ((objectRecords (recordsOf headerSize layout)).map Record.offset).idxOf off

section Numbers
variable {layout : List Entry} {base first off id : Nat} {o : Object Value}

theorem offset_mod {pos : Nat} {e : Entry} (h : (off, e) ∈ placed pos layout) (hpos : pos % 8 = 0) :
    off % 8 = 0 := by
  induction layout generalizing pos with
  | nil => cases h
  | cons first rest ih =>
    have hmod := first.size_mod
    rcases List.mem_cons.mp h with heq | hrest
    · cases heq
      exact hpos
    · exact ih hrest (by omega)

theorem getElem?_objectRecords (h : (off, .object id o) ∈ placed headerSize layout) :
    (objectRecords (recordsOf headerSize layout))[recordNumber layout off]? =
      some ((Entry.object id o).record off) := by
  have hobject := isTerminator_object off id o
  have hmem : off ∈ (objectRecords (recordsOf headerSize layout)).map Record.offset :=
    List.mem_map.mpr ⟨_, mem_objectRecords.mpr ⟨mem_recordsOf.mpr ⟨off, _, h, rfl⟩, hobject⟩, rfl⟩
  have hlt := List.idxOf_lt_length_of_mem hmem
  have hat := List.getElem_idxOf hlt
  rw [List.length_map] at hlt
  rw [List.getElem_map] at hat
  rw [recordNumber, List.getElem?_eq_getElem hlt]
  obtain ⟨off', e, he, hrecord⟩ :=
    mem_recordsOf.mp (mem_objectRecords.mp (List.getElem_mem hlt)).1
  rw [← hrecord] at hat ⊢
  have hoff : off' = off := hat
  subst hoff
  rw [eq_of_mem_placed he h]

theorem recordNumber_inj {off' id' : Nat} {o' : Object Value}
    (h : (off, .object id o) ∈ placed headerSize layout)
    (h' : (off', .object id' o') ∈ placed headerSize layout)
    (heq : recordNumber layout off = recordNumber layout off') : off = off' := by
  have hat := getElem?_objectRecords h
  rw [heq, getElem?_objectRecords h'] at hat
  exact (congrArg Record.offset (Option.some.inj hat)).symm

theorem wordValue_scalarWord (records : List Record) (payload : Fin scalarLimit) :
    wordValue base first records (scalarWord payload) = .scalar payload := by
  have hpayload : (2 * payload.val + 1) / 2 % scalarLimit = payload.val := by
    rw [show (2 * payload.val + 1) / 2 = payload.val by omega, Nat.mod_eq_of_lt payload.isLt]
  rw [wordValue, scalarWord, if_pos (by omega)]
  exact congrArg Value.scalar (Fin.ext hpayload)

theorem wordValue_offset {e : Entry} (hbase : base % 8 = 0)
    (h : (off, e) ∈ placed headerSize layout) :
    wordValue base first (recordsOf headerSize layout) (base + off) =
      .object (first + recordNumber layout off) := by
  have hoff := offset_mod h rfl
  rw [wordValue, if_neg (by omega), Nat.add_sub_cancel_left]
  rfl

end Numbers

section Graphs
variable {bytes : Bytes} {base first : Nat} {f : Nat → Nat} {layout : List Entry}
variable {g : Value → Value}

theorem roots_layout {α : Type} {pos : Nat} {value : Nat → α} {g : Value → α}
    (hg : ∀ slot v, (slot, v) ∈ slotsFrom pos layout → value (bytes.word slot) = g v) :
    ((recordsOf pos layout).filterMap (Record.root? bytes)).map (fun ref => value ref.word) =
      (rootsOf layout).map g := by
  induction layout generalizing pos with
  | nil => rfl
  | cons e rest ih =>
    have hcons : recordsOf pos (e :: rest) = e.record pos :: recordsOf (pos + e.size) rest := rfl
    have hslots : slotsFrom pos (e :: rest) = e.slots pos ++ slotsFrom (pos + e.size) rest := rfl
    rw [hslots] at hg
    have hrest := ih fun slot v hv => hg slot v (List.mem_append_right _ hv)
    rw [hcons]
    cases e with
    | object id o =>
      have hnone : ((Entry.object id o).record pos).root? bytes = none := by
        rw [Record.root?, isTerminator_object]
        rfl
      rw [List.filterMap_cons_none hnone]
      exact hrest
    | terminator root =>
      have hsome : ((Entry.terminator root).record pos).root? bytes =
          some (Record.rawRef bytes (pos + 8)) := rfl
      have hroot := hg (pos + 8) root (List.mem_append_left _ List.mem_cons_self)
      rw [List.filterMap_cons_some hsome, List.map_cons, hrest]
      exact congrArg (· :: _) hroot

variable (hbytes : bytes.toList = imageBytes base f layout)
include hbytes

theorem getElem?_objects_layout {off id : Nat} {o : Object Value}
    (hvalid : ∀ e ∈ layout, e.Valid)
    (hfilled : ∀ r ∈ recordsOf headerSize layout, r.Filled bytes)
    (hg : ∀ slot v, (slot, v) ∈ slotsFrom headerSize layout →
      wordValue base first (recordsOf headerSize layout) (bytes.word slot) = g v)
    (h : (off, .object id o) ∈ placed headerSize layout) :
    (imageGraph bytes base first (recordsOf headerSize layout)).objects[recordNumber layout off]? =
      some (o.map g) := by
  have hentry := hvalid _ (mem_of_mem_placed h)
  have hshows := shows_of_mem_placed (shows_layout hbytes) h
  obtain ⟨raw, hraw, hmap⟩ := object?_record hentry.1 hentry.2 hshows
    (hfilled _ (mem_recordsOf.mpr ⟨off, _, h, rfl⟩))
    fun slot v hv => hg slot v (mem_slotsFrom.mpr ⟨off, _, h, hv⟩)
  rw [getElem?_objects_imageGraph, getElem?_objectRecords h, Option.bind_some, hraw,
    Option.map_some, hmap]

end Graphs
end HeapImage
