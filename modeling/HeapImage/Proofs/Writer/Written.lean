import HeapImage.Proofs.Image.Layout
import HeapImage.Proofs.Writer.Calls

/-!
# What a writer writes

The operations on the buffer, as they look in terms of layouts: a new record becomes a new entry, a
reference that is filled in changes one word, and cutting off the last entry gives the old bytes.
-/

namespace HeapImage
set_option autoImplicit false

section Layouts
variable {base pos : Nat} {f g : Nat → Nat} {layout : List Entry} {e : Entry}

theorem imageBytes_concat : imageBytes base f (layout ++ [e]) =
    imageBytes base f layout ++ e.encode base f (headerSize + totalSize layout) := by
  simp only [imageBytes, encodeAll_append, encodeAll_cons, encodeAll_nil, List.append_nil,
    List.append_assoc]

theorem imageBytes_congr (h : ∀ slot v, (slot, v) ∈ slotsFrom headerSize layout → f slot = g slot) :
    imageBytes base f layout = imageBytes base g layout := by
  rw [imageBytes, imageBytes, encodeAll_congr h]

theorem length_imageBytes (base : Nat) (f : Nat → Nat) (layout : List Entry) :
    (imageBytes base f layout).length = headerSize + totalSize layout := by
  rw [imageBytes, List.length_append, List.length_append, length_leBytes, length_leBytes,
    length_encodeAll, headerSize]
  omega

end Layouts

namespace Buffer
variable {b : Buffer} {base pos : Nat} {f : Nat → Nat} {layout : List Entry} {e : Entry}
variable {before : List UInt8}

theorem toList_truncate {after : List UInt8} (h : b.bytes.toList = before ++ after) :
    (b.truncate before.length).bytes.toList = before :=
  Bytes.toList_shrink h

/-- The bytes are what has been written, and zeros that wait for the rest. -/
def Written (b : Buffer) (written : List UInt8) (zeros : Nat) : Prop :=
  b.bytes.toList = written ++ List.replicate zeros 0

namespace Written
variable {zeros gap : Nat}

theorem overwrite {data : List UInt8} (h : b.Written before zeros)
    (hpos : pos = before.length + gap) (hfits : gap + data.length ≤ zeros) :
    (b.overwrite pos data).Written (before ++ List.replicate gap 0 ++ data)
      (zeros - (gap + data.length)) :=
  Bytes.toList_overwrite_zeros h hpos hfits

theorem putWord (h : b.Written before zeros) (hpos : pos = before.length) (hfits : 8 ≤ zeros)
    (word : Nat) : (b.putWord pos word).Written (before ++ leBytes 8 word) (zeros - 8) := by
  have hat : pos = before.length + 0 := hpos
  have hdata : 0 + (leBytes 8 word).length ≤ zeros := by
    rw [length_leBytes]
    omega
  have hwrite := h.overwrite hat hdata
  rwa [length_leBytes, List.replicate_zero, List.append_nil, Nat.zero_add] at hwrite

theorem putHeader (h : b.Written before zeros) (hpos : pos = before.length) (hfits : 8 ≤ zeros)
    (half : Nat) :
    (b.putHalf (pos + 4) half).Written (before ++ (leBytes 4 0 ++ leBytes 4 half)) (zeros - 8) := by
  have hat : pos + 4 = before.length + 4 := by rw [hpos]
  have hdata : 4 + (leBytes 4 half).length ≤ zeros := by
    rw [length_leBytes]
    omega
  have hzero : List.replicate 4 0 = leBytes 4 0 := by decide
  have hwrite := h.overwrite hat hdata
  rwa [length_leBytes, hzero, List.append_assoc] at hwrite

theorem leave {count : Nat} (h : b.Written before zeros) (hfits : count ≤ zeros) :
    b.Written (before ++ List.replicate count 0) (zeros - count) := by
  rw [Written, h, List.append_assoc, List.replicate_append_replicate]
  congr 2
  omega

theorem of_eq {written : List UInt8} {left : Nat} (h : b.Written before zeros)
    (hwritten : before = written) (hleft : zeros = left) : b.Written written left :=
  hwritten ▸ hleft ▸ h

/-- A count and data, with a gap between them. -/
theorem putCounted {data : List UInt8} {place : Nat} (h : b.Written before zeros)
    (hpos : pos = before.length) (hplace : place = pos + 8 + gap)
    (hfits : 8 + gap + data.length ≤ zeros) (count : Nat) :
    ((b.putWord pos count).overwrite place data).Written
      (before ++ leBytes 8 count ++ List.replicate gap 0 ++ data)
      (zeros - (8 + gap + data.length)) := by
  have hat : place = (before ++ leBytes 8 count).length + gap := by
    rw [List.length_append, length_leBytes, ← hpos, hplace]
  exact ((h.putWord hpos (by omega) count).overwrite hat (by omega)).of_eq rfl (by omega)

end Written

/-- Behind its header the record of an object is there, except that the references are zero. -/
def WrittenBody (b : Buffer) (base pos : Nat) (o : Object Value) (before : List UInt8)
    (zeros : Nat) : Prop :=
  b.Written (before ++ o.counts ++ List.replicate (8 * o.children.length) 0 ++
    o.tail (base + (pos + 24))) (zeros - (o.slotsAt + 8 * o.children.length + o.tailSize))

section Kinds
variable {zeros : Nat} (base : Nat)
variable (h : b.Written before (zeros - 8)) (hpos : pos + 8 = before.length)
include hpos

theorem length_before_count (count : Nat) : pos + 16 = (before ++ leBytes 8 count).length := by
  rw [List.length_append, length_leBytes, ← hpos]

include h

theorem writtenBody_constructor {tag : UInt16} {fields : Array Value} {scalars : Bytes}
    (hfits : (Object.constructor tag fields scalars).extent ≤ zeros) :
    (((b.putWord (pos + 8) fields.size).putWord (pos + 16) scalars.size).overwrite
      (pos + 24 + 8 * fields.size) scalars.toList).WrittenBody base pos
        (.constructor tag fields scalars) before zeros := by
  simp only [Object.extent] at hfits
  refine ((h.putWord hpos (by omega) fields.size).putCounted (length_before_count hpos _)
    (show _ = pos + 16 + 8 + 8 * fields.size by omega) (by rw [Array.length_toList]; omega)
    scalars.size).of_eq ?_ ?_
  · simp only [Object.counts, Object.children, Object.tail, Array.length_toList, List.append_assoc]
  · simp only [Object.slotsAt, Object.children, Object.tailSize, Array.length_toList]
    omega

theorem writtenBody_array {elements : Array Value}
    (hfits : (Object.array elements).extent ≤ zeros) :
    (b.putWord (pos + 8) elements.size).WrittenBody base pos (.array elements) before zeros := by
  simp only [Object.extent] at hfits
  refine ((h.putWord hpos (by omega) elements.size).leave
    (show 8 * elements.size ≤ _ by omega)).of_eq ?_ ?_
  · simp [Object.counts, Object.children, Object.tail, Object.contents]
  · simp only [Object.slotsAt, Object.children, Object.tailSize, Array.length_toList]
    omega

theorem writtenBody_byteArray {elemSize : UInt8} {data : Bytes}
    (hfits : (Object.byteArray (ρ := Value) elemSize data).extent ≤ zeros) :
    ((b.putWord (pos + 8) (data.size / elemSize.toNat)).overwrite (pos + 16)
      data.toList).WrittenBody base pos (.byteArray elemSize data) before zeros := by
  simp only [Object.extent] at hfits
  refine (h.putCounted hpos (show _ = pos + 8 + 8 + 0 by omega)
    (by rw [Array.length_toList]; omega) _).of_eq ?_ ?_
  · simp [Object.counts, Object.children, Object.tail, Object.contents]
  · simp only [Object.slotsAt, Object.children, Object.tailSize, Array.length_toList,
      List.length_nil]
    omega

theorem writtenBody_string {data : Bytes} (hfits : (Object.string (ρ := Value) data).extent ≤ zeros) :
    ((b.putWord (pos + 8) data.size).overwrite (pos + 16) data.toList).WrittenBody base pos
      (.string data) before zeros := by
  simp only [Object.extent] at hfits
  refine (h.putCounted hpos (show _ = pos + 8 + 8 + 0 by omega)
    (by rw [Array.length_toList]; omega) _).of_eq ?_ ?_
  · simp [Object.counts, Object.children, Object.tail, Object.contents]
  · simp only [Object.slotsAt, Object.children, Object.tailSize, Array.length_toList,
      List.length_nil]
    omega

theorem writtenBody_bigInteger {value : LimbInteger}
    (hfits : (Object.bigInteger (ρ := Value) value).extent ≤ zeros) :
    (((b.putWord (pos + 8) (base + (pos + 24))).putWord (pos + 16) value.limbs.length).overwrite
      (pos + 24) (value.limbs.flatMap fun limb => leBytes 8 limb.toNat)).WrittenBody base pos
        (.bigInteger value) before zeros := by
  simp only [Object.extent] at hfits
  refine ((h.putWord hpos (by omega) _).putCounted (length_before_count hpos _)
    (show _ = pos + 16 + 8 + 0 by omega) (by rw [Object.length_limbs]; omega) _).of_eq ?_ ?_
  · simp [Object.counts, Object.children, Object.tail, Object.contents]
  · simp only [Object.slotsAt, Object.children, Object.tailSize, Object.length_limbs,
      List.length_nil]
    omega

omit hpos in
/-- The record of a cell is a header and zeros. -/
theorem writtenBody_cell {o : Object Value} (hfits : o.extent ≤ zeros)
    (hcounts : o.counts = List.replicate (o.slotsAt - 8) 0)
    (htail : o.tail (base + (pos + 24)) = []) : b.WrittenBody base pos o before zeros := by
  have hfilled := o.filled_le_extent
  have hslots := o.length_counts
  have hsize := o.length_tail (base + (pos + 24))
  rw [htail, List.length_nil] at hsize
  refine (h.leave (show (o.slotsAt - 8) + (8 * o.children.length) ≤ _ by omega)).of_eq ?_ (by omega)
  rw [hcounts, htail, List.append_nil, List.append_assoc, List.replicate_append_replicate]

end Kinds

/-- Header, counts and data, written into zeros; the references are left zero. -/
theorem written_putObject (base : Nat) {o : Object Value} {zeros : Nat} (h : b.Written before zeros)
    (hpos : pos = before.length) (hfits : o.extent ≤ zeros) :
    (b.putObject base pos o).WrittenBody base pos o
      (before ++ (leBytes 4 0 ++ leBytes 4 (16 * o.extra + o.tagNumber))) zeros := by
  have hle := o.le_extent
  have hheader := h.putHeader hpos (by omega) (16 * o.extra + o.tagNumber)
  have hlength : pos + 8 =
      (before ++ (leBytes 4 0 ++ leBytes 4 (16 * o.extra + o.tagNumber))).length := by
    rw [List.length_append, List.length_append, length_leBytes, length_leBytes, hpos]
  cases o with
  | constructor => exact writtenBody_constructor base hheader hlength hfits
  | array => exact writtenBody_array base hheader hlength hfits
  | byteArray => exact writtenBody_byteArray base hheader hlength hfits
  | string => exact writtenBody_string base hheader hlength hfits
  | bigInteger => exact writtenBody_bigInteger base hheader hlength hfits
  | thunk | task | promise | mutableRef => exact writtenBody_cell base hheader hfits rfl rfl

theorem size_of_toList (h : b.bytes.toList = imageBytes base f layout) :
    b.size = headerSize + totalSize layout := by
  rw [← length_imageBytes base f layout, ← h, Array.length_toList]
  rfl

theorem written_reserve (b : Buffer) (count : Nat) :
    (b.reserve count).Written b.bytes.toList count := by
  simp [Written, reserve]

theorem toList_putObject_reserve (b : Buffer) (base id : Nat) (o : Object Value) :
    ((b.reserve (roundUp o.extent)).putObject base b.size o).bytes.toList =
      b.bytes.toList ++ (Entry.object id o).encode base (fun _ => 0) b.size := by
  have hlength : b.size = b.bytes.toList.length := (Array.length_toList).symm
  have hput := written_putObject base (written_reserve b (roundUp o.extent)) hlength (le_roundUp _)
  rw [WrittenBody, Written] at hput
  rw [hput, Entry.encode, wordsFrom_zero]
  simp only [Entry.header, Entry.refs, Entry.tail, Entry.size, Entry.refsAt, Entry.tailSize,
    List.append_assoc]

theorem toList_putObject (h : b.bytes.toList = imageBytes base f layout) (id : Nat)
    (o : Object Value) :
    ((b.reserve (roundUp o.extent)).putObject base b.size o).bytes.toList =
      imageBytes base (fun s => if s < b.size then f s else 0) (layout ++ [.object id o]) := by
  have hsize := size_of_toList h
  have hnew : (Entry.object id o).encode base (fun s => if s < b.size then f s else 0) b.size =
      (Entry.object id o).encode base (fun _ => 0) b.size := by
    apply Entry.encode_congr
    intro slot v hv
    have hbounds := Entry.bounds_of_mem_slots hv
    exact if_neg (by omega)
  have hold : imageBytes base (fun s => if s < b.size then f s else 0) layout =
      imageBytes base f layout := by
    apply imageBytes_congr
    intro slot v hv
    have hbounds := bounds_of_mem_slotsFrom hv
    exact if_pos (by omega)
  rw [imageBytes_concat, hold, ← hsize, hnew, toList_putObject_reserve b base id o, h]

theorem toList_putWord {slot : Nat} {v : Value} (h : b.bytes.toList = imageBytes base f layout)
    (hslot : (slot, v) ∈ slotsFrom headerSize layout) (word : Nat) :
    (b.putWord slot word).bytes.toList = imageBytes base (fillIn f slot word) layout := by
  obtain ⟨before, after, hlength, hold, hnew⟩ := encodeAll_fillIn base f hslot word
  have hsplit : b.bytes.toList =
      (leBytes 8 magic ++ (leBytes 8 base ++ before)) ++ (leBytes 8 (f slot) ++ after) := by
    rw [h, imageBytes, hold]
    simp only [List.append_assoc]
  have hwrite := Bytes.toList_overwrite hsplit
    (show _ = (leBytes 8 word).length by rw [length_leBytes, length_leBytes])
  have hat : (leBytes 8 magic ++ (leBytes 8 base ++ before)).length = slot := by
    rw [List.length_append, List.length_append, length_leBytes, length_leBytes, ← hlength,
      headerSize]
    omega
  rw [hat] at hwrite
  rw [imageBytes, hnew]
  apply Eq.trans hwrite
  simp only [List.append_assoc]

/-- The references to scalars are filled in at once. -/
theorem exists_putScalars {slots : List (Nat × Value)}
    (h : b.bytes.toList = imageBytes base f layout)
    (hslots : ∀ s ∈ slots, s ∈ slotsFrom headerSize layout) :
    ∃ g, (b.putScalars slots).bytes.toList = imageBytes base g layout ∧
      (∀ slot (payload : Fin scalarLimit), (slot, .scalar payload) ∈ slots →
        g slot = scalarWord payload) ∧
      ∀ s, (∀ v, (s, v) ∉ slots) → g s = f s := by
  induction slots generalizing b f with
  | nil => exact ⟨f, h, by simp, fun _ _ => rfl⟩
  | cons first rest ih =>
    obtain ⟨hfirst, hrest⟩ := List.forall_mem_cons.mp hslots
    obtain ⟨pos, v⟩ := first
    cases v with
    | object id =>
      obtain ⟨g, hbytes, hscalars, hsame⟩ := ih h hrest
      refine ⟨g, hbytes, ?_, ?_⟩
      · intro slot payload hmem
        rcases List.mem_cons.mp hmem with heq | hmem
        · cases (Prod.mk.inj heq).2
        · exact hscalars slot payload hmem
      · intro s hs
        exact hsame s fun v hv => hs v (List.mem_cons_of_mem _ hv)
    | scalar payload =>
      obtain ⟨g, hbytes, hscalars, hsame⟩ := ih (toList_putWord h hfirst (scalarWord payload)) hrest
      have hcons : b.putScalars ((pos, .scalar payload) :: rest) =
          (b.putWord pos (scalarWord payload)).putScalars rest := by
        simp only [putScalars, List.foldl_cons]
      rw [hcons]
      refine ⟨g, hbytes, ?_, ?_⟩
      · intro slot payload' hmem
        rcases List.mem_cons.mp hmem with heq | hmem
        · obtain ⟨rfl, hpayload⟩ := Prod.mk.inj heq
          obtain rfl := Value.scalar.inj hpayload
          -- a later reference at the same place is the same one
          by_cases hlater : ∃ v, (slot, v) ∈ rest
          · obtain ⟨v, hv⟩ := hlater
            obtain rfl := eq_of_mem_slotsFrom hfirst (hrest _ hv)
            exact hscalars slot payload' hv
          · rw [hsame slot fun v hv => hlater ⟨v, hv⟩, fillIn_self]
        · exact hscalars slot payload' hmem
      · intro s hs
        rw [hsame s fun v hv => hs v (List.mem_cons_of_mem _ hv)]
        exact fillIn_of_ne fun heq => hs (.scalar payload) (heq ▸ List.mem_cons_self)

/-- Appending a record adds an entry; of its references, those to objects are still to be filled
in. -/
theorem exists_append (h : b.bytes.toList = imageBytes base f layout) (id : Nat)
    (o : Object Value) :
    ∃ g, (((b.reserve (roundUp o.extent)).putObject base b.size o).putScalars
          (o.slots b.size)).bytes.toList = imageBytes base g (layout ++ [.object id o]) ∧
      (∀ slot (payload : Fin scalarLimit), (slot, .scalar payload) ∈ o.slots b.size →
        g slot = scalarWord payload) ∧
      ∀ s, s < b.size → g s = f s := by
  have hsize := size_of_toList h
  have hslots : ∀ s ∈ o.slots b.size, s ∈ slotsFrom headerSize (layout ++ [.object id o]) := by
    intro s hs
    rw [slotsFrom_append, slotsFrom_singleton, ← hsize]
    exact List.mem_append_right _ hs
  obtain ⟨g, hbytes, hscalars, hsame⟩ := exists_putScalars (toList_putObject h id o) hslots
  refine ⟨g, hbytes, hscalars, fun s hs => ?_⟩
  have hout : ∀ v, (s, v) ∉ o.slots b.size := by
    intro v hv
    have hbounds := Entry.bounds_of_mem_slots (e := .object id o) hv
    omega
  rw [hsame s hout, if_pos hs]

theorem toList_putTerminator_reserve (b : Buffer) (base : Nat) (root : Value) {word : Nat}
    (hword : f (b.size + 8) = word) :
    ((b.reserve terminatorSize).putTerminator b.size word).bytes.toList =
      b.bytes.toList ++ (Entry.terminator root).encode base f b.size := by
  have hlength : b.size = b.bytes.toList.length := (Array.length_toList).symm
  have hheader := (written_reserve b terminatorSize).putHeader hlength (by decide) terminatorTag
  have hat : b.size + 8 =
      (b.bytes.toList ++ (leBytes 4 0 ++ leBytes 4 terminatorTag)).length := by
    rw [List.length_append, List.length_append, length_leBytes, length_leBytes, hlength]
  have hroot := hheader.putWord hat (by decide) word
  have hentry : (Entry.terminator root).encode base f b.size =
      leBytes 4 0 ++ leBytes 4 15 ++ leBytes 8 word := by
    simp [Entry.encode, Entry.header, Entry.refs, Entry.refsAt, Entry.tail, Entry.size,
      Entry.tailSize, wordsFrom, hword]
  rw [hentry]
  apply Eq.trans hroot
  simp [terminatorSize, terminatorTag]

theorem toList_putTerminator (h : b.bytes.toList = imageBytes base f layout) (root : Value)
    (word : Nat) :
    ((b.reserve terminatorSize).putTerminator b.size word).bytes.toList =
      imageBytes base (fillIn f (b.size + 8) word) (layout ++ [.terminator root]) := by
  have hsize := size_of_toList h
  have hold : imageBytes base (fillIn f (b.size + 8) word) layout = imageBytes base f layout := by
    apply imageBytes_congr
    intro slot v hv
    have hbounds := bounds_of_mem_slotsFrom hv
    exact fillIn_of_ne (by omega)
  rw [imageBytes_concat, hold, ← hsize, ← h]
  exact toList_putTerminator_reserve b base root (fillIn_self f (b.size + 8) word)

end Buffer
end HeapImage
