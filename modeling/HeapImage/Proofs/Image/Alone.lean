import HeapImage.Proofs.Image.Scanning

/-!
# Records by themselves

The bytes of a record can be cut out of an image and looked at on their own, as if their first
address were that of the memory. The reader finds the same record in them, and the same object, and
a scan passes it there as it does in the image. So whatever is done with a record stays inside of as
many bytes as its size says: there are no others.
-/

namespace HeapImage
set_option autoImplicit false

namespace Bytes

def cut (bytes : Bytes) (pos size : Nat) : Bytes := bytes.extract pos (pos + size)

variable {bytes : Bytes} {pos size k lo hi width : Nat} {data : List UInt8}

theorem size_cut (h : pos + size ≤ bytes.size) : (bytes.cut pos size).size = size := by
  rw [cut, Array.size_extract]
  omega

theorem getElem?_cut (h : k < size) : (bytes.cut pos size)[k]? = bytes[pos + k]? := by
  rw [cut, Array.getElem?_extract]
  split
  · rfl
  · rw [Array.getElem?_eq_none (by omega)]

theorem field_cut (h : k + width ≤ size) :
    (bytes.cut pos size).field width k = bytes.field width (pos + k) := by
  induction width generalizing k with
  | zero => rfl
  | succ width ih =>
    have hrest : (bytes.cut pos size).field width (k + 1) = bytes.field width (pos + (k + 1)) :=
      ih (by omega)
    rw [field, field, hrest, Array.getD_eq_getD_getElem?, Array.getD_eq_getD_getElem?,
      getElem?_cut (by omega), Nat.add_assoc]

theorem word_cut (h : k + 8 ≤ size) : (bytes.cut pos size).word k = bytes.word (pos + k) :=
  field_cut h

theorem half_cut (h : k + 4 ≤ size) : (bytes.cut pos size).half k = bytes.half (pos + k) :=
  field_cut h

theorem extract_cut (h : hi ≤ size) :
    (bytes.cut pos size).extract lo hi = bytes.extract (pos + lo) (pos + hi) := by
  rw [cut, Array.extract_extract, Nat.min_eq_left (Nat.add_le_add_left h pos)]

/-- What is written into a part of the bytes is written into what is cut out. -/
theorem cut_overwrite (h : k + data.length ≤ size) :
    (bytes.overwrite (pos + k) data).cut pos size = (bytes.cut pos size).overwrite k data := by
  apply Array.ext_getElem?
  intro i
  rw [getElem?_overwrite]
  by_cases hin : i < size
  · rw [getElem?_cut hin, getElem?_overwrite, cut, Array.size_extract]
    by_cases hwritten : k ≤ i ∧ i < k + data.length ∧ pos + i < bytes.size
    · rw [if_pos (by omega), if_pos (by omega), Nat.add_sub_add_left]
    · rw [if_neg (by omega), if_neg (by omega)]
      exact (getElem?_cut hin).symm
  · -- What is cut out has no more bytes, whatever was written.
    have hout : ∀ other : Bytes, (other.cut pos size)[i]? = none := by
      intro other
      rw [cut, Array.getElem?_extract, if_neg (by omega)]
    rw [hout, hout, if_neg (by omega)]

end Bytes

namespace Record

def alone (r : Record) : Record := { r with offset := 0 }

variable {bytes memory : Bytes} {base start : Nat} {r : Record}

theorem slots_alone (r : Record) : r.slots = r.alone.slots.map (r.offset + ·) := by
  simp [slots, alone, Nat.add_assoc]

theorem describedAt_cut (h : r.shape.extent ≤ r.size) :
    r.shape.DescribedAt (bytes.cut r.offset r.size) (base + r.offset) 0 ↔
      r.shape.DescribedAt bytes base r.offset := by
  have hpos := r.shape.eight_le_extent
  have hhalf : (bytes.cut r.offset r.size).half (0 + 4) = bytes.half (r.offset + 4) :=
    Bytes.half_cut (by omega)
  have htag : (bytes.cut r.offset r.size).tagAt 0 = bytes.tagAt r.offset := by
    rw [Bytes.tagAt, hhalf, Bytes.tagAt]
  have hextra : (bytes.cut r.offset r.size).extraAt 0 = bytes.extraAt r.offset := by
    rw [Bytes.extraAt, hhalf, Bytes.extraAt]
  have hword : ∀ k, k + 8 ≤ r.shape.extent →
      (bytes.cut r.offset r.size).word (0 + k) = bytes.word (r.offset + k) := by
    intro k hk
    rw [Nat.zero_add]
    exact Bytes.word_cut (by omega)
  cases hs : r.shape <;> simp only [hs, Shape.extent, Shape.DescribedAt, htag, hextra] at hword ⊢
  case constructor => rw [hword 8 (by omega), hword 16 (by omega)]
  case bigInteger =>
    -- The limbs are referred to by their address, which is the same as in the image.
    rw [hword 8 (by omega), hword 16 (by omega), Nat.add_assoc, Nat.zero_add]
  case array | byteArray | string => rw [hword 8 (by omega)]
  case thunk => rw [hword 16 (by omega)]

end Record

theorem isRecord_cut_iff {bytes : Bytes} {base : Nat} {r : Record}
    (hfits : r.offset + r.size ≤ bytes.size) :
    IsRecord (bytes.cut r.offset r.size) (base + r.offset) r.alone ↔ IsRecord bytes base r := by
  have hsize := Bytes.size_cut hfits
  constructor
  · intro h
    have hextent : r.shape.extent ≤ r.size := h.extent_le
    exact ⟨(Record.describedAt_cut hextent).mp h.described, h.size_eq, hfits⟩
  · intro h
    refine ⟨(Record.describedAt_cut h.extent_le).mpr h.described, h.size_eq, ?_⟩
    rw [hsize]
    exact Nat.le_of_eq (Nat.zero_add _)

theorem Bytes.recordAt_cut {bytes : Bytes} {base pos : Nat} {r : Record}
    (hlimit : bytes.size < wordLimit) (h : bytes.recordAt base pos = .ok r) :
    (bytes.cut pos r.size).recordAt (base + pos) 0 = .ok r.alone := by
  obtain ⟨rfl, hrecord⟩ := Bytes.isRecord_of_recordAt h
  have hfits := hrecord.fits
  refine Bytes.recordAt_of_isRecord ?_ ((isRecord_cut_iff hfits).mpr hrecord)
  rw [Bytes.size_cut hfits]
  omega

namespace Record
variable {bytes memory : Bytes} {base start : Nat} {r : Record}

/-- Passing a record changes its own bytes as if there were no others. -/
theorem adjusted_cut (h : r.shape.extent ≤ r.size) (start : Nat) (memory : Bytes) :
    (r.adjusted start memory).cut r.offset r.size =
      r.alone.adjusted (start + r.offset) (memory.cut r.offset r.size) := by
  have hpos := r.shape.eight_le_extent
  have hmark : (memory.overwrite r.offset (leBytes 4 0)).cut r.offset r.size =
      (memory.cut r.offset r.size).overwrite 0 (leBytes 4 0) :=
    Bytes.cut_overwrite (k := 0) (by rw [length_leBytes]; omega)
  unfold adjusted
  cases hs : r.shape <;> rw [hs] at h <;> simp only [alone, hs, Shape.extent] at h ⊢
  case mutableRef =>
    rw [Bytes.cut_overwrite (by rw [length_leBytes]; omega), hmark]
  case bigInteger =>
    rw [Bytes.cut_overwrite (by rw [length_leBytes]; omega), hmark, Nat.zero_add, Nat.zero_add,
      Nat.add_assoc]
  all_goals exact hmark

section Contents
variable (h : r.shape.extent ≤ r.size)
include h

theorem map_children_cut (bytes : Bytes) :
    (r.alone.children (bytes.cut r.offset r.size)).map RawRef.word =
      (r.children bytes).map RawRef.word := by
  have hrange := r.shape.slotRange_le
  have hwords : ∀ slot ∈ r.alone.slots,
      (rawRef (bytes.cut r.offset r.size) slot).word = (rawRef bytes (r.offset + slot)).word := by
    intro slot hslot
    obtain ⟨i, hi, rfl⟩ := List.mem_map.mp hslot
    have hlt := List.mem_range.mp hi
    refine Bytes.word_cut ?_
    simp only [alone] at hlt ⊢
    omega
  simpa [children, r.slots_alone] using hwords

theorem content_cut (bytes : Bytes) (hone : r.shape.slotRange.2 = 1) :
    (r.alone.content (bytes.cut r.offset r.size)).word = (r.content bytes).word := by
  have hrange := r.shape.slotRange_le
  have hword : (bytes.cut r.offset r.size).word r.shape.slotRange.1 =
      bytes.word (r.offset + r.shape.slotRange.1) :=
    Bytes.word_cut (by omega)
  simp only [content, rawRef, alone, Nat.zero_add, hword]

theorem contents?_cut (bytes : Bytes) (hone : r.shape.slotRange.2 = 1) :
    (r.alone.contents? (bytes.cut r.offset r.size)).map RawRef.word =
      (r.contents? bytes).map RawRef.word := by
  have hcontent := content_cut h bytes hone
  unfold contents?
  rw [hcontent]
  split
  · rfl
  · exact congrArg some hcontent

theorem object?_cut (bytes : Bytes) :
    (r.alone.object? (bytes.cut r.offset r.size)).map (Object.map RawRef.word) =
      (r.object? bytes).map (Object.map RawRef.word) := by
  have hchildren := map_children_cut h bytes
  have hdata : ∀ k width, k + width ≤ r.size →
      (bytes.cut r.offset r.size).extract (0 + k) (0 + k + width) =
        bytes.extract (r.offset + k) (r.offset + k + width) := by
    intro k width hk
    rw [Nat.zero_add, Bytes.extract_cut hk, Nat.add_assoc]
  have hword : ∀ k, k + 8 ≤ r.size →
      (bytes.cut r.offset r.size).word (0 + k) = bytes.word (r.offset + k) := by
    intro k hk
    rw [Nat.zero_add]
    exact Bytes.word_cut hk
  unfold object?
  simp only [show r.alone.shape = r.shape from rfl, show r.alone.offset = 0 from rfl]
  cases hs : r.shape with
  | constructor tag numFields scalarSize =>
    rw [hs, Shape.extent] at h
    have hscalars := hdata (24 + 8 * numFields) scalarSize h
    rw [← Nat.add_assoc, ← Nat.add_assoc] at hscalars
    simp only [Option.map_some, Object.map, hchildren, hscalars]
  | array length => simp only [Option.map_some, Object.map, hchildren]
  | byteArray elemSize length =>
    rw [hs, Shape.extent] at h
    simp only [Option.map_some, Object.map, hdata 16 _ h]
  | string length =>
    rw [hs, Shape.extent] at h
    simp only [Option.map_some, Object.map, hdata 16 length (by omega)]
  | thunk =>
    have hcontents := contents?_cut h bytes (by rw [hs]; rfl)
    rw [hs, Shape.extent] at h
    cases hforced : r.contents? bytes with
    | some value =>
      rw [hforced] at hcontents
      obtain ⟨ref, href, hword⟩ := Option.map_eq_some_iff.mp hcontents
      simp only [href, Option.map_some, Object.map, hword]
    | none =>
      rw [hforced] at hcontents
      have hwaiting := Option.map_eq_none_iff.mp hcontents
      simp only [hwaiting, Option.map_some, Object.map, rawRef, hword 16 h]
  | task | promise =>
    have hcontents := contents?_cut h bytes (by rw [hs]; rfl)
    simp only [Option.map_some, Object.map, hcontents]
  | mutableRef =>
    have hcontent := content_cut h bytes (by rw [hs]; rfl)
    simp only [Option.map_some, Object.map, hcontent]
  | bigInteger sign length =>
    rw [hs, Shape.extent] at h
    have hlimbs : r.alone.limbs (bytes.cut r.offset r.size) length = r.limbs bytes length := by
      apply List.map_congr_left
      intro i hi
      have hlt := List.mem_range.mp hi
      have hlimb := hword (24 + 8 * i) (by omega)
      rw [← Nat.add_assoc, ← Nat.add_assoc] at hlimb
      exact congrArg UInt64.ofNat hlimb
    simp only [Option.map_some, Object.map, hlimbs]
  | terminator => rfl

theorem root?_cut (bytes : Bytes) :
    (r.alone.root? (bytes.cut r.offset r.size)).map RawRef.word =
      (r.root? bytes).map RawRef.word := by
  have hsame : r.alone.isTerminator = r.isTerminator := rfl
  rw [root?, root?, hsame]
  split
  · rename_i hterminator
    have hs : r.shape = .terminator := beq_iff_eq.mp hterminator
    rw [hs, Shape.extent] at h
    have hword : (bytes.cut r.offset r.size).word 8 = bytes.word (r.offset + 8) :=
      Bytes.word_cut h
    simp only [Option.map_some, rawRef, alone, Nat.zero_add, hword]
  · rfl

end Contents

end Record

namespace InPlace

/-- A scan of bytes that start with a record. -/
def Scan.lone (memory : Bytes) : Scan := { Scan.begin memory with offset := 0 }

/-- From one state to the next a scan passes a record of the given size, and `lone` has passed the
same record in a memory of that size. The scan changes nothing else, and all that it notes to be
looked at again lies in the record. -/
structure Scan.PassesAs (s next lone : Scan) (size : Nat) : Prop where
  offset : next.offset = s.offset + size
  size_eq : lone.memory.size = size
  inside : next.memory.cut s.offset size = lone.memory
  outside : ∀ i, i < s.offset ∨ s.offset + size ≤ i → next.memory[i]? = s.memory[i]?
  slots : next.slots = s.slots ++ lone.slots.map (s.offset + ·)
  slots_le : ∀ slot ∈ lone.slots, slot + 8 ≤ size
  terminators : next.terminators = s.terminators ++ lone.terminators.map (s.offset + ·)
  terminators_le : ∀ pos ∈ lone.terminators, pos + 16 ≤ size

namespace Scan
variable {s : Scan} {start base : Nat} {r : Record}

theorem Fits.lone (hs : s.Fits start) {size : Nat} (h : s.offset + size ≤ s.memory.size) :
    (Scan.lone (s.memory.cut s.offset size)).Fits (start + s.offset) where
  size_le := by
    have hle := hs.size_le
    change (s.memory.cut s.offset size).size ≤ sizeLimit
    rw [Bytes.size_cut h]
    omega
  fits := by
    have hlt := hs.fits
    change start + s.offset + (s.memory.cut s.offset size).size < wordLimit
    rw [Bytes.size_cut h]
    omega
  starts := Array.size_replicate
  aligned := rfl

theorem terminators_lone (r : Record) (start : Nat) (memory : Bytes) :
    ((Scan.lone memory).add start r.alone).terminators = if r.isTerminator then [0] else [] := rfl

theorem passesAs_add (hr : IsRecord s.memory base r) (hoffset : r.offset = s.offset) (start : Nat) :
    s.PassesAs (s.add start r)
      ((Scan.lone (s.memory.cut r.offset r.size)).add (start + r.offset) r.alone) r.size where
  offset := congrArg (· + r.size) hoffset
  size_eq := (r.alone.size_adjusted _ _).trans (Bytes.size_cut hr.fits)
  inside := hoffset ▸ Record.adjusted_cut hr.extent_le start s.memory
  outside i hi := by
    have htouched := r.shape.touched_le
    have hextent := hr.extent_le
    exact Record.getElem?_adjusted (by omega)
  slots := hoffset ▸ congrArg (s.slots ++ ·) r.slots_alone
  slots_le slot hslot := by
    have hrange := r.shape.slotRange_le
    have hextent := hr.extent_le
    obtain ⟨i, hi, rfl⟩ := List.mem_map.mp hslot
    have hlt := List.mem_range.mp hi
    simp only [Record.alone] at hlt ⊢
    omega
  terminators := by
    rw [terminators_lone, add]
    cases r.isTerminator with
    | false => exact (List.append_nil _).symm
    | true => exact congrArg (fun pos => s.terminators ++ [pos]) hoffset
  terminators_le pos hpos := by
    rw [terminators_lone] at hpos
    split at hpos
    · rename_i hterminator
      have hs : r.shape = .terminator := beq_iff_eq.mp hterminator
      have hextent := hr.extent_le
      rw [hs, Shape.extent] at hextent
      rwa [List.mem_singleton.mp hpos]
    · cases hpos

/-- A scan passes a record in the image as it passes it in the bytes of the record. -/
theorem exists_passesAs (hs : s.Fits start) (hr : s.memory.recordAt base s.offset = .ok r) :
    ∃ next lone, s.round start base = .ok next ∧
      (Scan.lone (s.memory.cut s.offset r.size)).round (start + s.offset) (base + s.offset) =
        .ok lone ∧
      s.PassesAs next lone r.size := by
  obtain ⟨hoffset, hrecord⟩ := Bytes.isRecord_of_recordAt hr
  have hfits := hrecord.fits
  have hpos := hrecord.size_pos
  rw [hoffset] at hfits
  have hcut : (Scan.lone (s.memory.cut s.offset r.size)).memory.size = r.size :=
    Bytes.size_cut hfits
  have hlimit : s.memory.size < wordLimit := Nat.lt_of_le_of_lt (Nat.le_add_left _ _) hs.fits
  have hround : s.round start base = .ok (s.add start r) := by
    rw [round_eq hs (by omega), hr]
  have hstarts : (Scan.lone (s.memory.cut s.offset r.size)).offset <
      (Scan.lone (s.memory.cut s.offset r.size)).memory.size := by
    rw [hcut]
    exact Nat.lt_of_lt_of_le (Nat.succ_pos 7) hpos
  have hat : (Scan.lone (s.memory.cut s.offset r.size)).memory.recordAt (base + s.offset)
      (Scan.lone (s.memory.cut s.offset r.size)).offset = .ok r.alone :=
    Bytes.recordAt_cut hlimit hr
  have hround' : (Scan.lone (s.memory.cut s.offset r.size)).round (start + s.offset)
      (base + s.offset) =
        .ok ((Scan.lone (s.memory.cut s.offset r.size)).add (start + s.offset) r.alone) := by
    rw [round_eq (hs.lone hfits) hstarts, hat]
  exact ⟨_, _, hround, hround', hoffset ▸ passesAs_add hrecord hoffset start⟩

end Scan

end InPlace

end HeapImage
