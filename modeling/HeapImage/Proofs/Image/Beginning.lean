import HeapImage.Proofs.Image.Alike

/-!
# Beginnings of images

An image that begins with another image: what was cut off may be read or not, the records, objects
and roots of the beginning are the same in both. The reader cannot get out of step, as the size of
a record is decided by the record alone.
-/

namespace HeapImage
set_option autoImplicit false

theorem wordValue_append {base n word : Nat} {records : List Record} (rest : List Record)
    (h : IsReference base records word) :
    wordValue base n (records ++ rest) word = wordValue base n records word := by
  unfold wordValue
  split
  · rfl
  · rename_i heven
    obtain ⟨r, hr, hobject, hword⟩ := h.resolve_left heven
    have hmem : word - base ∈ (objectRecords records).map Record.offset := by
      rw [show word - base = r.offset by omega]
      exact List.mem_map_of_mem (mem_objectRecords.mpr ⟨hr, hobject⟩)
    have hsplit : objectRecords (records ++ rest) = objectRecords records ++ objectRecords rest :=
      List.filter_append _ _
    rw [hsplit, List.map_append, List.idxOf_append_of_mem hmem]

section Beginnings
variable {first bytes : Bytes} (hp : first.toList <+: bytes.toList)
include hp

theorem Bytes.getElem?_of_isPrefix {i : Nat} (hi : i < first.size) : bytes[i]? = first[i]? := by
  obtain ⟨rest, hrest⟩ := hp
  rw [← Array.getElem?_toList, ← Array.getElem?_toList, ← hrest, List.getElem?_append_left hi]

theorem Bytes.word_of_isPrefix {pos : Nat} (h : pos + 8 ≤ first.size) :
    bytes.word pos = first.word pos :=
  field_congr fun i _ hi => getElem?_of_isPrefix hp (by omega)

variable {base pos : Nat} {r : Record} {records all : List Record}

theorem Record.alike_of_isPrefix (h : IsRecord first base r) : r.Alike first bytes := by
  intro p hp' _ i hi
  have hbounds := Record.bounds_of_mem_pieces h.extent_le hp'
  have hfits := h.fits
  have hlt := hi.2
  exact (Bytes.getElem?_of_isPrefix hp (by omega)).symm

theorem IsRecord.of_isPrefix (h : IsRecord first base r) : IsRecord bytes base r := by
  have hle := hp.length_le
  rw [Array.length_toList, Array.length_toList] at hle
  exact (Record.alike_of_isPrefix hp h).isRecord h (h.fits.trans hle)

/-- Bytes are split in one way only, as far as they are there. -/
theorem Tiling.isPrefix (hlimit : bytes.size < wordLimit) (h : Tiling first base pos records)
    (h' : Tiling bytes base pos all) : records <+: all := by
  induction h generalizing all with
  | done => exact List.nil_prefix
  | @cons r rest hr _ ih =>
    have hrecord := hr.of_isPrefix hp
    have hat := Bytes.recordAt_of_isRecord hlimit hrecord
    have hfits := hrecord.fits
    have hsize := hrecord.size_pos
    generalize hpos : r.offset = pos at h'
    -- The rest of the bytes is not empty, and what is decoded there is the same record.
    cases h' with
    | done => omega
    | @cons r' rest' hr' hrest' =>
      rw [hpos, Bytes.recordAt_of_isRecord hlimit hr'] at hat
      obtain rfl : r' = r := Except.ok.inj hat
      exact List.cons_prefix_cons.mpr ⟨rfl, ih hrest'⟩

/-- The objects and roots of an image are the first ones of every image that begins with it. -/
theorem imageGraph_of_isPrefix (himage : IsImage first base records) (hall : records <+: all)
    (n : Nat) :
    (imageGraph first base n records).objects.toList <+:
        (imageGraph bytes base n all).objects.toList ∧
      (imageGraph first base n records).roots.toList <+:
        (imageGraph bytes base n all).roots.toList := by
  obtain ⟨rest, rfl⟩ := hall
  have halike : ∀ r ∈ records, r.Alike first bytes :=
    fun r hr => Record.alike_of_isPrefix hp (himage.tiling.isRecord r hr)
  have hvalue : ∀ r ∈ records, ∀ slot ∈ r.shape.references r.offset,
      wordValue base n (records ++ rest) (first.word slot) =
        wordValue base n records (first.word slot) :=
    fun r hr slot hslot => wordValue_append rest (himage.references r hr slot hslot)
  simp only [imageGraph, List.filterMap_append, List.map_append, List.map_filterMap]
  constructor
  · refine ⟨_, congrArg (· ++ _) (List.filterMap_congr fun r hr => ?_)⟩
    have hfilled := himage.filled hr
    refine Record.object?_congr (halike r hr).sameContents hfilled ((halike r hr).filled hfilled)
      fun slot hslot => ?_
    have hobject := Record.isTerminator_of_mem_slots hslot
    rw [Record.rawRef, Record.rawRef, ← (halike r hr).word_slot hslot,
      hvalue r hr slot (Record.references_of_object hobject ▸ hslot)]
  · refine ⟨_, congrArg (· ++ _) (List.filterMap_congr fun r hr => ?_)⟩
    rw [← (halike r hr).root?_eq]
    cases hroot : r.root? first with
    | none => rfl
    | some ref =>
      obtain ⟨hterminator, rfl⟩ := Record.root?_eq_some_iff.mp hroot
      have hslot : r.offset + 8 ∈ r.shape.references r.offset := by
        rw [Record.references_of_isTerminator hterminator]
        exact List.mem_cons_self
      exact congrArg some (hvalue r hr _ hslot).symm

end Beginnings

theorem Tiling.unique {bytes : Bytes} {base pos : Nat} {records records' : List Record}
    (hlimit : bytes.size < wordLimit) (h : Tiling bytes base pos records)
    (h' : Tiling bytes base pos records') : records = records' :=
  have hle := (h'.isPrefix List.prefix_rfl hlimit h).length_le
  (h.isPrefix List.prefix_rfl hlimit h').eq_of_length_le hle

end HeapImage
