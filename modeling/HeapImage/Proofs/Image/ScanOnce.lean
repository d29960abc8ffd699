import HeapImage.Proofs.Image.InPlace
import HeapImage.Proofs.Image.Pieces

/-!
# Each reference once

Relocating a word twice would move it twice. A scan that succeeds has split the bytes behind the
header into records, and notes every word of them that holds a reference, or a root, once. These
words overlap neither each other nor any other piece of a record, so when one of them is relocated
it still holds what it has held in the image.
-/

namespace HeapImage
set_option autoImplicit false

theorem Record.le_of_mem_slots {r : Record} {slot : Nat} (h : slot ∈ r.slots) :
    r.offset + 8 ≤ slot ∧ (slot - r.offset) % 8 = 0 := by
  obtain ⟨i, hi, rfl⟩ := List.mem_map.mp h
  have hlt := List.mem_range.mp hi
  cases hs : r.shape <;> simp only [hs, Shape.slotRange] at hlt ⊢ <;> omega

theorem Tiling.existsUnique_record {bytes : Bytes} {base pos i : Nat} {records : List Record}
    (h : Tiling bytes base pos records) (hle : pos ≤ i) (hlt : i < bytes.size) :
    ∃! r, r ∈ records ∧ r.offset ≤ i ∧ i < r.offset + r.size := by
  obtain ⟨r, hr, hin⟩ := h.exists_record hle hlt
  refine ⟨r, ⟨hr, hin⟩, ?_⟩
  rintro s ⟨hs, hin'⟩
  rcases h.apart hs hr with rfl | hbefore | hbehind
  · rfl
  · omega
  · omega

namespace InPlace

section Order
variable {starts : Array Bool} {records : List Record} {memory moved : Bytes}
variable {start base offset pos : Nat} {positions before after words : List Nat}

theorem moved_of_relocateAll (hmarks : Marks starts records memory.size)
    (hfits : start + memory.size < wordLimit)
    (hin : ∀ slot ∈ positions.map (· + offset), slot + 8 ≤ memory.size)
    (hpairwise : (positions.map (· + offset)).Pairwise fun x y => x + 8 ≤ y)
    (hok : relocateAll starts start base offset memory positions = .ok (moved, words)) :
    Moved start base (positions.map (· + offset)) memory moved := by
  cases hcauses : danglings base records memory (positions.map (· + offset)) with
  | cons cause others =>
    exact nomatch hok.symm.trans (relocateAll_eq hmarks hfits hin hpairwise hcauses)
  | nil =>
    obtain ⟨_, hall, hmoved⟩ := relocateAll_eq hmarks hfits hin hpairwise hcauses
    cases hok.symm.trans hall
    exact hmoved

/-- What is relocated before a word does not touch it. -/
theorem word_of_relocateAll (hmarks : Marks starts records memory.size)
    (hfits : start + memory.size < wordLimit)
    (hin : ∀ slot ∈ positions.map (· + offset), slot + 8 ≤ memory.size)
    (hpairwise : (positions.map (· + offset)).Pairwise fun x y => x + 8 ≤ y)
    (hsplit : positions = before ++ pos :: after)
    (hok : relocateAll starts start base offset memory before = .ok (moved, words)) :
    moved.word (pos + offset) = memory.word (pos + offset) := by
  rw [hsplit, List.map_append, List.map_cons] at hin hpairwise
  obtain ⟨hbefore, _, hless⟩ := List.pairwise_append.mp hpairwise
  have hmoved := moved_of_relocateAll hmarks hfits
    (fun slot hslot => hin slot (List.mem_append_left _ hslot)) hbefore hok
  exact hmoved.word_of_apart fun slot hslot => .inr (hless slot hslot _ List.mem_cons_self)

end Order

/-- The records tile the bytes behind the header, and the scan has noted where they start, and each
word of a reference or a root once. No two pieces of the records overlap. -/
structure Scan.Exact (found : Scan) (b : Bytes) (records : List Record) : Prop where
  bounds : ∀ r ∈ records, headerSize ≤ r.offset ∧ r.offset + r.size ≤ b.size
  existsUnique_record : ∀ i, headerSize ≤ i → i < b.size →
    ∃! r, r ∈ records ∧ r.offset ≤ i ∧ i < r.offset + r.size
  start_iff : ∀ k, found.starts[k]? = some true ↔
    ∃ r ∈ records, r.isTerminator = false ∧ r.offset = 8 * k
  terminators_eq : found.terminators = (records.filter Record.isTerminator).map Record.offset
  references_eq : (piecesOf records).filter (fun p => p.part = .reference) =
    found.slots.map (Piece.word .reference)
  roots_eq : (piecesOf records).filter (fun p => p.part = .root) =
    found.terminators.map fun pos => Piece.word .root (pos + 8)
  nodup_slots : found.slots.Nodup
  aligned : ∀ slot ∈ found.slots, slot % 8 = 0
  inside : ∀ slot ∈ found.slots, ∃ r ∈ records, r.isTerminator = false ∧ slot ∈ r.slots ∧
    r.offset + 8 ≤ slot ∧ slot + 8 ≤ r.offset + r.size
  apart : (piecesOf records).Pairwise Piece.Precedes

/-- Each word is still as in the image when it is relocated, and in the end all are moved once, with
nothing else changed. -/
structure Scan.RelocatesOnce (found : Scan) (b : Bytes) (start base : Nat) : Prop where
  reference : ∀ before slot after memory words, found.slots = before ++ slot :: after →
    relocateAll found.starts start base 0 found.memory before = .ok (memory, words) →
    memory.word slot = b.word slot
  root : ∀ before pos after objects memory words, found.terminators = before ++ pos :: after →
    relocateAll found.starts start base 0 found.memory found.slots = .ok objects →
    relocateAll found.starts start base 8 objects.1 before = .ok (memory, words) →
    memory.word (pos + 8) = b.word (pos + 8)
  word_eq : ∀ memory roots, found.fixup start base = .ok (memory, roots) →
    ∀ slot ∈ found.slots ++ found.terminators.map (· + 8),
      memory.word slot = movedWord start base (b.word slot)
  same : ∀ memory roots, found.fixup start base = .ok (memory, roots) →
    ∀ i, (∀ slot ∈ found.slots ++ found.terminators.map (· + 8), i < slot ∨ slot + 8 ≤ i) →
      memory[i]? = found.memory[i]?

section Scans
variable {start base : Nat} {records : List Record} {b : Bytes} {found : Scan}

/-- A scan succeeds only if the reader finds records, and then it has passed these. -/
theorem records_of_scan (hsize : b.size ≤ sizeLimit) (hfits : start + b.size < wordLimit)
    (hscan : scan b start base = .ok found) :
    ∃ records, Tiling b base headerSize records ∧
      found = records.foldl (Scan.add start) (Scan.begin b) := by
  by_cases hheader : headerSize ≤ b.size
  · cases hrecords : b.records base with
    | error cause => cases hscan.symm.trans (scan_of_error hsize hfits hheader hrecords)
    | ok records =>
      have hfound := hscan.symm.trans (scan_of_records hsize hfits hheader hrecords)
      exact ⟨records.toList, (Bytes.tiling_of_records hheader hrecords).1, Except.ok.inj hfound⟩
  · -- Without a header there is no record, so the last one cannot be a terminator.
    have hrun : (Scan.begin b).run start base = .ok (Scan.begin b) := by
      rw [Scan.run]
      exact if_neg fun hlt => hheader (Nat.le_of_lt hlt)
    rw [scan, hrun] at hscan
    cases hscan

section Words
variable (h : Tiling b base headerSize records)
include h

theorem exact_foldl (start : Nat) :
    (records.foldl (Scan.add start) (Scan.begin b)).Exact b records := by
  have hslots := Scan.slots_foldl start (Scan.begin b) records
  have hterminators := Scan.terminators_foldl start (Scan.begin b) records
  have hmarks := marks_foldl start h
  generalize records.foldl (Scan.add start) (Scan.begin b) = found
    at hslots hterminators hmarks ⊢
  have hinside : ∀ slot ∈ found.slots, ∃ r ∈ records, r.isTerminator = false ∧ slot ∈ r.slots ∧
      r.offset + 8 ≤ slot ∧ slot + 8 ≤ r.offset + r.size := by
    intro slot hslot
    obtain ⟨r, hr, hmem⟩ := List.mem_flatMap.mp (hslots ▸ hslot)
    exact ⟨r, hr, Record.isTerminator_of_mem_slots hmem, hmem, (Record.le_of_mem_slots hmem).1,
      (h.bounds_of_mem_slots hr hmem).2⟩
  refine ⟨?_, fun i hle hlt => h.existsUnique_record hle hlt, hmarks.start_iff, hterminators,
    ?_, ?_, ?_, ?_, hinside, h.pairwise_pieces⟩
  · intro r hr
    exact ⟨h.le_offset r hr, (h.isRecord r hr).fits⟩
  · rw [filter_reference_piecesOf, hslots]
    rfl
  · rw [filter_root_piecesOf, hterminators, rootSlots, List.map_map]
    rfl
  · rw [hslots]
    exact h.pairwise_slots.imp fun hle heq => by omega
  · intro slot hslot
    obtain ⟨r, hr, _, hmem, hle, _⟩ := hinside slot hslot
    have hoffset := hmarks.aligned r hr
    have hdistance := (Record.le_of_mem_slots hmem).2
    omega

end Words

end Scans

section Fixup
variable {start base slot : Nat} {records : List Record} {b memory first : Bytes} {found : Scan}
variable {roots words : List Nat}
variable (h : Tiling b base headerSize records) (hs : Found found records b)
include h hs

theorem Found.le_size (hslot : slot ∈ records.flatMap Record.slots ++ rootSlots records) :
    slot + 8 ≤ found.memory.size := by
  obtain ⟨r, hr, _, _, hend⟩ := bounds_of_reference h hslot
  have hrecord := (h.isRecord r hr).fits
  rw [hs.size_eq]
  omega

theorem Found.slots_in : ∀ slot ∈ found.slots.map (· + 0), slot + 8 ≤ found.memory.size := by
  rw [hs.slots_eq]
  exact fun slot hslot => hs.le_size h (List.mem_append_left _ hslot)

variable (hfits : start + b.size < wordLimit)
include hfits

theorem Found.moved_objects
    (hok : relocateAll found.starts start base 0 found.memory found.slots = .ok (first, words)) :
    Moved start base (records.flatMap Record.slots) found.memory first := by
  have hmoved := moved_of_relocateAll hs.marks (hs.size_eq ▸ hfits) (hs.slots_in h)
    (hs.slots_eq ▸ h.pairwise_slots) hok
  rwa [hs.slots_eq] at hmoved

section Roots
variable (hok : relocateAll found.starts start base 0 found.memory found.slots = .ok (first, words))
include hok

theorem Found.marks_of_objects : Marks found.starts records first.size :=
  (hs.moved_objects h hfits hok).size_eq ▸ hs.marks

theorem Found.roots_in : ∀ slot ∈ found.terminators.map (· + 8), slot + 8 ≤ first.size := by
  rw [hs.roots_eq, (hs.moved_objects h hfits hok).size_eq]
  exact fun slot hslot => hs.le_size h (List.mem_append_right _ hslot)

theorem Found.fits_of_objects : start + first.size < wordLimit := by
  rw [(hs.moved_objects h hfits hok).size_eq, hs.size_eq]
  exact hfits

end Roots

theorem Found.moved_of_fixup (hok : found.fixup start base = .ok (memory, roots)) :
    Moved start base (records.flatMap Record.slots ++ rootSlots records) found.memory memory := by
  obtain ⟨⟨first, words⟩, hobjects, hroots⟩ := bind_eq_ok_iff.mp hok
  have hmoved := hs.moved_objects h hfits hobjects
  have hmovedRoots := moved_of_relocateAll (hs.marks_of_objects h hfits hobjects)
    (hs.fits_of_objects h hfits hobjects) (hs.roots_in h hfits hobjects)
    (hs.roots_eq ▸ h.pairwise_rootSlots) hroots
  rw [hs.roots_eq] at hmovedRoots
  exact hmoved.append hmovedRoots (slots_apart_rootSlots h)

theorem Found.relocatesOnce : found.RelocatesOnce b start base := by
  have hslots : found.slots = records.flatMap Record.slots :=
    (List.map_id _).symm.trans hs.slots_eq
  refine ⟨?_, ?_, ?_, ?_⟩
  · intro before slot after memory words hsplit hok
    have hword := word_of_relocateAll hs.marks (hs.size_eq ▸ hfits) (hs.slots_in h)
      (hs.slots_eq ▸ h.pairwise_slots) hsplit hok
    have hmem : slot ∈ records.flatMap Record.slots := by
      rw [← hslots, hsplit]
      exact List.mem_append_right _ List.mem_cons_self
    exact hword.trans (hs.word h (List.mem_append_left _ hmem))
  · rintro before pos after ⟨first, firstWords⟩ memory words hsplit hobjects hok
    have hword := word_of_relocateAll (hs.marks_of_objects h hfits hobjects)
      (hs.fits_of_objects h hfits hobjects) (hs.roots_in h hfits hobjects)
      (hs.roots_eq ▸ h.pairwise_rootSlots) hsplit hok
    have hmem : pos + 8 ∈ rootSlots records := by
      rw [← hs.roots_eq, hsplit]
      exact List.mem_map_of_mem (List.mem_append_right _ List.mem_cons_self)
    -- The references were moved before the roots are looked at, but are not where the roots are.
    have hkept := (hs.moved_objects h hfits hobjects).word_of_apart fun slot hslot =>
      (slots_apart_rootSlots h slot hslot _ hmem).symm
    exact hword.trans (hkept.trans (hs.word h (List.mem_append_right _ hmem)))
  · intro memory roots hok slot hslot
    rw [hslots, hs.roots_eq] at hslot
    rw [(hs.moved_of_fixup h hfits hok).word slot hslot, hs.word h hslot]
  · intro memory roots hok i hi
    rw [hslots, hs.roots_eq] at hi
    exact (hs.moved_of_fixup h hfits hok).same i hi

end Fixup

/-- If a scan succeeds, it has split the image into records and found each reference and each root
once; relocating them moves each of these words once, from what it was in the image. -/
theorem scan_finds_once {b : Bytes} {start base : Nat} {found : Scan} (hsize : b.size ≤ sizeLimit)
    (hfits : start + b.size < wordLimit) (hscan : scan b start base = .ok found) :
    ∃ records, Tiling b base headerSize records ∧ found.Exact b records ∧
      found.RelocatesOnce b start base := by
  obtain ⟨records, htiling, rfl⟩ := records_of_scan hsize hfits hscan
  exact ⟨records, htiling, exact_foldl htiling start,
    (found_foldl htiling start).relocatesOnce htiling hfits⟩

set_option maxRecDepth 4096 in
/-- The knot holds two references, in its first record. -/
theorem knot_found_once : knot.size ≤ sizeLimit ∧ 65536 + knot.size < wordLimit ∧
    ∃ found records, scan knot 65536 4096 = .ok found ∧ found.slots = [40, 48] ∧
      Tiling knot 4096 headerSize records ∧ found.Exact knot records ∧
      found.RelocatesOnce knot 65536 4096 := by
  have hsize : knot.size ≤ sizeLimit := by decide
  have hfits : 65536 + knot.size < wordLimit := by decide
  have hslots : (scan knot 65536 4096).map Scan.slots = .ok [40, 48] := by cbv
  cases hscan : scan knot 65536 4096 with
  | error e =>
    rw [hscan] at hslots
    cases hslots
  | ok found =>
    rw [hscan] at hslots
    obtain ⟨records, hfound⟩ := scan_finds_once hsize hfits hscan
    exact ⟨hsize, hfits, found, records, rfl, Except.ok.inj hslots, hfound⟩

end InPlace
end HeapImage
