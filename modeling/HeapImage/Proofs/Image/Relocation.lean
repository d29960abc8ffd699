import HeapImage.Proofs.Image.Dangling
import HeapImage.Proofs.Image.Scanning

/-!
# Relocating references

After a scan over the records of an image, references and roots stand where the scan has noted
them, and no two of them overlap. Relocating them in that order fails at the first one that denotes
no record, like the reader does; otherwise all of them are moved, and the memory shows the graph
of the image at its new address.
-/

namespace HeapImage
set_option autoImplicit false

section Places
variable {bytes : Bytes} {base pos : Nat} {records : List Record} {r s : Record} {slot : Nat}

/-- The references to children stand behind what a scan sets, and inside of their record. -/
theorem Record.bounds_of_mem_slots (h : slot ∈ r.slots) :
    r.offset + r.shape.touched ≤ slot ∧ r.offset + r.shape.slotRange.1 ≤ slot ∧
      slot + 8 ≤ r.offset + r.shape.slotRange.1 + 8 * r.shape.slotRange.2 := by
  obtain ⟨i, hi, rfl⟩ := List.mem_map.mp h
  have hlt := List.mem_range.mp hi
  have htouched : r.shape.touched ≤ r.shape.slotRange.1 := by
    cases hs : r.shape <;> simp only [hs, Shape.slotRange, Shape.touched] at hlt ⊢ <;> omega
  omega

theorem Record.pairwise_slots (r : Record) : r.slots.Pairwise fun x y => x + 8 ≤ y := by
  rw [slots, List.pairwise_map]
  apply List.pairwise_lt_range.imp
  intro i j hij
  omega

theorem Tiling.apart (h : Tiling bytes base pos records) (hr : r ∈ records) (hs : s ∈ records) :
    r = s ∨ r.offset + r.size ≤ s.offset ∨ s.offset + s.size ≤ r.offset := by
  induction h with
  | done => cases hr
  | cons _ hrest ih =>
    rcases List.mem_cons.mp hr with rfl | hlater
    · rcases List.mem_cons.mp hs with rfl | hlater
      · exact .inl rfl
      · exact .inr (.inl (hrest.le_offset s hlater))
    · rcases List.mem_cons.mp hs with rfl | hlater'
      · exact .inr (.inr (hrest.le_offset r hlater))
      · exact ih hlater hlater'

theorem Tiling.offset_mod (h : Tiling bytes base pos records) (hpos : pos % 8 = 0) :
    ∀ r ∈ records, r.offset % 8 = 0 := by
  induction h with
  | done => exact nofun
  | cons hr _ ih =>
    have hsize := hr.size_mod
    exact List.forall_mem_cons.mpr ⟨hpos, ih (by omega)⟩

theorem Tiling.bounds_of_mem_slots (h : Tiling bytes base pos records) (hr : r ∈ records)
    (hslot : slot ∈ r.slots) :
    r.offset + r.shape.touched ≤ slot ∧ slot + 8 ≤ r.offset + r.size := by
  have hbounds := Record.bounds_of_mem_slots hslot
  have hrange := r.shape.slotRange_le
  have hextent := (h.isRecord r hr).extent_le
  omega

theorem Tiling.pairwise_slots (h : Tiling bytes base pos records) :
    (records.flatMap Record.slots).Pairwise fun x y => x + 8 ≤ y := by
  rw [List.pairwise_flatMap]
  refine ⟨fun r _ => r.pairwise_slots, h.pairwise.imp_of_mem ?_⟩
  intro r s hr hs hle x hx y hy
  have hleft := h.bounds_of_mem_slots hr hx
  have hright := h.bounds_of_mem_slots hs hy
  omega

theorem Tiling.pairwise_rootSlots (h : Tiling bytes base pos records) :
    (rootSlots records).Pairwise fun x y => x + 8 ≤ y := by
  rw [rootSlots, List.pairwise_map, List.pairwise_map]
  have hsub := h.pairwise.sublist (List.filter_sublist (p := Record.isTerminator))
  apply hsub.imp_of_mem
  intro r s hr _ hle
  have := (h.isRecord r (List.mem_filter.mp hr).1).size_pos
  omega

end Places

namespace InPlace
namespace Scan
variable {s : Scan} {records : List Record} {start i k : Nat}

theorem slots_foldl (start : Nat) (s : Scan) (records : List Record) :
    (records.foldl (add start) s).slots = s.slots ++ records.flatMap Record.slots := by
  induction records generalizing s with
  | nil => exact (List.append_nil _).symm
  | cons r rest ih =>
    rw [List.foldl_cons, ih, List.flatMap_cons, ← List.append_assoc]
    rfl

theorem terminators_foldl (start : Nat) (s : Scan) (records : List Record) :
    (records.foldl (add start) s).terminators =
      s.terminators ++ (records.filter Record.isTerminator).map Record.offset := by
  induction records generalizing s with
  | nil => exact (List.append_nil _).symm
  | cons r rest ih =>
    rw [List.foldl_cons, ih, add]
    cases hr : r.isTerminator <;> simp [hr]

theorem closed_foldl (start : Nat) (s : Scan) (records : List Record) :
    (records.foldl (add start) s).closed =
      (records.getLast?.map Record.isTerminator).getD s.closed := by
  induction records generalizing s with
  | nil => rfl
  | cons r rest ih =>
    rw [List.foldl_cons, ih, List.getLast?_cons]
    cases rest.getLast? <;> rfl

theorem size_memory_foldl (start : Nat) (s : Scan) (records : List Record) :
    (records.foldl (add start) s).memory.size = s.memory.size := by
  induction records generalizing s with
  | nil => rfl
  | cons r rest ih => exact (ih _).trans (r.size_adjusted start s.memory)

theorem getElem?_memory_foldl
    (h : ∀ r ∈ records, i < r.offset ∨ r.offset + r.shape.touched ≤ i) :
    (records.foldl (add start) s).memory[i]? = s.memory[i]? := by
  induction records generalizing s with
  | nil => rfl
  | cons r rest ih =>
    obtain ⟨hr, hrest⟩ := List.forall_mem_cons.mp h
    exact (ih hrest).trans (Record.getElem?_adjusted hr)

theorem starts_foldl :
    (records.foldl (add start) s).starts[k]? = some true ↔ s.starts[k]? = some true ∨
      k < s.starts.size ∧ ∃ r ∈ records, r.isTerminator = false ∧ r.offset / 8 = k := by
  induction records generalizing s with
  | nil => simp
  | cons r rest ih =>
    rw [List.foldl_cons, ih, add]
    cases hr : r.isTerminator with
    | true => simp [hr]
    | false =>
      simp only [Bool.false_eq_true, if_false, Array.getElem?_setIfInBounds,
        Array.size_setIfInBounds, List.mem_cons, exists_eq_or_imp, hr]
      by_cases heq : r.offset / 8 = k
      · by_cases hlt : k < s.starts.size <;> simp [heq, hlt]
      · simp [heq]

end Scan

/-- The flags say where object records start. These starts are aligned, and inside of the given
size. -/
structure Marks (starts : Array Bool) (records : List Record) (size : Nat) : Prop where
  start_iff : ∀ k, starts[k]? = some true ↔
    ∃ r ∈ records, r.isTerminator = false ∧ r.offset = 8 * k
  aligned : ∀ r ∈ records, r.offset % 8 = 0
  inside : ∀ r ∈ records, r.offset < size

theorem marks_foldl {b : Bytes} {base : Nat} {records : List Record} (start : Nat)
    (h : Tiling b base headerSize records) :
    Marks (records.foldl (Scan.add start) (Scan.begin b)).starts records b.size := by
  have hmod := h.offset_mod rfl
  have hinside : ∀ r ∈ records, r.offset < b.size := by
    intro r hr
    have hfits := (h.isRecord r hr).fits
    have hsize := (h.isRecord r hr).size_pos
    omega
  refine ⟨fun k => ?_, hmod, hinside⟩
  have hnone : (Scan.begin b).starts[k]? ≠ some true := by
    rw [Scan.begin, Array.getElem?_replicate]
    split <;> simp
  rw [Scan.starts_foldl, or_iff_right hnone]
  constructor
  · rintro ⟨_, r, hr, hobject, hk⟩
    have := hmod r hr
    exact ⟨r, hr, hobject, by omega⟩
  · rintro ⟨r, hr, hobject, hk⟩
    have hfits := (h.isRecord r hr).fits
    have hsize := (h.isRecord r hr).size_pos
    refine ⟨?_, r, hr, hobject, by omega⟩
    rw [Scan.begin, Array.size_replicate]
    omega

/-- The word that takes the place of a reference. -/
def movedWord (start base word : Nat) : Nat :=
  if word % 2 = 1 then word else start + (word - base)

/-- The words at some offsets are moved, and the rest of the memory is left as it is. -/
structure Moved (start base : Nat) (slots : List Nat) (memory moved : Bytes) : Prop where
  size_eq : moved.size = memory.size
  word : ∀ slot ∈ slots, moved.word slot = movedWord start base (memory.word slot)
  same : ∀ i, (∀ slot ∈ slots, i < slot ∨ slot + 8 ≤ i) → moved[i]? = memory[i]?

section Words
variable {memory first second : Bytes} {start base pos slot word : Nat} {xs ys slots : List Nat}

theorem Moved.nil : Moved start base [] memory memory := ⟨rfl, nofun, fun _ _ => rfl⟩

theorem Moved.word_of_apart (h : Moved start base slots memory first)
    (hapart : ∀ slot ∈ slots, pos + 8 ≤ slot ∨ slot + 8 ≤ pos) :
    first.word pos = memory.word pos := by
  apply Bytes.field_congr
  intro i hle hlt
  apply h.same
  intro slot hslot
  have := hapart slot hslot
  omega

theorem Moved.append (h : Moved start base xs memory first) (h' : Moved start base ys first second)
    (hapart : ∀ x ∈ xs, ∀ y ∈ ys, x + 8 ≤ y ∨ y + 8 ≤ x) :
    Moved start base (xs ++ ys) memory second := by
  refine ⟨h'.size_eq.trans h.size_eq, fun slot hslot => ?_, fun i hi => ?_⟩
  · rcases List.mem_append.mp hslot with hx | hy
    · rw [h'.word_of_apart (hapart slot hx), h.word slot hx]
    · have hbefore := h.word_of_apart fun x hx => (hapart x hx slot hy).symm
      rw [h'.word slot hy, hbefore]
  · rw [h'.same i fun y hy => hi y (List.mem_append_right _ hy),
      h.same i fun x hx => hi x (List.mem_append_left _ hx)]

theorem moved_overwrite (hslot : slot + 8 ≤ memory.size)
    (hword : movedWord start base (memory.word slot) = word) (hlt : word < 2 ^ 64) :
    Moved start base [slot] memory (memory.overwrite slot (leBytes 8 word)) := by
  refine ⟨Bytes.size_overwrite _ _ _, fun other hother => ?_, fun i hi => ?_⟩
  · obtain rfl := List.mem_singleton.mp hother
    rw [hword]
    apply Bytes.Shows.word _ hlt
    intro i hi
    rw [length_leBytes] at hi
    rw [Bytes.getElem?_overwrite, length_leBytes, if_pos ⟨by omega, by omega, by omega⟩,
      Nat.add_sub_cancel_left]
  · have := hi slot List.mem_cons_self
    rw [Bytes.getElem?_overwrite, length_leBytes]
    exact if_neg (by omega)

end Words

section Relocating
variable {memory : Bytes} {start base offset slot word : Nat} {starts : Array Bool}
variable {records : List Record} {positions : List Nat}

theorem target?_eq {size : Nat} (hmarks : Marks starts records size) (heven : word % 2 ≠ 1) :
    target? starts base word =
      if IsReference base records word then some (word - base) else none := by
  unfold target?
  congr 1
  rw [eq_iff_iff, IsReference, or_iff_right heven, hmarks.start_iff]
  constructor
  · rintro ⟨hle, hword, r, hr, hobject, hoffset⟩
    exact ⟨r, hr, hobject, by omega⟩
  · rintro ⟨r, hr, hobject, rfl⟩
    have := hmarks.aligned r hr
    exact ⟨by omega, by omega, r, hr, hobject, by omega⟩

theorem relocate_of_isReference (hmarks : Marks starts records memory.size)
    (hfits : start + memory.size < wordLimit) (hslot : slot + 8 ≤ memory.size)
    (hword : memory.word slot = word) (h : IsReference base records word) :
    ∃ moved, relocate starts start base memory slot = .ok (moved, movedWord start base word) ∧
      Moved start base [slot] memory moved := by
  rw [relocate, readWord_eq hslot, hword]
  change ∃ moved, (if word % 2 = 1 then _ else _) = _ ∧ _
  by_cases hodd : word % 2 = 1
  · have hsame : movedWord start base word = word := if_pos hodd
    rw [if_pos hodd, hsame]
    refine ⟨memory, rfl, rfl, fun other hother => ?_, fun _ _ => rfl⟩
    obtain rfl := List.mem_singleton.mp hother
    rw [hword, hsame]
  · have hmove : movedWord start base word = start + (word - base) := if_neg hodd
    obtain ⟨r, hr, _, htarget⟩ := h.resolve_left hodd
    have hinside := hmarks.inside r hr
    have hlt : start + (word - base) < wordLimit := by omega
    have hmoved := moved_overwrite hslot ((congrArg _ hword).trans hmove) hlt
    rw [if_neg hodd, target?_eq hmarks hodd, if_pos h]
    dsimp only
    rw [plus_eq hlt]
    change ∃ moved, (writeWord memory slot (start + (word - base)) >>= _) = _ ∧ _
    rw [writeWord_eq hslot, hmove]
    exact ⟨_, rfl, hmoved⟩

theorem relocate_of_not_isReference {size : Nat} (hmarks : Marks starts records size)
    (hslot : slot + 8 ≤ memory.size) (hword : memory.word slot = word)
    (h : ¬IsReference base records word) :
    relocate starts start base memory slot = reject (.dangling slot word) := by
  have hodd : word % 2 ≠ 1 := fun hodd => h (.inl hodd)
  rw [relocate, readWord_eq hslot, hword]
  change (if word % 2 = 1 then _ else _) = _
  rw [if_neg hodd, target?_eq hmarks hodd, if_neg h]

theorem relocateAll_cons_of_ok {first : Bytes} {pos : Nat} {rest : List Nat}
    (hpos : pos + offset < wordLimit)
    (h : relocate starts start base memory (pos + offset) = .ok (first, word)) :
    relocateAll starts start base offset memory (pos :: rest) =
      (relocateAll starts start base offset first rest).map
        fun later => (later.1, word :: later.2) := by
  rw [relocateAll, plus_eq hpos]
  change (relocate starts start base memory (pos + offset) >>= _) = _
  rw [h]
  change (relocateAll starts start base offset first rest >>= _) = _
  cases relocateAll starts start base offset first rest <;> rfl

theorem relocateAll_cons_of_error {e : Halt} {pos : Nat} {rest : List Nat}
    (hpos : pos + offset < wordLimit)
    (h : relocate starts start base memory (pos + offset) = .error e) :
    relocateAll starts start base offset memory (pos :: rest) = .error e := by
  rw [relocateAll, plus_eq hpos]
  change (relocate starts start base memory (pos + offset) >>= _) = _
  rw [h]
  rfl

/-- All references are moved, or the first is reported that denotes no record. -/
theorem relocateAll_eq (hmarks : Marks starts records memory.size)
    (hfits : start + memory.size < wordLimit)
    (hin : ∀ slot ∈ positions.map (· + offset), slot + 8 ≤ memory.size)
    (hpairwise : (positions.map (· + offset)).Pairwise fun x y => x + 8 ≤ y)
    {causes : List Corruption}
    (hcauses : danglings base records memory (positions.map (· + offset)) = causes) :
    match causes with
      | cause :: _ => relocateAll starts start base offset memory positions = reject cause
      | [] => ∃ moved, relocateAll starts start base offset memory positions =
          .ok (moved, (positions.map (· + offset)).map fun slot =>
            movedWord start base (memory.word slot)) ∧
        Moved start base (positions.map (· + offset)) memory moved := by
  induction positions generalizing memory with
  | nil =>
    subst hcauses
    exact ⟨memory, rfl, .nil⟩
  | cons pos rest ih =>
    rw [List.map_cons] at hin hpairwise hcauses
    obtain ⟨hslot, hrestIn⟩ := List.forall_mem_cons.mp hin
    obtain ⟨hbehind, hrest⟩ := List.pairwise_cons.mp hpairwise
    have hpos : pos + offset < wordLimit := by omega
    obtain ⟨word, hword⟩ : ∃ word, memory.word (pos + offset) = word := ⟨_, rfl⟩
    by_cases href : IsReference base records word
    · obtain ⟨first, hrelocate, hfirst⟩ := relocate_of_isReference hmarks hfits hslot hword href
      have hapart : ∀ x ∈ [pos + offset], ∀ y ∈ rest.map (· + offset), x + 8 ≤ y ∨ y + 8 ≤ x := by
        intro x hx y hy
        obtain rfl := List.mem_singleton.mp hx
        exact .inl (hbehind y hy)
      -- What is still to be moved stands behind the word just written, and reads as before.
      have hwords : ∀ y ∈ rest.map (· + offset), first.word y = memory.word y := by
        intro y hy
        exact hfirst.word_of_apart fun x hx => (hapart x hx y hy).symm
      rw [danglings_cons_of_isReference hword href, ← danglings_congr hwords] at hcauses
      have hnext := ih (hfirst.size_eq ▸ hmarks) (hfirst.size_eq ▸ hfits)
        (hfirst.size_eq ▸ hrestIn) hrest hcauses
      rw [relocateAll_cons_of_ok hpos hrelocate]
      cases causes with
      | cons cause _ =>
        dsimp only at hnext ⊢
        rw [hnext]
        rfl
      | nil =>
        obtain ⟨moved, hmove, hmoved⟩ := hnext
        refine ⟨moved, ?_, hfirst.append hmoved hapart⟩
        rw [hmove, List.map_cons, List.map_cons, hword, List.map_congr_left fun y hy =>
          congrArg (movedWord start base) (hwords y hy)]
        rfl
    · rw [danglings_cons_of_not_isReference hword href] at hcauses
      subst hcauses
      exact relocateAll_cons_of_error hpos (relocate_of_not_isReference hmarks hslot hword href)

end Relocating

end InPlace

end HeapImage
