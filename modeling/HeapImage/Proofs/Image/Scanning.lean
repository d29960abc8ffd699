import HeapImage.Image.InPlace
import HeapImage.Proofs.Bytes.Shows
import HeapImage.Proofs.Image.Grammar

/-!
# Scanning without faults

A scan finds the records that the reader finds, and rejects what the reader rejects. What it has
changed in passed records is not looked at again, and in records that are known to fit no access
and no sum is out of range.
-/

namespace HeapImage
set_option autoImplicit false

theorem Shape.slotRange_le (s : Shape) : s.slotRange.1 + 8 * s.slotRange.2 ≤ s.extent := by
  cases s <;> simp only [slotRange, extent] <;> omega

/-- The memory with the record passed: it is marked, and its lock and limbs are set. -/
def Record.adjusted (start : Nat) (r : Record) (memory : Bytes) : Bytes :=
  let memory := memory.overwrite r.offset (leBytes 4 0)
  match r.shape with
  | .mutableRef => memory.overwrite (r.offset + 8) (leBytes 4 0)
  | .bigInteger .. => memory.overwrite (r.offset + 8) (leBytes 8 (start + (r.offset + 24)))
  | _ => memory

/-- How much of a record, from its start on, is set when it is passed. -/
def Shape.touched : Shape → Nat
  | mutableRef => 12
  | bigInteger .. => 16
  | _ => 4

theorem Shape.touched_le (s : Shape) : s.touched ≤ s.extent := by
  cases s <;> simp only [touched, extent] <;> omega

namespace Record
variable {r : Record} {start i : Nat} {memory : Bytes}

theorem size_adjusted (r : Record) (start : Nat) (memory : Bytes) :
    (r.adjusted start memory).size = memory.size := by
  unfold adjusted
  cases r.shape <;> simp only [Bytes.size_overwrite]

theorem getElem?_adjusted (h : i < r.offset ∨ r.offset + r.shape.touched ≤ i) :
    (r.adjusted start memory)[i]? = memory[i]? := by
  unfold adjusted
  cases hshape : r.shape <;> simp only [hshape, Shape.touched] at h <;>
    simp only [Bytes.getElem?_overwrite, length_leBytes]
  case mutableRef | bigInteger => rw [if_neg (by omega), if_neg (by omega)]
  all_goals exact if_neg (by omega)

end Record

namespace Bytes
variable {first second : Bytes} {pos : Nat}

theorem recordAt_congr (hsize : first.size = second.size)
    (h : ∀ i, pos ≤ i → first[i]? = second[i]?) (base : Nat) :
    first.recordAt base pos = second.recordAt base pos := by
  have hword : ∀ offset, first.recordWord pos offset = second.recordWord pos offset := by
    intro offset
    rw [recordWord, recordWord, hsize, word, word, field_congr fun i hle _ => h i (by omega)]
  have hhalf : first.half (pos + 4) = second.half (pos + 4) :=
    field_congr fun i hle _ => h i (by omega)
  have hshape : ∀ tag extra,
      first.shapeAt base pos tag extra = second.shapeAt base pos tag extra := by
    intro tag extra
    simp only [shapeAt, hword]
  rw [recordAt, recordAt, hsize, hhalf]
  simp only [hshape]

end Bytes

namespace InPlace

/-- What the reader reports, as the outcome of loading in place. -/
def lift {α : Type} (x : Except Corruption α) : Except Halt α := x.mapError .corrupt

section Lifting
variable {α β : Type}

theorem lift_ok (a : α) : lift (.ok a) = .ok a := rfl

theorem lift_bind (x : Except Corruption α) (f : α → Except Corruption β) :
    lift (x >>= f) = lift x >>= fun a => lift (f a) := by
  cases x <;> rfl

end Lifting

section Access
variable {memory : Bytes} {pos offset word a b i : Nat}

theorem plus_eq (h : a + b < wordLimit) : plus a b = .ok (a + b) := if_pos h

theorem minus_eq (h : b ≤ a) : minus a b = .ok (a - b) := if_pos h

theorem times_eq (h : a * b < wordLimit) : times a b = .ok (a * b) := if_pos h

theorem readWord_eq (h : pos + 8 ≤ memory.size) : readWord memory pos = .ok (memory.word pos) :=
  if_pos h

theorem writeWord_eq (h : pos + 8 ≤ memory.size) :
    writeWord memory pos word = .ok (memory.overwrite pos (leBytes 8 word)) :=
  if_pos h

theorem writeHalf_eq (h : pos + 4 ≤ memory.size) :
    writeHalf memory pos word = .ok (memory.overwrite pos (leBytes 4 word)) :=
  if_pos h

theorem setFlag_eq {flags : Array Bool} (h : i < flags.size) :
    setFlag flags i = .ok (flags.setIfInBounds i true) :=
  if_pos h

theorem wordAt_eq (h : pos + offset + 8 < wordLimit) :
    wordAt memory pos offset = lift (memory.recordWord pos offset) := by
  rw [wordAt, plus_eq (by omega), Bytes.recordWord]
  change (plus (pos + offset) 8 >>= _) = _
  rw [plus_eq h]
  change (if memory.size < pos + offset + 8 then _ else _) = _
  by_cases hin : pos + offset + 8 ≤ memory.size
  · rw [if_neg (by omega), if_pos hin, readWord_eq hin]
    rfl
  · rw [if_pos (by omega), if_neg hin]
    rfl

theorem halfAt_eq (h : pos + offset + 4 < wordLimit) :
    halfAt memory pos offset = if memory.size < pos + offset + 4 then reject (.truncated pos)
      else .ok (memory.half (pos + offset)) := by
  rw [halfAt, plus_eq (by omega)]
  change (plus (pos + offset) 4 >>= _) = _
  rw [plus_eq h]
  change (if memory.size < pos + offset + 4 then _ else readHalf memory (pos + offset)) = _
  by_cases hin : memory.size < pos + offset + 4
  · rw [if_pos hin, if_pos hin]
  · rw [if_neg hin, if_neg hin, readHalf, if_pos (by omega)]

theorem shapeAt_eq (h : pos + 24 < wordLimit) (base tag extra : Nat) :
    shapeAt memory base pos tag extra = lift (memory.shapeAt base pos tag extra) := by
  have hfirst : wordAt memory pos 8 = _ := wordAt_eq (by omega)
  have hsecond : wordAt memory pos 16 = _ := wordAt_eq (by omega)
  unfold shapeAt
  split <;> simp only [Bytes.shapeAt, hfirst, hsecond, lift_bind]
  case h_1 | h_2 | h_3 | h_4 | h_6 | h_7 | h_8 | h_10 | h_11 => rfl
  case h_5 =>
    congr 1
    funext closure
    rw [plus_eq (by omega)]
    split <;> rfl
  case h_9 =>
    congr 1
    funext length
    congr 1
    funext limbs
    rw [plus_eq h, plus_eq (by omega)]
    change (if limbs ≠ (base + (pos + 24)) % wordLimit then _ else _) = _
    split
    · rfl
    · split <;> rfl

end Access

namespace Scan

def add (start : Nat) (s : Scan) (r : Record) : Scan where
  memory := r.adjusted start s.memory
  offset := r.offset + r.size
  starts := if r.isTerminator then s.starts else s.starts.setIfInBounds (r.offset / 8) true
  slots := s.slots ++ r.slots
  terminators := if r.isTerminator then s.terminators ++ [r.offset] else s.terminators
  closed := r.isTerminator

/-- A scan of a memory that fits into the address space, with room for its flags. -/
structure Fits (s : Scan) (start : Nat) : Prop where
  size_le : s.memory.size ≤ sizeLimit
  fits : start + s.memory.size < wordLimit
  starts : s.starts.size = s.memory.size / 8
  aligned : s.offset % 8 = 0

section Steps
variable {s : Scan} {start base size : Nat} {shape : Shape}

theorem mapM_eq_map {α β ε : Type} {as : List α} {f : α → Except ε β} {g : α → β}
    (h : ∀ a ∈ as, f a = .ok (g a)) : as.mapM f = .ok (as.map g) := by
  induction as with
  | nil => rfl
  | cons a rest ih =>
    obtain ⟨ha, hrest⟩ := List.forall_mem_cons.mp h
    rw [List.mapM_cons, ha, ih hrest]
    rfl

theorem note_eq (hs : s.Fits start) (hsize : shape.extent ≤ size) (hpos : 8 ≤ size)
    (hfits : s.offset + size ≤ s.memory.size) :
    s.note shape = .ok
      { s with
          starts := if shape == .terminator then s.starts
            else s.starts.setIfInBounds (s.offset / 8) true
          slots := s.slots ++ (Record.mk s.offset size shape).slots
          terminators := if shape == .terminator then s.terminators ++ [s.offset]
            else s.terminators } := by
  have hlimit := hs.size_le
  have hflags := hs.starts
  have haligned := hs.aligned
  have hrange := shape.slotRange_le
  have hsmall : sizeLimit < wordLimit := by decide
  rw [note]
  by_cases hterminator : shape = .terminator
  · subst hterminator
    have hnone : (Record.mk s.offset size .terminator).slots = [] := rfl
    rw [if_pos rfl, hnone, List.append_nil]
    rfl
  · have hbeq : (shape == .terminator) = false := by simpa using hterminator
    have hslots : (List.range shape.slotRange.2).mapM
        (fun i => do plus (s.offset + shape.slotRange.1) (← times 8 i)) =
          .ok (Record.mk s.offset size shape).slots := by
      apply mapM_eq_map
      intro i hi
      have hlt := List.mem_range.mp hi
      rw [times_eq (by omega)]
      exact plus_eq (by omega)
    rw [if_neg hterminator, hbeq, setFlag_eq (by omega), plus_eq (by omega)]
    change (List.mapM (fun i => do plus (s.offset + shape.slotRange.1) (← times 8 i))
      (List.range shape.slotRange.2) >>= _) = _
    rw [hslots]
    rfl

theorem adjust_eq (hstart : start + s.memory.size < wordLimit) (hsize : shape.extent ≤ size)
    (hfits : s.offset + size ≤ s.memory.size) {original : Bytes}
    (hmemory : s.memory = original.overwrite s.offset (leBytes 4 0)) :
    s.adjust start shape = .ok
      { s with memory := (Record.mk s.offset size shape).adjusted start original } := by
  rw [Record.adjusted, ← hmemory]
  cases shape with
  | mutableRef =>
    simp only [Shape.extent] at hsize
    rw [adjust, plus_eq (by omega)]
    change (writeHalf s.memory (s.offset + 8) 0 >>= _) = _
    rw [writeHalf_eq (by omega)]
    rfl
  | bigInteger sign length =>
    simp only [Shape.extent] at hsize
    rw [adjust, plus_eq (by omega), plus_eq (by omega)]
    change (plus start (s.offset + 24) >>= fun real =>
      writeWord s.memory (s.offset + 8) real >>= _) = _
    rw [plus_eq (by omega)]
    change (writeWord s.memory (s.offset + 8) (start + (s.offset + 24)) >>= _) = _
    rw [writeWord_eq (by omega)]
    rfl
  | _ => rfl

theorem pass_eq (hs : s.Fits start) (hsize : shape.extent ≤ size) (hpos : 8 ≤ size)
    (hfits : s.offset + size ≤ s.memory.size) :
    s.pass start shape size = .ok (s.add start ⟨s.offset, size, shape⟩) := by
  have hlimit := hs.fits
  rw [pass, writeHalf_eq (by omega)]
  -- From here on only the size of the marked memory counts, not what is written to it.
  generalize hmemory : s.memory.overwrite s.offset (leBytes 4 0) = marked
  have hmarked : marked.size = s.memory.size := hmemory ▸ Bytes.size_overwrite _ _ _
  have hmarkedFits : Fits { s with memory := marked } start :=
    ⟨hmarked ▸ hs.size_le, hmarked ▸ hs.fits, hmarked ▸ hs.starts, hs.aligned⟩
  have hnote := note_eq hmarkedFits hsize hpos (hmarked ▸ hfits)
  change (note { s with memory := marked } shape >>= _) = _
  rw [hnote]
  have hadjust := adjust_eq (s := { s with
      memory := marked
      starts := if shape == .terminator then s.starts
        else s.starts.setIfInBounds (s.offset / 8) true
      slots := s.slots ++ (Record.mk s.offset size shape).slots
      terminators := if shape == .terminator then s.terminators ++ [s.offset]
        else s.terminators }) hmarkedFits.fits hsize (hmarked ▸ hfits) hmemory.symm
  change (adjust _ start shape >>= fun s => plus s.offset size >>= _) = _
  rw [hadjust]
  change (plus s.offset size >>= _) = _
  rw [plus_eq (by omega)]
  rfl

/-- A round passes the record that the reader finds, or ends as the reader does. -/
theorem round_eq (hs : s.Fits start) (hlt : s.offset < s.memory.size) :
    s.round start base = match s.memory.recordAt base s.offset with
      | .error cause => reject cause
      | .ok r => .ok (s.add start r) := by
  have hlimit := hs.size_le
  have hsmall : sizeLimit + 64 < wordLimit := by decide
  rw [round, halfAt_eq (by omega), Bytes.recordAt]
  by_cases hheader : s.memory.size < s.offset + 8
  · rw [if_pos hheader, if_pos (by omega)]
    rfl
  · rw [if_neg hheader, if_neg (by omega)]
    change (shapeAt s.memory base s.offset (s.memory.half (s.offset + 4) % 16)
      (s.memory.half (s.offset + 4) / 16) >>= _) = _
    rw [shapeAt_eq (by omega)]
    dsimp only
    cases hshape : s.memory.shapeAt base s.offset (s.memory.half (s.offset + 4) % 16)
      (s.memory.half (s.offset + 4) / 16) with
    | error cause => rfl
    | ok shape =>
      rw [lift_ok]
      dsimp only
      change (if extraFits (s.memory.half (s.offset + 4) % 16)
        (s.memory.half (s.offset + 4) / 16) then _ else _) = _
      split
      · cases hsize : shape.recordSize? with
        | none => rfl
        | some size =>
          obtain ⟨hround, _⟩ := Shape.recordSize?_eq_some_iff.mp hsize
          have hextent := le_roundUp shape.extent
          have hpos := shape.eight_le_extent
          dsimp only
          rw [minus_eq (by omega)]
          change (if size ≤ s.memory.size - s.offset then s.pass start shape size else _) = _
          split
          · exact pass_eq hs (by omega) (by omega) (by omega)
          · rfl
      · rfl

end Steps

section Runs
variable {s : Scan} {b : Bytes} {start base : Nat} {r : Record} {records : List Record}

/-- A scan of the given bytes, which are still as they were from here on. -/
structure Reads (s : Scan) (b : Bytes) (start : Nat) : Prop extends s.Fits start where
  size_eq : s.memory.size = b.size
  same : ∀ i, s.offset ≤ i → s.memory[i]? = b[i]?

theorem Reads.add (hs : s.Reads b start) (hr : IsRecord b base r) (hoffset : r.offset = s.offset) :
    (s.add start r).Reads b start := by
  have hsize : (s.add start r).memory.size = s.memory.size := r.size_adjusted start s.memory
  have haligned := hs.aligned
  have hmod := hr.size_mod
  refine { size_le := ?_, fits := ?_, starts := ?_, aligned := ?_, size_eq := ?_, same := ?_ }
  · rw [hsize]
    exact hs.size_le
  · rw [hsize]
    exact hs.fits
  · rw [hsize, ← hs.starts, Scan.add]
    dsimp only
    split
    · rfl
    · exact Array.size_setIfInBounds
  · change (r.offset + r.size) % 8 = 0
    omega
  · rw [hsize, hs.size_eq]
  · intro i hi
    change r.offset + r.size ≤ i at hi
    have htouched := r.shape.touched_le
    have hextent := hr.extent_le
    have hkept : (s.add start r).memory[i]? = s.memory[i]? :=
      Record.getElem?_adjusted (.inr (by omega))
    rw [hkept, hs.same i (by omega)]

theorem Reads.round_eq (hs : s.Reads b start) (hlt : s.offset < b.size) (base : Nat) :
    s.round start base = match b.recordAt base s.offset with
      | .error cause => reject cause
      | .ok r => .ok (s.add start r) := by
  rw [Scan.round_eq hs.toFits (hs.size_eq ▸ hlt), Bytes.recordAt_congr hs.size_eq hs.same]

/-- A round is refused, or passes a record. -/
theorem Reads.round_cases (hs : s.Reads b start) (hlt : s.offset < b.size) (base : Nat) :
    (∃ cause, s.round start base = reject cause) ∨
      ∃ r, IsRecord b base r ∧ r.offset = s.offset ∧ s.round start base = .ok (s.add start r) := by
  rw [hs.round_eq hlt base]
  cases hr : b.recordAt base s.offset with
  | error cause => exact .inl ⟨cause, rfl⟩
  | ok r =>
    obtain ⟨hoffset, hrecord⟩ := Bytes.isRecord_of_recordAt hr
    exact .inr ⟨r, hrecord, hoffset, rfl⟩

theorem run_of_round_ok {next : Scan} (hlt : s.offset < s.memory.size)
    (h : s.round start base = .ok next) : s.run start base = next.run start base := by
  rw [run, if_pos hlt]
  split
  · rename_i e he
    rw [h] at he
    cases he
  · rename_i other hother
    rw [h] at hother
    rw [← Except.ok.inj hother]

theorem run_of_round_error {e : Halt} (hlt : s.offset < s.memory.size)
    (h : s.round start base = .error e) : s.run start base = .error e := by
  rw [run, if_pos hlt]
  split
  · rename_i other hother
    rw [h] at hother
    rw [Except.error.inj hother]
  · rename_i next hnext
    rw [h] at hnext
    cases hnext

/-- A run over records passes one after the other. -/
theorem run_of_tiling (hs : s.Reads b start) (h : Tiling b base s.offset records) :
    s.run start base = .ok (records.foldl (add start) s) := by
  generalize hpos : s.offset = pos at h
  have hlimit : b.size < wordLimit := by
    have hsmall : sizeLimit < wordLimit := by decide
    have := hs.size_le
    rw [← hs.size_eq]
    omega
  induction h generalizing s with
  | done =>
    rw [run, if_neg (by rw [hs.size_eq]; omega)]
    rfl
  | @cons r rest hr _ ih =>
    have hfits := hr.fits
    have hsize := hr.size_pos
    have hround := hs.round_eq (by omega) base
    rw [hpos, Bytes.recordAt_of_isRecord hlimit hr] at hround
    rw [run_of_round_ok (by rw [hs.size_eq]; omega) hround]
    exact ih (hs.add hr hpos.symm) rfl

/-- A run ends early where the reader does, with its cause. -/
theorem run_of_error {cause : Corruption} {found : Array Record} (hs : s.Reads b start)
    (h : b.recordsFrom base s.offset found = .error cause) :
    s.run start base = reject cause := by
  generalize hpos : s.offset = pos at h
  fun_induction Bytes.recordsFrom b base pos found generalizing s with
  | case1 pos found hlt e he =>
    have hround := hs.round_eq (hpos ▸ hlt) base
    rw [hpos, he] at hround
    rw [run_of_round_error (by rw [hs.size_eq]; omega) hround, Except.error.inj h]
    rfl
  | case2 pos found hlt r hr ih =>
    obtain ⟨hoffset, hrecord⟩ := Bytes.isRecord_of_recordAt hr
    have hround := hs.round_eq (hpos ▸ hlt) base
    rw [hpos, hr] at hround
    rw [run_of_round_ok (by rw [hs.size_eq]; omega) hround]
    exact ih (hs.add hrecord (hoffset.trans hpos.symm)) (congrArg (· + r.size) hoffset) h
  | case3 => cases h

end Runs

end Scan

end InPlace
end HeapImage
