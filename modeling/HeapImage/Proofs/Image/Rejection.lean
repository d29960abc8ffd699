import HeapImage.Proofs.Image.InPlace

/-!
# The first violation

Which cause is given for bytes that are refused. Records are looked at from the first to the last,
so a cause that is about a record is about the first one that the grammar does not have, and says
what is wrong with it. If only references are wrong, the cause is the first one that denotes no
object, with the word that stands in the bytes as they were given.
-/

namespace HeapImage
set_option autoImplicit false

namespace Bytes

/-- The extent of the record at `pos` by its tag, extra data and counts. -/
def extentAt (bytes : Bytes) (pos : Nat) : Nat :=
  match bytes.tagAt pos with
  | 0 => 24 + 8 * bytes.word (pos + 8) + bytes.word (pos + 16)
  | 1 => 16 + 8 * bytes.word (pos + 8)
  | 2 => 16 + bytes.word (pos + 8) * bytes.extraAt pos
  | 3 => 16 + bytes.word (pos + 8) + 1
  | 4 => 24
  | 5 => 16
  | 6 => 16
  | 7 => 24
  | 8 => 24 + 8 * bytes.word (pos + 16)
  | 15 => 16
  | _ => 8

/-- A record with the tag of the one at `pos` cannot have its extra data. Zero has no sign. -/
def BadExtraAt (bytes : Bytes) (pos : Nat) : Prop :=
  match bytes.tagAt pos with
  | 0 => 65535 < bytes.extraAt pos
  | 2 => bytes.extraAt pos = 0 ∨ 255 < bytes.extraAt pos
  | 8 => 1 < bytes.extraAt pos ∨
      bytes.extraAt pos ≠ 0 ∧ pos + 24 ≤ bytes.size ∧ bytes.word (pos + 16) = 0
  | _ => bytes.extraAt pos ≠ 0

end Bytes

/-- The cause says what is wrong with the record at `pos`, and it is. -/
def Corruption.IsAbout (bytes : Bytes) (base pos : Nat) : Corruption → Prop
  | unknownTag offset tag =>
    offset = pos ∧ pos + 8 ≤ bytes.size ∧ tag = bytes.tagAt pos ∧ 8 < tag ∧ tag ≠ 15
  | badExtra offset tag extra =>
    offset = pos ∧ pos + 8 ≤ bytes.size ∧ tag = bytes.tagAt pos ∧ extra = bytes.extraAt pos ∧
      bytes.BadExtraAt pos
  | truncated offset => offset = pos ∧ bytes.size < pos + roundUp (bytes.extentAt pos)
  | dangling offset stored =>
    offset + 8 ≤ bytes.size ∧ stored = bytes.word offset ∧
      (bytes.tagAt pos = 4 ∧ offset = pos + 16 ∧ stored ≠ 0 ∨
        bytes.tagAt pos = 8 ∧ offset = pos + 8 ∧ stored ≠ (base + (pos + 24)) % wordLimit)
  | misaligned | badMagic | baseMismatch .. | missingTerminator => False

/-- The bytes from a position on are the given records, up to a second position. -/
inductive Stretch (bytes : Bytes) (base : Nat) : Nat → List Record → Nat → Prop where
  | nil (pos : Nat) : Stretch bytes base pos [] pos
  | cons {r : Record} {rest : List Record} {stop : Nat} : IsRecord bytes base r →
      Stretch bytes base (r.offset + r.size) rest stop →
      Stretch bytes base r.offset (r :: rest) stop

section Records
variable {bytes : Bytes} {base pos stop tag extra : Nat} {cause : Corruption} {r : Record}
variable {records : List Record} {found : Array Record}

theorem Shape.extent_of_describedAt {s : Shape} (h : s.DescribedAt bytes base pos) :
    s.extent = bytes.extentAt pos := by
  rw [Bytes.extentAt]
  cases s with
  | constructor tag numFields scalarSize =>
    obtain ⟨htag, _, _, rfl, rfl⟩ := h
    rw [htag]
    rfl
  | byteArray elemSize length =>
    obtain ⟨htag, rfl, _, _, rfl⟩ := h
    rw [htag]
    rfl
  | array length | string length =>
    obtain ⟨htag, _, rfl⟩ := h
    rw [htag]
    rfl
  | bigInteger sign length =>
    obtain ⟨htag, _, _, rfl, _⟩ := h
    rw [htag]
    rfl
  | thunk =>
    rw [h.1]
    rfl
  | task | promise | mutableRef | terminator =>
    rw [h.1]
    rfl

theorem eight_le_extentAt (bytes : Bytes) (pos : Nat) : 8 ≤ bytes.extentAt pos := by
  unfold Bytes.extentAt
  split <;> omega

theorem sixteen_le_extentAt (bytes : Bytes) (pos : Nat) (h : bytes.tagAt pos ≤ 8) :
    16 ≤ bytes.extentAt pos := by
  unfold Bytes.extentAt
  generalize bytes.tagAt pos = tag at h
  split <;> grind

theorem twentyfour_le_extentAt (bytes : Bytes) (pos : Nat)
    (h : bytes.tagAt pos = 0 ∨ bytes.tagAt pos = 4 ∨ bytes.tagAt pos = 8) :
    24 ≤ bytes.extentAt pos := by
  unfold Bytes.extentAt
  generalize bytes.tagAt pos = tag at h
  split <;> grind

theorem recordWord_eq_error_iff {offset : Nat} : bytes.recordWord pos offset = .error cause ↔
    bytes.size < pos + offset + 8 ∧ cause = .truncated pos := by
  unfold Bytes.recordWord
  split
  · rename_i hin
    exact ⟨nofun, fun h => absurd hin (by omega)⟩
  · rename_i hout
    rw [Except.error.injEq]
    exact ⟨fun h => ⟨by omega, h.symm⟩, fun h => h.2.symm⟩

/-- A count that is cut off is behind the end, and so is the record. -/
theorem isAbout_of_count {offset : Nat} (hextent : offset + 8 ≤ bytes.extentAt pos)
    (h : bytes.size < pos + offset + 8 ∧ cause = .truncated pos) :
    cause.IsAbout bytes base pos := by
  have hle := le_roundUp (bytes.extentAt pos)
  obtain ⟨hlt, rfl⟩ := h
  exact ⟨rfl, by omega⟩

theorem isAbout_of_shapeAt (hin : pos + 8 ≤ bytes.size)
    (h : bytes.shapeAt base pos (bytes.tagAt pos) (bytes.extraAt pos) = .error cause) :
    cause.IsAbout bytes base pos := by
  have hcounted := sixteen_le_extentAt bytes pos
  have hcountedTwice := twentyfour_le_extentAt bytes pos
  have hbad := Bytes.BadExtraAt.eq_1 bytes pos
  generalize htag : bytes.tagAt pos = tag at h hcounted hcountedTwice hbad
  unfold Bytes.shapeAt at h
  split at h <;> simp only [bind_eq_error_iff, pure, Except.pure, throw, throwThe,
    MonadExceptOf.throw, reduceCtorEq, and_false, exists_false, or_false, recordWord_eq_error_iff,
    Bytes.recordWord_eq_ok_iff] at h
  · rcases h with hcount | ⟨_, _, hcount⟩
    · exact isAbout_of_count (by omega) hcount
    · exact isAbout_of_count (by omega) hcount
  · exact isAbout_of_count (by omega) h
  · exact isAbout_of_count (by omega) h
  · exact isAbout_of_count (by omega) h
  · rcases h with hcount | ⟨_, ⟨hclosure, rfl⟩, h⟩
    · exact isAbout_of_count (by omega) hcount
    · split at h
      · cases h
      · rename_i hne
        cases h
        exact ⟨hclosure, rfl, .inl ⟨htag, rfl, hne⟩⟩
  · rcases h with hcount | ⟨_, ⟨hlength, rfl⟩, hcount | ⟨_, ⟨hlimbs, rfl⟩, h⟩⟩
    · exact isAbout_of_count (by omega) hcount
    · exact isAbout_of_count (by omega) hcount
    · split at h
      · rename_i hne
        cases h
        exact ⟨hlimbs, rfl, .inr ⟨htag, rfl, hne⟩⟩
      · split at h
        · rename_i hsign
          cases h
          refine ⟨rfl, hin, htag.symm, rfl, ?_⟩
          rw [hbad]
          exact .inr ⟨hsign.2, hlength, hsign.1⟩
        · cases h
  · cases h
    exact ⟨rfl, hin, htag.symm, by grind, by assumption⟩

theorem isAbout_of_extraFits (hin : pos + 8 ≤ bytes.size)
    (h : ¬extraFits (bytes.tagAt pos) (bytes.extraAt pos) = true) :
    (Corruption.badExtra pos (bytes.tagAt pos) (bytes.extraAt pos)).IsAbout bytes base pos := by
  refine ⟨rfl, hin, rfl, rfl, ?_⟩
  unfold extraFits at h
  unfold Bytes.BadExtraAt
  generalize bytes.tagAt pos = tag at h ⊢
  split at h <;> simp_all <;> omega

theorem isAbout_of_recordAt (hlimit : bytes.size < wordLimit)
    (h : bytes.recordAt base pos = .error cause) : cause.IsAbout bytes base pos := by
  unfold Bytes.recordAt at h
  split at h
  · rename_i hshort
    have hle := le_roundUp (bytes.extentAt pos)
    have height := eight_le_extentAt bytes pos
    rw [← Except.error.inj h]
    exact ⟨rfl, by omega⟩
  rename_i hin
  dsimp only at h
  split at h
  · rename_i e hshape
    rw [← Except.error.inj h]
    exact isAbout_of_shapeAt (by omega) hshape
  rename_i shape hshape
  split at h
  · rename_i hextra
    have hextent := Shape.extent_of_describedAt (Bytes.describedAt_of_shapeAt hshape hextra)
    -- A size that is not a word is larger than all of the bytes.
    have hlarge : bytes.size < pos + roundUp (bytes.extentAt pos) := by
      rw [← hextent]
      split at h
      · rename_i size hsize
        obtain ⟨rfl, _⟩ := Shape.recordSize?_eq_some_iff.mp hsize
        split at h
        · cases h
        · omega
      · rename_i hsize
        by_contra hfits
        have hsome := Shape.recordSize?_eq_some_iff.mpr
          ⟨(rfl : roundUp shape.extent = _), by omega⟩
        rw [hsize] at hsome
        cases hsome
    have hcause : cause = .truncated pos := by
      split at h
      · split at h <;> cases h
        rfl
      · cases h
        rfl
    rw [hcause]
    exact ⟨rfl, hlarge⟩
  · rename_i hextra
    rw [← Except.error.inj h]
    exact isAbout_of_extraFits (by omega) hextra

theorem recordsFrom_of_stretch (hlimit : bytes.size < wordLimit)
    (h : Stretch bytes base pos records stop) (found : Array Record) :
    bytes.recordsFrom base pos found = bytes.recordsFrom base stop (found ++ records.toArray) := by
  induction h generalizing found with
  | nil pos => simp
  | @cons r rest stop hr _ ih =>
    have hpos := hr.size_pos
    have hfits := hr.fits
    rw [Bytes.recordsFrom, if_pos (by omega)]
    split
    · rename_i e he
      rw [Bytes.recordAt_of_isRecord hlimit hr] at he
      cases he
    · rename_i s hs
      rw [Bytes.recordAt_of_isRecord hlimit hr] at hs
      cases hs
      rw [ih]
      simp

/-- The bytes from a position on are records up to the end, or up to one that is not. -/
theorem tiling_or_stretch (bytes : Bytes) (base : Nat) {pos : Nat} (hpos : pos ≤ bytes.size) :
    (∃ records, Tiling bytes base pos records) ∨
      ∃ before stop, Stretch bytes base pos before stop ∧ stop < bytes.size ∧
        ∀ r, IsRecord bytes base r → r.offset ≠ stop := by
  by_cases hend : pos = bytes.size
  · exact .inl ⟨[], hend ▸ .done⟩
  by_cases hrecord : ∃ r, IsRecord bytes base r ∧ r.offset = pos
  · obtain ⟨r, hr, rfl⟩ := hrecord
    have := hr.size_pos
    have := hr.fits
    rcases tiling_or_stretch bytes base hr.fits with ⟨rest, hrest⟩ | ⟨rest, stop, hrest, hstop⟩
    · exact .inl ⟨r :: rest, .cons hr hrest⟩
    · exact .inr ⟨r :: rest, stop, .cons hr hrest, hstop⟩
  · exact .inr ⟨[], pos, .nil pos, by omega, fun r hr hoffset => hrecord ⟨r, hr, hoffset⟩⟩
termination_by bytes.size - pos

end Records

/-- The lowest of some slots whose word denotes no object. -/
def FirstDangling (bytes : Bytes) (base : Nat) (records : List Record) (slots : List Nat)
    (slot : Nat) : Prop :=
  IsLeast {slot | slot ∈ slots ∧ ¬IsReference base records (bytes.word slot)} slot

section References
variable {bytes : Bytes} {base : Nat} {records : List Record} {slots : List Nat}
variable {cause : Corruption} {others : List Corruption}

theorem danglings_eq_nil_iff : danglings base records bytes slots = [] ↔
    ∀ slot ∈ slots, IsReference base records (bytes.word slot) := by
  simp [danglings, List.filterMap_eq_nil_iff]

/-- Among slots in order, the first cause is for the lowest one. -/
theorem exists_firstDangling (hsorted : slots.Pairwise fun x y => x + 8 ≤ y)
    (h : danglings base records bytes slots = cause :: others) :
    ∃ slot, cause = .dangling slot (bytes.word slot) ∧
      FirstDangling bytes base records slots slot := by
  induction slots with
  | nil => cases h
  | cons first rest ih =>
    obtain ⟨hfirst, hrest⟩ := List.pairwise_cons.mp hsorted
    by_cases href : IsReference base records (bytes.word first)
    · rw [danglings_cons_of_isReference rfl href] at h
      obtain ⟨slot, hcause, ⟨hmem, hbad⟩, hleast⟩ := ih hrest h
      refine ⟨slot, hcause, ⟨List.mem_cons_of_mem _ hmem, hbad⟩, ?_⟩
      rintro other ⟨hother, hbadOther⟩
      rcases List.mem_cons.mp hother with rfl | hother
      · exact absurd href hbadOther
      · exact hleast ⟨hother, hbadOther⟩
    · rw [danglings_cons_of_not_isReference rfl href] at h
      refine ⟨first, (List.cons.inj h).1.symm, ⟨List.mem_cons_self, href⟩, ?_⟩
      rintro other ⟨hother, _⟩
      rcases List.mem_cons.mp hother with rfl | hother
      · exact Nat.le_refl _
      · have := hfirst other hother
        omega

end References

/-- The cause is the first violation. A record that the grammar does not have comes first, then
that no terminator is at the end, then references of objects, and then those of roots. -/
structure Corruption.IsFirst (bytes : Bytes) (base : Nat) (cause : Corruption) : Prop where
  record : ∀ before stop, Stretch bytes base headerSize before stop → stop < bytes.size →
    (∀ r, IsRecord bytes base r → r.offset ≠ stop) → cause.IsAbout bytes base stop
  terminator : ∀ records, Tiling bytes base headerSize records →
    (¬∃ r, records.getLast? = some r ∧ r.isTerminator = true) → cause = .missingTerminator
  reference : ∀ records, Tiling bytes base headerSize records →
    (∃ r, records.getLast? = some r ∧ r.isTerminator = true) →
    ∃ slot, cause = .dangling slot (bytes.word slot) ∧
      (FirstDangling bytes base records (records.flatMap Record.slots) slot ∨
        (∀ child ∈ records.flatMap Record.slots, IsReference base records (bytes.word child)) ∧
          FirstDangling bytes base records (rootSlots records) slot)

section Reading
variable {bytes : Bytes} {base first : Nat} {cause : Corruption}

/-- What the reader says after the header is the first violation. -/
theorem isFirst_of_records (hlimit : bytes.size < wordLimit)
    (h : bytes.records base >>= resolveAll bytes base first = .error cause) :
    cause.IsFirst bytes base where
  record before stop hbefore hstop hnone := by
    cases hrecord : bytes.recordAt base stop with
    | ok r =>
      obtain ⟨hoffset, hr⟩ := Bytes.isRecord_of_recordAt hrecord
      exact absurd hoffset (hnone r hr)
    | error other =>
      have hfrom : bytes.recordsFrom base headerSize #[] = .error other := by
        rw [recordsFrom_of_stretch hlimit hbefore, Bytes.recordsFrom, if_pos hstop]
        split <;> simp_all
      rw [Bytes.records, hfrom] at h
      rw [← Except.error.inj h]
      exact isAbout_of_recordAt hlimit hrecord
  terminator records hrecords hopen := by
    have hlast : ¬records.toArray.back?.any Record.isTerminator = true := by
      rwa [← Array.getLast?_toList, Option.any_eq_true]
    rw [Bytes.records, recordsFrom_of_tiling hlimit hrecords, Array.empty_append] at h
    dsimp only at h
    rw [if_neg hlast] at h
    exact (Except.error.inj h).symm
  reference records hrecords hclosed := by
    rw [Bytes.records_of_tiling hlimit hrecords hclosed] at h
    obtain ⟨others, hcauses⟩ := danglings_of_error hrecords h
    rw [danglings_append] at hcauses
    cases hobjects : danglings base records bytes (records.flatMap Record.slots) with
    | cons child rest =>
      rw [hobjects] at hcauses
      obtain ⟨slot, hcause, hleast⟩ := exists_firstDangling hrecords.pairwise_slots hobjects
      exact ⟨slot, (List.cons.inj hcauses).1 ▸ hcause, .inl hleast⟩
    | nil =>
      rw [hobjects, List.nil_append] at hcauses
      obtain ⟨slot, hcause, hleast⟩ := exists_firstDangling hrecords.pairwise_rootSlots hcauses
      exact ⟨slot, hcause, .inr ⟨danglings_eq_nil_iff.mp hobjects, hleast⟩⟩

end Reading

namespace InPlace

/-- If the header is right and the rest is not, loading in place stops with the first violation of
the bytes as they were given, and so does the reader. There is a record that the grammar does not
have, or the bytes are records up to their end. -/
theorem first_violation (b : Bytes) (start : Nat) (declared : UInt64) {halt : Halt}
    (hsize : b.size ≤ sizeLimit) (hfits : start + b.size < wordLimit)
    (hheader : checkHeader b start declared.toNat = .ok ())
    (hhalt : load b start declared = .error halt) :
    ∃ cause, halt = .corrupt cause ∧
      (∀ first, b.load declared (start % 8 == 0) first = .error cause) ∧
      cause.IsFirst b declared.toNat ∧
      ((∃ records, Tiling b declared.toNat headerSize records) ∨
        ∃ before stop, Stretch b declared.toNat headerSize before stop ∧ stop < b.size ∧
          ∀ r, IsRecord b declared.toNat r → r.offset ≠ stop) := by
  have hread : ∀ first, ∃ cause, b.load declared (start % 8 == 0) first = .error cause ∧
      halt = .corrupt cause := by
    intro first
    have hloaded := (load_faultless b start declared first hsize hfits).1
    rw [hhalt] at hloaded
    generalize b.load declared (start % 8 == 0) first = outcome at hloaded ⊢
    cases outcome with
    | error cause => exact ⟨cause, rfl, Except.error.inj hloaded⟩
    | ok g =>
      obtain ⟨_, _, _, hload, _⟩ := hloaded
      cases hload
  obtain ⟨cause, hcause, rfl⟩ := hread 0
  have hchecked : b.checkHeader declared.toNat (start % 8 == 0) = .ok () := by
    rw [checkHeader_eq] at hheader
    cases hchecked : b.checkHeader declared.toNat (start % 8 == 0) with
    | ok => rfl
    | error other =>
      rw [hchecked] at hheader
      cases hheader
  obtain ⟨_, hle⟩ := header_of_checkHeader hchecked
  refine ⟨cause, rfl, ?_, ?_, tiling_or_stretch b declared.toNat hle⟩
  · intro first
    obtain ⟨other, hother, heq⟩ := hread first
    rwa [Halt.corrupt.inj heq]
  · rw [read_of_header hchecked] at hcause
    exact isFirst_of_records (by omega) hcause

/-- The knot with its second field changed to a word that denotes no object. -/
def untiedKnot : Bytes := knot.overwrite 48 (leBytes 8 4104)

set_option maxRecDepth 4096 in
theorem untied_first_violation : untiedKnot.size ≤ sizeLimit ∧ 65536 + untiedKnot.size < wordLimit ∧
    checkHeader untiedKnot 65536 4096 = .ok () ∧
    load untiedKnot 65536 4096 = .error (.corrupt (.dangling 48 4104)) ∧
    (Corruption.dangling 48 4104).IsFirst untiedKnot 4096 := by
  have hsize : untiedKnot.size ≤ sizeLimit := by decide
  have hfits : 65536 + untiedKnot.size < wordLimit := by decide
  have hheader : checkHeader untiedKnot 65536 (4096 : UInt64).toNat = .ok () := by cbv
  have hread : untiedKnot.load 4096 true 0 = .error (.dangling 48 4104) := by cbv
  have hload : load untiedKnot 65536 4096 = .error (.corrupt (.dangling 48 4104)) :=
    load_of_error hsize hfits hread
  obtain ⟨cause, hcause, _, hfirst, _⟩ :=
    first_violation untiedKnot 65536 4096 hsize hfits hheader hload
  rw [← Halt.corrupt.inj hcause] at hfirst
  exact ⟨hsize, hfits, hheader, hload, hfirst⟩

end InPlace
end HeapImage
