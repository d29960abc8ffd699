import Mathlib
import HeapImage.Image.Load

/-!
# The grammar of images

What an image is, said without the reader: a header, records that follow each other without a gap
up to the last byte, a terminator at the end, and references that denote records. Sizes are exact
numbers here. The reader splits the bytes in the one way that the grammar allows.
-/

namespace HeapImage
set_option autoImplicit false

namespace Bytes

/-- The tag of the record at `pos`: the low bits of the second half-word of its header. -/
def tagAt (bytes : Bytes) (pos : Nat) : Nat := bytes.half (pos + 4) % 16

/-- The extra data of the record at `pos`: the other bits of that half-word. -/
def extraAt (bytes : Bytes) (pos : Nat) : Nat := bytes.half (pos + 4) / 16

end Bytes

namespace Shape

def extent : Shape → Nat
  | constructor _ numFields scalarSize => 24 + 8 * numFields + scalarSize
  | array length => 16 + 8 * length
  | byteArray elemSize length => 16 + length * elemSize
  | string length => 16 + length + 1
  | thunk => 24
  | task => 16
  | promise => 16
  | mutableRef => 24
  | bigInteger _ length => 24 + 8 * length
  | terminator => 16

theorem eight_le_extent (s : Shape) : 8 ≤ s.extent := by
  cases s <;> simp only [extent] <;> omega

/-- The tag, extra data and fixed words that a record of this shape has at `pos`. -/
def DescribedAt (bytes : Bytes) (base pos : Nat) : Shape → Prop
  | constructor tag numFields scalarSize =>
    bytes.tagAt pos = 0 ∧ bytes.extraAt pos = tag ∧ tag ≤ 65535 ∧
      bytes.word (pos + 8) = numFields ∧ bytes.word (pos + 16) = scalarSize
  | array length => bytes.tagAt pos = 1 ∧ bytes.extraAt pos = 0 ∧ bytes.word (pos + 8) = length
  | byteArray elemSize length =>
    bytes.tagAt pos = 2 ∧ bytes.extraAt pos = elemSize ∧ 1 ≤ elemSize ∧ elemSize ≤ 255 ∧
      bytes.word (pos + 8) = length
  | string length => bytes.tagAt pos = 3 ∧ bytes.extraAt pos = 0 ∧ bytes.word (pos + 8) = length
  | thunk => bytes.tagAt pos = 4 ∧ bytes.extraAt pos = 0 ∧ bytes.word (pos + 16) = 0
  | task => bytes.tagAt pos = 5 ∧ bytes.extraAt pos = 0
  | promise => bytes.tagAt pos = 6 ∧ bytes.extraAt pos = 0
  | mutableRef => bytes.tagAt pos = 7 ∧ bytes.extraAt pos = 0
  | bigInteger sign length =>
    bytes.tagAt pos = 8 ∧ bytes.extraAt pos = sign ∧ sign ≤ 1 ∧ bytes.word (pos + 16) = length ∧
      bytes.word (pos + 8) = (base + (pos + 24)) % wordLimit ∧ (length = 0 → sign = 0)
  | terminator => bytes.tagAt pos = 15 ∧ bytes.extraAt pos = 0

/-- Where the references of a record at `pos` stand; the one of a terminator is its root. -/
def references (pos : Nat) : Shape → List Nat
  | constructor _ numFields _ => (List.range numFields).map fun i => pos + 24 + 8 * i
  | array length => (List.range length).map fun i => pos + 16 + 8 * i
  | byteArray .. | string .. | bigInteger .. => []
  | thunk | task | promise | terminator => [pos + 8]
  | mutableRef => [pos + 16]

end Shape

structure IsRecord (bytes : Bytes) (base : Nat) (r : Record) : Prop where
  described : r.shape.DescribedAt bytes base r.offset
  size_eq : r.size = roundUp r.shape.extent
  fits : r.offset + r.size ≤ bytes.size

/-- The bytes from a position on are the given records, one right after the other. -/
inductive Tiling (bytes : Bytes) (base : Nat) : Nat → List Record → Prop where
  | done : Tiling bytes base bytes.size []
  | cons {r : Record} {rest : List Record} : IsRecord bytes base r →
      Tiling bytes base (r.offset + r.size) rest → Tiling bytes base r.offset (r :: rest)

/-- A stored word is a scalar, or the base address plus the offset of an object record. -/
def IsReference (base : Nat) (records : List Record) (word : Nat) : Prop :=
  word % 2 = 1 ∨ ∃ r ∈ records, r.isTerminator = false ∧ word = base + r.offset

structure IsImage (bytes : Bytes) (base : Nat) (records : List Record) : Prop where
  aligned : bytes.size % 8 = 0
  header : 16 ≤ bytes.size
  magic_eq : bytes.word 0 = magic
  base_eq : bytes.word 8 = base
  base_aligned : base % 8 = 0
  tiling : Tiling bytes base 16 records
  closed : ∃ r, records.getLast? = some r ∧ r.isTerminator = true
  references : ∀ r ∈ records, ∀ slot ∈ r.shape.references r.offset,
    IsReference base records (bytes.word slot)

theorem Bytes.recordWord_eq_ok_iff {bytes : Bytes} {pos offset n : Nat} :
    bytes.recordWord pos offset = .ok n ↔
      pos + offset + 8 ≤ bytes.size ∧ bytes.word (pos + offset) = n := by
  unfold Bytes.recordWord
  split
  · rename_i hfits
    rw [Except.ok.injEq]
    exact ⟨fun hn => ⟨hfits, hn⟩, fun h => h.2⟩
  · rename_i hfits
    exact ⟨nofun, fun h => absurd h.1 hfits⟩

namespace Shape

theorem payloadSize?_eq_some_iff {s : Shape} {payload : Nat} :
    s.payloadSize? = some payload ↔ 8 + payload = s.extent ∧ payload < wordLimit := by
  cases s <;>
    simp only [payloadSize?, extent, Payload.constructor?, Payload.array?, Payload.byteArray?,
      Payload.string?, Payload.thunk, Payload.cell, Payload.mutableRef, Payload.bigInteger?,
      terminatorSize, Option.bind_eq_bind, Option.bind_eq_some_iff, add?_eq_some, mul?_eq_some,
      Option.some.injEq, and_assoc, exists_eq_left', wordLimit]
  all_goals omega

/-- Rounding up is the only difference between the size of a record and its extent. -/
theorem recordSize?_eq_some_iff {s : Shape} {n : Nat} :
    s.recordSize? = some n ↔ n = roundUp s.extent ∧ n < wordLimit := by
  simp only [recordSize?, Option.bind_eq_bind, Option.bind_eq_some_iff, payloadSize?_eq_some_iff,
    HeapImage.recordSize?_eq_some]
  constructor
  · rintro ⟨payload, ⟨hpayload, _⟩, hn, hlt⟩
    exact ⟨by rw [hn, hpayload], hlt⟩
  · rintro ⟨hn, hlt⟩
    have hle := le_roundUp s.extent
    have hpos := s.eight_le_extent
    exact ⟨s.extent - 8, ⟨by omega, by omega⟩, by rw [hn]; congr 1; omega, hlt⟩

end Shape

namespace Bytes
variable {bytes : Bytes} {base pos : Nat}

theorem describedAt_of_shapeAt {s : Shape}
    (h : bytes.shapeAt base pos (bytes.tagAt pos) (bytes.extraAt pos) = .ok s)
    (hx : extraFits (bytes.tagAt pos) (bytes.extraAt pos) = true) :
    s.DescribedAt bytes base pos := by
  generalize ht : bytes.tagAt pos = tag at h hx
  unfold shapeAt at h
  split at h
  all_goals
    simp only [extraFits, decide_eq_true_eq, beq_iff_eq, Bool.and_eq_true] at hx
    simp only [bind_eq_ok_iff, pure_eq_ok_iff, recordWord_eq_ok_iff, throw_ne_ok] at h
  · obtain ⟨_, ⟨_, hfields⟩, _, ⟨_, hscalars⟩, rfl⟩ := h
    exact ⟨ht, rfl, by omega, hfields, hscalars⟩
  · obtain ⟨_, ⟨_, hlength⟩, rfl⟩ := h
    exact ⟨ht, hx, hlength⟩
  · obtain ⟨_, ⟨_, hlength⟩, rfl⟩ := h
    exact ⟨ht, rfl, by omega, by omega, hlength⟩
  · obtain ⟨_, ⟨_, hlength⟩, rfl⟩ := h
    exact ⟨ht, hx, hlength⟩
  · obtain ⟨_, ⟨_, rfl⟩, h⟩ := h
    split at h
    · rename_i hclosure
      cases h
      exact ⟨ht, hx, hclosure⟩
    · cases h
  · subst h
    exact ⟨ht, hx⟩
  · subst h
    exact ⟨ht, hx⟩
  · subst h
    exact ⟨ht, hx⟩
  · obtain ⟨_, ⟨_, rfl⟩, _, ⟨_, rfl⟩, h⟩ := h
    split at h
    · cases h
    · rename_i hlimbs
      split at h
      · cases h
      · rename_i hsign
        cases h
        refine ⟨ht, rfl, hx, rfl, Decidable.not_not.mp hlimbs, fun hzero => ?_⟩
        exact Decidable.not_not.mp fun hne => hsign ⟨hzero, hne⟩
  · subst h
    exact ⟨ht, hx⟩

theorem shapeAt_of_describedAt {s : Shape} (h : s.DescribedAt bytes base pos)
    (hin : pos + s.extent ≤ bytes.size) :
    bytes.shapeAt base pos (bytes.tagAt pos) (bytes.extraAt pos) = .ok s ∧
      extraFits (bytes.tagAt pos) (bytes.extraAt pos) = true := by
  have hword : ∀ offset, pos + offset + 8 ≤ bytes.size →
      bytes.recordWord pos offset = .ok (bytes.word (pos + offset)) := by
    intro offset hoffset
    exact recordWord_eq_ok_iff.mpr ⟨hoffset, rfl⟩
  cases s with
  | constructor tag numFields scalarSize =>
    obtain ⟨ht, hx, hle, hfields, hscalars⟩ := h
    simp only [Shape.extent] at hin
    rw [ht, hx]
    simp only [shapeAt, hword 8 (by omega), hword 16 (by omega), hfields, hscalars]
    exact ⟨rfl, by simp only [extraFits, decide_eq_true_eq]; omega⟩
  | array length =>
    obtain ⟨ht, hx, hlength⟩ := h
    simp only [Shape.extent] at hin
    rw [ht, hx]
    simp only [shapeAt, hword 8 (by omega), hlength]
    exact ⟨rfl, rfl⟩
  | byteArray elemSize length =>
    obtain ⟨ht, hx, hpos, hle, hlength⟩ := h
    simp only [Shape.extent] at hin
    rw [ht, hx]
    simp only [shapeAt, hword 8 (by omega), hlength]
    exact ⟨rfl, by simp only [extraFits, Bool.and_eq_true, decide_eq_true_eq]; omega⟩
  | string length =>
    obtain ⟨ht, hx, hlength⟩ := h
    simp only [Shape.extent] at hin
    rw [ht, hx]
    simp only [shapeAt, hword 8 (by omega), hlength]
    exact ⟨rfl, rfl⟩
  | thunk =>
    obtain ⟨ht, hx, hclosure⟩ := h
    simp only [Shape.extent] at hin
    rw [ht, hx]
    simp only [shapeAt, hword 16 (by omega), hclosure]
    exact ⟨rfl, rfl⟩
  | bigInteger sign length =>
    obtain ⟨ht, hx, hle, hlength, hlimbs, hsign⟩ := h
    simp only [Shape.extent] at hin
    rw [ht, hx]
    have hzero : ¬(length = 0 ∧ sign ≠ 0) := fun hz => hz.2 (hsign hz.1)
    refine ⟨?_, by simp only [extraFits, decide_eq_true_eq]; omega⟩
    simp only [shapeAt, hword 16 (by omega), hword 8 (by omega), hlength, hlimbs, bind_eq_ok_iff,
      wordLimit, Except.ok.injEq, exists_eq_left', ne_eq, not_true_eq_false, if_false, if_neg hzero]
    rfl
  | task | promise | mutableRef | terminator =>
    obtain ⟨ht, hx⟩ := h
    rw [ht, hx]
    exact ⟨rfl, rfl⟩

/-- Reading a record succeeds exactly where the grammar has one. -/
theorem isRecord_of_recordAt {r : Record} (h : bytes.recordAt base pos = .ok r) :
    r.offset = pos ∧ IsRecord bytes base r := by
  unfold recordAt at h
  split at h
  · cases h
  · dsimp only at h
    split at h
    · cases h
    · rename_i shape hshape
      split at h
      · rename_i hx
        split at h
        · rename_i size hsize
          split at h
          · rename_i hfits
            cases h
            have hdescribed := describedAt_of_shapeAt hshape hx
            have hsize := Shape.recordSize?_eq_some_iff.mp hsize
            exact ⟨rfl, hdescribed, hsize.1, by simp only; omega⟩
          · cases h
        · cases h
      · cases h

theorem recordAt_of_isRecord {r : Record} (hlimit : bytes.size < wordLimit)
    (h : IsRecord bytes base r) : bytes.recordAt base r.offset = .ok r := by
  have hle := le_roundUp r.shape.extent
  have hpos := r.shape.eight_le_extent
  have hfits := h.fits
  have hsize := h.size_eq
  have hshape := shapeAt_of_describedAt h.described (by omega)
  have hrecord : r.shape.recordSize? = some r.size :=
    Shape.recordSize?_eq_some_iff.mpr ⟨hsize, by omega⟩
  unfold recordAt
  rw [if_neg (by omega)]
  dsimp only
  simp only [tagAt, extraAt] at hshape
  rw [hshape.1]
  dsimp only
  rw [if_pos hshape.2, hrecord]
  dsimp only
  rw [if_pos (by omega)]

end Bytes

section Tilings
variable {bytes : Bytes} {base pos : Nat} {records rest : List Record} {r : Record}

theorem IsRecord.size_mod (h : IsRecord bytes base r) : r.size % 8 = 0 := by
  rw [h.size_eq]
  exact roundUp_mod _

theorem IsRecord.extent_le (h : IsRecord bytes base r) : r.shape.extent ≤ r.size := by
  rw [h.size_eq]
  exact le_roundUp _

theorem IsRecord.size_pos (h : IsRecord bytes base r) : 8 ≤ r.size :=
  Nat.le_trans r.shape.eight_le_extent h.extent_le

namespace Tiling

theorem isRecord (h : Tiling bytes base pos records) : ∀ r ∈ records, IsRecord bytes base r := by
  induction h with
  | done => simp
  | cons hr _ ih =>
    intro s hs
    rcases List.mem_cons.mp hs with rfl | hs
    · exact hr
    · exact ih s hs

theorem le_offset (h : Tiling bytes base pos records) : ∀ r ∈ records, pos ≤ r.offset := by
  induction h with
  | done => simp
  | cons hr _ ih =>
    intro s hs
    rcases List.mem_cons.mp hs with rfl | hs
    · exact Nat.le_refl _
    · have := ih s hs
      omega

theorem pairwise (h : Tiling bytes base pos records) :
    records.Pairwise fun r s => r.offset + r.size ≤ s.offset := by
  induction h with
  | done => exact .nil
  | cons _ hrest ih => exact .cons (fun s hs => hrest.le_offset s hs) ih

theorem nodup_offsets (h : Tiling bytes base pos records) :
    (records.map Record.offset).Nodup := by
  rw [List.Nodup, List.pairwise_map]
  apply h.pairwise.imp_of_mem
  intro r s hr _ hle
  have := (h.isRecord r hr).size_pos
  omega

theorem end_of_getLast? (h : Tiling bytes base pos records) (hr : records.getLast? = some r) :
    r.offset + r.size = bytes.size := by
  induction h with
  | done => cases hr
  | @cons first rest _ hrest ih =>
    cases rest with
    | nil =>
      obtain rfl : first = r := Option.some.inj hr
      generalize first.offset + first.size = last at hrest ⊢
      cases hrest
      rfl
    | cons second rest => exact ih (by rwa [List.getLast?_cons_cons] at hr)

end Tiling

theorem tiling_of_recordsFrom {found all : Array Record} (hpos : pos ≤ bytes.size)
    (h : bytes.recordsFrom base pos found = .ok all) :
    ∃ rest, all = found ++ rest.toArray ∧ Tiling bytes base pos rest := by
  fun_induction Bytes.recordsFrom bytes base pos found with
  | case1 => cases h
  | case2 pos found hlt r hr ih =>
    obtain ⟨rfl, hrecord⟩ := Bytes.isRecord_of_recordAt hr
    obtain ⟨rest, rfl, hrest⟩ := ih hrecord.fits h
    exact ⟨r :: rest, by simp, .cons hrecord hrest⟩
  | case3 pos found hge =>
    cases h
    have hend : pos = bytes.size := by omega
    subst hend
    exact ⟨[], by simp, .done⟩

theorem recordsFrom_of_tiling (hlimit : bytes.size < wordLimit)
    (h : Tiling bytes base pos records) (found : Array Record) :
    bytes.recordsFrom base pos found = .ok (found ++ records.toArray) := by
  induction h generalizing found with
  | done =>
    rw [Bytes.recordsFrom, if_neg (by omega)]
    simp
  | @cons r rest hr _ ih =>
    have := hr.size_pos
    have := hr.fits
    rw [Bytes.recordsFrom, if_pos (by omega)]
    split
    · rename_i e he
      rw [Bytes.recordAt_of_isRecord hlimit hr] at he
      cases he
    · rename_i s hs
      rw [Bytes.recordAt_of_isRecord hlimit hr] at hs
      cases hs
      rw [ih]
      simp

end Tilings
end HeapImage
