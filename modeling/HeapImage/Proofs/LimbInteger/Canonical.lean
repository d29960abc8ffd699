import Mathlib
import HeapImage.LimbInteger

/-!
# Canonical limbs

Limbs are the digits of the magnitude in base `2 ^ 64`, and those without a zero at the most
significant end are the only ones. So an integer has one canonical representation, and of canonical
representations it is enough to compare sign and limbs.
-/

namespace HeapImage
set_option autoImplicit false

namespace LimbInteger
variable {limbs limbs' : List UInt64} {x y : LimbInteger}

theorem one_lt_limbLimit : 1 < limbLimit := by decide

theorem limb_lt_limbLimit (limb : UInt64) : limb.toNat < limbLimit := limb.toNat_lt

theorem magnitude_eq_ofDigits (limbs : List UInt64) :
    magnitude limbs = Nat.ofDigits limbLimit (limbs.map UInt64.toNat) := by
  induction limbs with
  | nil => rfl
  | cons limb rest ih => rw [magnitude_cons, List.map_cons, Nat.ofDigits_cons, ih]

theorem digits_lt_limbLimit : ∀ digit ∈ limbs.map UInt64.toNat, digit < limbLimit := by
  intro digit hdigit
  obtain ⟨limb, _, rfl⟩ := List.mem_map.mp hdigit
  exact limb_lt_limbLimit limb

theorem magnitude_append_zeros (limbs : List UInt64) (count : Nat) :
    magnitude (limbs ++ List.replicate count 0) = magnitude limbs := by
  rw [magnitude_eq_ofDigits, magnitude_eq_ofDigits, List.map_append, List.map_replicate]
  exact Nat.ofDigits_append_replicate_zero _

section Tops
variable (htop : ∀ limb, limbs.getLast? = some limb → limb ≠ 0)
include htop

theorem getLast_digits_ne_zero (hne : limbs.map UInt64.toNat ≠ []) :
    (limbs.map UInt64.toNat).getLast hne ≠ 0 := by
  have hlimbs : limbs ≠ [] := fun hnil => hne (List.map_eq_nil_iff.mpr hnil)
  rw [List.getLast_map]
  intro hzero
  exact htop _ (List.getLast?_eq_some_getLast hlimbs) (UInt64.toNat_inj.mp hzero)

/-- Limbs without a zero on top are found again from the magnitude. -/
theorem digits_magnitude : Nat.digits limbLimit (magnitude limbs) = limbs.map UInt64.toNat := by
  rw [magnitude_eq_ofDigits]
  exact Nat.digits_ofDigits _ one_lt_limbLimit _ digits_lt_limbLimit (getLast_digits_ne_zero htop)

/-- The magnitude is as large as the number of limbs says. -/
theorem le_magnitude (hne : limbs ≠ []) : limbLimit ^ (limbs.length - 1) ≤ magnitude limbs := by
  have hdigits : limbs.map UInt64.toNat ≠ [] := fun hnil => hne (List.map_eq_nil_iff.mp hnil)
  have hle := Nat.pow_length_le_mul_ofDigits (b := limbLimit - 2) hdigits
    (getLast_digits_ne_zero htop hdigits)
  rw [show limbLimit - 2 + 2 = limbLimit from rfl, ← magnitude_eq_ofDigits, List.length_map] at hle
  obtain ⟨count, hcount⟩ := Nat.exists_eq_succ_of_ne_zero (List.length_pos_iff.mpr hne).ne'
  rw [hcount, Nat.pow_succ'] at hle
  rw [hcount]
  exact Nat.le_of_mul_le_mul_left hle (by decide)

end Tops

theorem eq_of_magnitude_eq (htop : ∀ limb, limbs.getLast? = some limb → limb ≠ 0)
    (htop' : ∀ limb, limbs'.getLast? = some limb → limb ≠ 0)
    (heq : magnitude limbs = magnitude limbs') : limbs = limbs' := by
  have hdigits : limbs.map UInt64.toNat = limbs'.map UInt64.toNat := by
    rw [← digits_magnitude htop, ← digits_magnitude htop', heq]
  exact List.map_injective_iff.mpr (fun _ _ => UInt64.toNat_inj.mp) hdigits

theorem natAbs_toInt (x : LimbInteger) : x.toInt.natAbs = magnitude x.limbs := by
  rw [toInt]
  split
  · rw [Int.natAbs_neg, Int.natAbs_natCast]
  · exact Int.natAbs_natCast _

theorem eq_nil_of_magnitude_eq_zero (htop : ∀ limb, limbs.getLast? = some limb → limb ≠ 0)
    (hzero : magnitude limbs = 0) : limbs = [] :=
  eq_of_magnitude_eq htop nofun hzero

namespace Canonical

/-- Canonical values without limbs are the one for zero. -/
theorem isZero_iff (hx : x.Canonical) : x.isZero = true ↔ x.toInt = 0 := by
  rw [isZero, List.isEmpty_iff, ← Int.natAbs_eq_zero, natAbs_toInt]
  constructor
  · intro hnil
    rw [hnil, magnitude_nil]
  · exact eq_nil_of_magnitude_eq_zero hx.top

theorem negative_iff (hx : x.Canonical) : x.negative = true ↔ x.toInt < 0 := by
  cases hsign : x.negative with
  | false =>
    rw [toInt, hsign]
    simp
  | true =>
    have hlimbs : x.limbs ≠ [] := by
      intro hnil
      rw [hx.sign hnil] at hsign
      cases hsign
    have hpos : magnitude x.limbs ≠ 0 := fun hzero =>
      hlimbs (eq_nil_of_magnitude_eq_zero hx.top hzero)
    rw [toInt, hsign, if_pos rfl]
    simp only [true_iff]
    omega

/-- An integer has one canonical representation. -/
theorem eq_iff (hx : x.Canonical) (hy : y.Canonical) : x = y ↔ x.toInt = y.toInt := by
  constructor
  · exact congrArg toInt
  · intro heq
    have hlimbs : x.limbs = y.limbs := by
      apply eq_of_magnitude_eq hx.top hy.top
      rw [← natAbs_toInt, ← natAbs_toInt, heq]
    have hsign : x.negative = y.negative := by
      rw [Bool.eq_iff_iff, hx.negative_iff, hy.negative_iff, heq]
    cases x
    cases y
    cases hlimbs
    cases hsign
    rfl

end Canonical

section Trimming

theorem exists_eq_trim_append (limbs : List UInt64) :
    ∃ count, limbs = trim limbs ++ List.replicate count 0 := by
  have hzeros : ∀ limb ∈ limbs.rtakeWhile (· == 0), limb = 0 := by
    intro limb hlimb
    simpa using List.mem_rtakeWhile_imp hlimb
  have hsplit : trim limbs ++ limbs.rtakeWhile (· == 0) = limbs := List.rdropWhile_append_rtakeWhile
  rw [List.eq_replicate_length.mpr hzeros] at hsplit
  exact ⟨_, hsplit.symm⟩

theorem getLast?_trim {limb : UInt64} (hlast : (trim limbs).getLast? = some limb) : limb ≠ 0 := by
  have hne : limbs.rdropWhile (· == 0) ≠ [] := by
    intro hnil
    rw [trim, ← List.rdropWhile, hnil] at hlast
    cases hlast
  have hnonzero := List.rdropWhile_last_not (· == 0) limbs hne
  rw [List.getLast_eq_iff_getLast?_eq_some hne |>.mpr hlast] at hnonzero
  simpa using hnonzero

theorem magnitude_trim (limbs : List UInt64) : magnitude (trim limbs) = magnitude limbs := by
  obtain ⟨count, heq⟩ := exists_eq_trim_append limbs
  conv_rhs => rw [heq, magnitude_append_zeros]

end Trimming

/-- Whatever sign and limbs it is made from, a value is canonical. -/
theorem canonical_ofLimbs (negative : Bool) (limbs : List UInt64) :
    (ofLimbs negative limbs).Canonical := by
  refine ⟨fun limb hlast => getLast?_trim hlast, fun hnil => ?_⟩
  simp only [ofLimbs] at hnil ⊢
  rw [hnil, List.isEmpty_nil, Bool.not_true, Bool.and_false]

theorem toInt_ofLimbs (negative : Bool) (limbs : List UInt64) :
    (ofLimbs negative limbs).toInt = (LimbInteger.mk negative limbs).toInt := by
  simp only [toInt, ofLimbs, magnitude_trim]
  cases hkept : trim limbs with
  | nil =>
    have hzero : magnitude limbs = 0 := by rw [← magnitude_trim, hkept, magnitude_nil]
    simp [hzero]
  | cons limb rest => simp

end LimbInteger
end HeapImage
