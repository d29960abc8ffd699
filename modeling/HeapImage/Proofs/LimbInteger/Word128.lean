import HeapImage.LimbInteger.Word128
import HeapImage.Proofs.LimbInteger.Canonical

/-!
# Exact conversion

Whatever the limbs are, no shift loses a bit and no number without a negation is negated, and a
number that comes out is the integer. If the limbs have no zero on top, nothing comes out only for
integers out of range, as three such limbs denote at least `2 ^ 128`.
-/

namespace HeapImage
set_option autoImplicit false

namespace Word128
variable {n : Nat} {x : BitVec 128}

theorem shiftLeft?_eq_ok {amount : Nat} (hamount : amount < 128)
    (hfits : x.toNat <<< amount < limit) : shiftLeft? x amount = .ok (x <<< amount) :=
  if_pos ⟨hamount, hfits⟩

theorem msb_eq_false_iff : x.msb = false ↔ x.toNat < LimbInteger.int128Limit := by
  rw [BitVec.msb_eq_false_iff_two_mul_lt, LimbInteger.int128Limit]
  omega

theorem signed?_eq (x : BitVec 128) :
    signed? x = if x.toNat < LimbInteger.int128Limit then some x else none := by
  rw [signed?]
  by_cases hlt : x.toNat < LimbInteger.int128Limit
  · rw [msb_eq_false_iff.mpr hlt, if_neg Bool.false_ne_true, if_pos hlt]
  · have hmsb : x.msb = true := by
      rw [← Bool.not_eq_false, msb_eq_false_iff]
      exact hlt
    rw [hmsb, if_pos rfl, if_neg hlt]

theorem toInt_of_lt (hlt : x.toNat < LimbInteger.int128Limit) : x.toInt = x.toNat :=
  BitVec.toInt_eq_toNat_of_msb (msb_eq_false_iff.mpr hlt)

theorem toNat_intMin : (BitVec.intMin 128).toNat = LimbInteger.int128Limit := by
  rw [BitVec.toNat_intMin]
  decide

theorem negative?_eq (x : BitVec 128) : ∃ result, negative? x = .ok result ∧
    result.map BitVec.toInt =
      if x.toNat ≤ LimbInteger.int128Limit then some (-(x.toNat : Int)) else none := by
  have hshift : shiftLeft? 1 127 = .ok (.intMin 128) := by decide
  rw [negative?, hshift]
  simp only [bind, Except.bind, signed?_eq]
  by_cases hx : x = .intMin 128
  · subst hx
    exact ⟨some (.intMin 128), if_pos rfl, by decide⟩
  · have hne : x.toNat ≠ LimbInteger.int128Limit := by
      rw [← toNat_intMin]
      exact fun heq => hx (BitVec.eq_of_toNat_eq heq)
    rw [if_neg hx]
    by_cases hlt : x.toNat < LimbInteger.int128Limit
    · refine ⟨some (-x), ?_, ?_⟩
      · rw [if_pos hlt]
        simp only [negate?, if_neg hx]
        rfl
      · rw [if_pos hlt.le, Option.map_some, BitVec.toInt_neg_of_ne_intMin hx, toInt_of_lt hlt]
    · refine ⟨none, ?_, ?_⟩
      · rw [if_neg hlt]
        rfl
      · rw [if_neg (by omega)]
        rfl

theorem toNat_beside (low high : UInt64) :
    ((high.toBitVec.setWidth 128) <<< 64 ||| low.toBitVec.setWidth 128).toNat =
      high.toNat * LimbInteger.limbLimit + low.toNat := by
  have hlow := low.toNat_lt
  have hhigh := high.toNat_lt
  have hshifted : high.toNat <<< 64 < 2 ^ 128 := by
    rw [Nat.shiftLeft_eq]
    omega
  simp only [BitVec.toNat_or, BitVec.toNat_shiftLeft, BitVec.toNat_setWidth, UInt64.toNat_toBitVec]
  rw [Nat.mod_eq_of_lt (by omega : high.toNat < 2 ^ 128), Nat.mod_eq_of_lt hshifted,
    Nat.mod_eq_of_lt (by omega : low.toNat < 2 ^ 128), ← Nat.shiftLeft_add_eq_or_of_lt hlow,
    Nat.shiftLeft_eq]
  rfl

theorem ofLimbs?_eq (limbs : List UInt64) : ∃ result, ofLimbs? limbs = .ok result ∧
    result.map BitVec.toNat = LimbInteger.twoLimbs? limbs := by
  match limbs with
  | [] => exact ⟨_, rfl, rfl⟩
  | [low] =>
    refine ⟨_, rfl, ?_⟩
    have hlow := low.toNat_lt
    rw [Option.map_some, BitVec.toNat_setWidth, UInt64.toNat_toBitVec,
      Nat.mod_eq_of_lt (by omega), LimbInteger.twoLimbs?]
  | [low, high] =>
    have hhigh := high.toNat_lt
    have hfits : (high.toBitVec.setWidth 128).toNat <<< 64 < limit := by
      rw [BitVec.toNat_setWidth, UInt64.toNat_toBitVec, Nat.mod_eq_of_lt (by omega),
        Nat.shiftLeft_eq, limit]
      omega
    refine ⟨some ((high.toBitVec.setWidth 128) <<< 64 ||| low.toBitVec.setWidth 128), ?_, ?_⟩
    · rw [ofLimbs?, shiftLeft?_eq_ok (by decide) hfits]
      rfl
    · rw [Option.map_some, toNat_beside, LimbInteger.twoLimbs?]
  | _ :: _ :: _ :: _ => exact ⟨_, rfl, rfl⟩

end Word128

namespace LimbInteger
variable {x : LimbInteger}

/-- The checked conversion never overflows, and gives the same number as the conversion on integers. -/
theorem toWord128?_eq (x : LimbInteger) : ∃ result, x.toWord128? = .ok result ∧
    result.map BitVec.toInt = x.toInt128? := by
  obtain ⟨size?, hsize, hnat⟩ := Word128.ofLimbs?_eq x.limbs
  rw [toWord128?, toInt128?, hsize, ← hnat]
  cases size? with
  | none => exact ⟨none, rfl, rfl⟩
  | some size =>
    simp only [bind, Except.bind, Option.map_some, Option.bind_some]
    cases x.negative with
    | true =>
      rw [if_pos rfl, if_pos rfl]
      exact Word128.negative?_eq size
    | false =>
      rw [if_neg Bool.false_ne_true, if_neg Bool.false_ne_true, Word128.signed?_eq]
      refine ⟨_, rfl, ?_⟩
      by_cases hlt : size.toNat < int128Limit
      · rw [if_pos hlt, if_pos hlt, Option.map_some, Word128.toInt_of_lt hlt]
      · rw [if_neg hlt, if_neg hlt, Option.map_none]

theorem twoLimbs?_eq (limbs : List UInt64) :
    twoLimbs? limbs = if limbs.length ≤ 2 then some (magnitude limbs) else none := by
  match limbs with
  | [] | [_] => simp [twoLimbs?]
  | [low, high] =>
    have hvalue : high.toNat * limbLimit + low.toNat = magnitude [low, high] :=
      twoLimbs?_eq_magnitude rfl
    rw [if_pos (by simp), ← hvalue, twoLimbs?]
  | _ :: _ :: _ :: _ => simp [twoLimbs?]

/-- A number comes out if there are at most two limbs and the integer is in range. -/
theorem toInt128?_eq_some_iff {n : Int} : x.toInt128? = some n ↔
    x.limbs.length ≤ 2 ∧ n = x.toInt ∧ -(int128Limit : Int) ≤ x.toInt ∧ x.toInt < int128Limit := by
  have hcast : ∀ m k : Nat, (m : Int) < k ↔ m < k := fun _ _ => Int.ofNat_lt
  rw [toInt128?, twoLimbs?_eq, toInt]
  by_cases hlength : x.limbs.length ≤ 2
  · rw [if_pos hlength, Option.bind_eq_bind, Option.bind_some]
    cases x.negative with
    | true =>
      simp only [if_true, Option.ite_none_right_eq_some, Option.some.injEq]
      constructor
      · rintro ⟨hle, rfl⟩
        exact ⟨hlength, rfl, by omega, by simp only [int128Limit]; omega⟩
      · rintro ⟨_, rfl, hle, _⟩
        exact ⟨by omega, rfl⟩
    | false =>
      simp only [Bool.false_eq_true, if_false, Option.ite_none_right_eq_some, Option.some.injEq]
      constructor
      · rintro ⟨hlt, rfl⟩
        exact ⟨hlength, rfl, by omega, by omega⟩
      · rintro ⟨_, rfl, _, hlt⟩
        exact ⟨by omega, rfl⟩
  · rw [if_neg hlength]
    exact iff_of_false (Option.some_ne_none n).symm fun h => hlength h.1

theorem length_le_two (htop : ∀ limb, x.limbs.getLast? = some limb → limb ≠ 0)
    (hlower : -(int128Limit : Int) ≤ x.toInt) (hupper : x.toInt < int128Limit) :
    x.limbs.length ≤ 2 := by
  by_contra hlong
  have hne : x.limbs ≠ [] := by
    intro hnil
    rw [hnil] at hlong
    exact hlong (Nat.zero_le 2)
  have hsize : limbLimit ^ 2 ≤ magnitude x.limbs :=
    (Nat.pow_le_pow_right (by decide) (by omega)).trans (le_magnitude htop hne)
  have habs := natAbs_toInt x
  simp only [int128Limit, limbLimit] at hlower hupper hsize
  omega

theorem exists_toInt128?_eq_some_iff (htop : ∀ limb, x.limbs.getLast? = some limb → limb ≠ 0) :
    (∃ n, x.toInt128? = some n) ↔ -(2 : Int) ^ 127 ≤ x.toInt ∧ x.toInt ≤ 2 ^ 127 - 1 := by
  have hlimit : ((int128Limit : Nat) : Int) = 2 ^ 127 := by decide
  simp only [toInt128?_eq_some_iff, hlimit]
  constructor
  · rintro ⟨_, _, _, hlower, hupper⟩
    exact ⟨hlower, by omega⟩
  · rintro ⟨hlower, hupper⟩
    have hlt : x.toInt < 2 ^ 127 := by omega
    exact ⟨_, length_le_two htop (hlimit ▸ hlower) (hlimit ▸ hlt), rfl, hlower, hlt⟩

/-- The conversion on words runs through for all limbs. A number that it gives is the integer, and
without a zero on top it gives one exactly for the integers in range. -/
theorem toWord128_exact (x : LimbInteger) :
    ∃ result : Option (BitVec 128), x.toWord128? = .ok result ∧
      result.map BitVec.toInt = x.toInt128? ∧
      (∀ n, result = some n → n.toInt = x.toInt) ∧
      ((∀ limb, x.limbs.getLast? = some limb → limb ≠ 0) →
        ((∃ n, result = some n) ↔ -(2 : Int) ^ 127 ≤ x.toInt ∧ x.toInt ≤ 2 ^ 127 - 1)) := by
  obtain ⟨result, hresult, hnumber⟩ := toWord128?_eq x
  refine ⟨result, hresult, hnumber, ?_, fun htop => ?_⟩
  · rintro n rfl
    exact (toInt128?_eq_some_iff.mp hnumber.symm).2.1
  · rw [← exists_toInt128?_eq_some_iff htop, ← hnumber]
    cases result <;> simp

/-- The least number of 128 bits has the highest bit of its two limbs set, and is found to fit. -/
theorem least_exact : ∃ n : BitVec 128,
    (LimbInteger.mk true [0, 0x8000000000000000]).toWord128? = .ok (some n) ∧ n.toInt = -2 ^ 127 := by
  obtain ⟨result, hresult, -, hnumber, hfits⟩ :=
    toWord128_exact ⟨true, [0, 0x8000000000000000]⟩
  have hvalue : (LimbInteger.mk true [0, 0x8000000000000000]).toInt = -2 ^ 127 := by decide
  have htop : ∀ limb, [0, (0x8000000000000000 : UInt64)].getLast? = some limb → limb ≠ 0 := by
    rintro limb ⟨rfl⟩
    decide
  obtain ⟨n, rfl⟩ := (hfits htop).mpr (by rw [hvalue]; decide)
  exact ⟨n, hresult, (hnumber n rfl).trans hvalue⟩

end LimbInteger
end HeapImage
