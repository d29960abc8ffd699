/-!
# Integers in 64-bit limbs

A sign and a magnitude, least significant limb first. Several representations may denote one
integer; `ofLimbs` picks the canonical one. Nothing here assumes that a given value is canonical.
-/

namespace HeapImage
set_option autoImplicit false

structure LimbInteger where
  negative : Bool
  limbs : List UInt64
deriving DecidableEq

namespace LimbInteger

def limbLimit : Nat := 0x10000000000000000

def magnitude : List UInt64 → Nat
  | [] => 0
  | limb :: rest => limb.toNat + limbLimit * magnitude rest

/-- The integer denoted, whether or not the representation is canonical. -/
def toInt (x : LimbInteger) : Int :=
  if x.negative then -(magnitude x.limbs : Int) else (magnitude x.limbs : Int)

/-- No most significant limb is zero, and zero is not negative. -/
structure Canonical (x : LimbInteger) : Prop where
  top : ∀ limb, x.limbs.getLast? = some limb → limb ≠ 0
  sign : x.limbs = [] → x.negative = false

def trim (limbs : List UInt64) : List UInt64 :=
  (limbs.reverse.dropWhile (· == 0)).reverse

/-- The canonical representation for a sign and a list of limbs. -/
def ofLimbs (negative : Bool) (limbs : List UInt64) : LimbInteger :=
  let kept := trim limbs
  ⟨negative && !kept.isEmpty, kept⟩

/-- Only a value without limbs counts as zero. -/
def isZero (x : LimbInteger) : Bool := x.limbs.isEmpty

/-- The value of at most two limbs; longer magnitudes are not looked at. -/
def twoLimbs? : List UInt64 → Option Nat
  | [] => some 0
  | [low] => some low.toNat
  | [low, high] => some (high.toNat * limbLimit + low.toNat)
  | _ => none

def int128Limit : Nat := 0x80000000000000000000000000000000

/-- A signed 128-bit number: below the limit, or the negated limit and above. -/
def toInt128? (x : LimbInteger) : Option Int := do
  let size ← twoLimbs? x.limbs
  if x.negative then
    if size ≤ int128Limit then some (-(size : Int)) else none
  else
    if size < int128Limit then some (size : Int) else none

@[simp] theorem magnitude_nil : magnitude [] = 0 := rfl

@[simp] theorem magnitude_cons (limb : UInt64) (rest : List UInt64) :
    magnitude (limb :: rest) = limb.toNat + limbLimit * magnitude rest := rfl

theorem twoLimbs?_eq_magnitude {limbs : List UInt64} {n : Nat} (h : twoLimbs? limbs = some n) :
    n = magnitude limbs := by
  match limbs, h with
  | [], h => simpa [twoLimbs?] using h.symm
  | [low], h => simpa [twoLimbs?] using h.symm
  | [low, high], h =>
    simp only [twoLimbs?, Option.some.injEq] at h
    simp only [magnitude_cons, magnitude_nil, limbLimit] at h ⊢
    omega

end LimbInteger
end HeapImage
