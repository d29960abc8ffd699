import HeapImage.LimbInteger

/-!
# Conversion on 128-bit words

How an integer in limbs becomes a signed 128-bit number, on words of that width. A magnitude of at
most two limbs is put together by a shift, and the sign is applied by a negation. Both are checked:
a shift must not lose a bit, and the least signed number has no negation.
-/

namespace HeapImage
set_option autoImplicit false

namespace Word128

def limit : Nat := 0x100000000000000000000000000000000

inductive Overflow where
  | shift
  | negation
deriving DecidableEq

/-- The amount of a shift is below the width, and no bit is shifted out. -/
def shiftLeft? (x : BitVec 128) (amount : Nat) : Except Overflow (BitVec 128) :=
  if amount < 128 ∧ x.toNat <<< amount < limit then .ok (x <<< amount) else .error .shift

def negate? (x : BitVec 128) : Except Overflow (BitVec 128) :=
  if x = .intMin 128 then .error .negation else .ok (-x)

/-- An unsigned number as a signed one, if there is such a signed number. -/
def signed? (x : BitVec 128) : Option (BitVec 128) := if x.msb then none else some x

/-- The negative of an unsigned number. That of the least signed number cannot be had by negation,
so it is taken out first. -/
def negative? (x : BitVec 128) : Except Overflow (Option (BitVec 128)) := do
  if x = (← shiftLeft? 1 127) then return some (.intMin 128)
  else match signed? x with
    | none => return none
    | some n => return some (← negate? n)

/-- The magnitude of at most two limbs; longer ones are not looked at. -/
def ofLimbs? : List UInt64 → Except Overflow (Option (BitVec 128))
  | [] => .ok (some 0)
  | [low] => .ok (some (low.toBitVec.setWidth 128))
  | [low, high] => do
    let shifted ← shiftLeft? (high.toBitVec.setWidth 128) 64
    return some (shifted ||| low.toBitVec.setWidth 128)
  | _ => .ok none

end Word128

/-- The integer as a signed word, if it is found to fit. -/
def LimbInteger.toWord128? (x : LimbInteger) : Except Word128.Overflow (Option (BitVec 128)) := do
  match ← Word128.ofLimbs? x.limbs with
  | none => return none
  | some size => if x.negative then Word128.negative? size else return Word128.signed? size

end HeapImage
