import HeapImage.Text.Hex

/-!
# Corruption

Why bytes are not an image, or not the image they are declared to be. Offsets count from the start
of the image.
-/

namespace HeapImage
set_option autoImplicit false

inductive Corruption where
  /-- The memory, its size or the base address is not a multiple of eight. -/
  | misaligned
  | badMagic
  | baseMismatch (stored declared : Nat)
  | unknownTag (offset tag : Nat)
  | badExtra (offset tag extra : Nat)
  | truncated (offset : Nat)
  | dangling (offset stored : Nat)
  | missingTerminator
deriving DecidableEq

def Corruption.message : Corruption → String
  | misaligned => "Region, its size, or its base address is not 8-aligned"
  | badMagic => "Region does not start with the region magic"
  | baseMismatch stored declared =>
    "Region was compacted for base address " ++ Hex.marked stored ++
      ", but was loaded as if for " ++ Hex.marked declared
  | unknownTag offset tag =>
    "Unknown tag " ++ Hex.marked tag ++ " in record at offset " ++ toString offset
  | badExtra offset tag extra =>
    "Invalid extra data " ++ Hex.marked extra ++ " for tag " ++ Hex.marked tag ++
      " in record at offset " ++ toString offset
  | truncated offset =>
    "Record at offset " ++ toString offset ++ " extends past the end of the region"
  | dangling offset stored =>
    "Reference " ++ Hex.marked stored ++ " at offset " ++ toString offset ++
      " does not denote the start of an object"
  | missingTerminator => "Region does not end with a terminator"

section Except
variable {ε α β : Type}

theorem bind_eq_ok_iff {x : Except ε α} {f : α → Except ε β} {b : β} :
    (x >>= f) = .ok b ↔ ∃ a, x = .ok a ∧ f a = .ok b := by
  cases x with
  | error e => simp [bind, Except.bind]
  | ok a => simp [bind, Except.bind]

theorem bind_eq_error_iff {x : Except ε α} {f : α → Except ε β} {e : ε} :
    (x >>= f) = .error e ↔ x = .error e ∨ ∃ a, x = .ok a ∧ f a = .error e := by
  cases x with
  | error e => simp [bind, Except.bind]
  | ok a => simp [bind, Except.bind]

theorem pure_eq_ok_iff {a b : α} : (pure a : Except ε α) = .ok b ↔ a = b := by
  simp [pure, Except.pure]

theorem map_eq_ok_iff {x : Except ε α} {f : α → β} {b : β} :
    f <$> x = .ok b ↔ ∃ a, x = .ok a ∧ f a = b := by
  cases x with
  | error e => simp [Functor.map, Except.map]
  | ok a => simp [Functor.map, Except.map]

theorem throw_ne_ok {e : ε} {b : α} : (throw e : Except ε α) ≠ .ok b := nofun

end Except

end HeapImage
