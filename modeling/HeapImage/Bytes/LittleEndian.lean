/-!
# Little-endian fields of byte arrays

Fixed-width numbers, least significant byte first, and how they are read from and written into an
array of bytes. Reading and writing are total: bytes past the end read as zero, and are not
written. Callers that need to know a field is inside the array ask `size` first.
-/

namespace HeapImage
set_option autoImplicit false

abbrev Bytes := Array UInt8

/-- The `width` low-order bytes of a number. -/
def leBytes : Nat → Nat → List UInt8
  | 0, _ => []
  | width + 1, n => UInt8.ofNat (n % 256) :: leBytes width (n / 256)

def leValue : List UInt8 → Nat
  | [] => 0
  | b :: rest => b.toNat + 256 * leValue rest

namespace Bytes

/-- The number in the `width` bytes from `pos` on. -/
def field (bytes : Bytes) : Nat → Nat → Nat
  | 0, _ => 0
  | width + 1, pos => (bytes.getD pos 0).toNat + 256 * field bytes width (pos + 1)

def word (bytes : Bytes) (pos : Nat) : Nat := field bytes 8 pos

def half (bytes : Bytes) (pos : Nat) : Nat := field bytes 4 pos

def overwrite (bytes : Bytes) (pos : Nat) : List UInt8 → Bytes
  | [] => bytes
  | b :: rest => overwrite (bytes.setIfInBounds pos b) (pos + 1) rest

end Bytes

@[simp] theorem length_leBytes (width n : Nat) : (leBytes width n).length = width := by
  induction width generalizing n with
  | zero => rfl
  | succ width ih => simp [leBytes, ih]

namespace Bytes

@[simp] theorem size_overwrite (bytes : Bytes) (pos : Nat) (data : List UInt8) :
    (bytes.overwrite pos data).size = bytes.size := by
  induction data generalizing bytes pos with
  | nil => rfl
  | cons b rest ih => simp [overwrite, ih]

/-- Inside the written range the new bytes show, elsewhere the old ones. -/
theorem getElem?_overwrite (bytes : Bytes) (pos : Nat) (data : List UInt8) (i : Nat) :
    (bytes.overwrite pos data)[i]? =
      if pos ≤ i ∧ i < pos + data.length ∧ i < bytes.size then data[i - pos]? else bytes[i]? := by
  induction data generalizing bytes pos with
  | nil =>
    rw [if_neg (by simp only [List.length_nil]; omega)]
    rfl
  | cons b rest ih =>
    simp only [overwrite, ih, Array.size_setIfInBounds, List.length_cons]
    by_cases h : pos = i
    · subst h
      rw [if_neg (by omega)]
      by_cases hs : pos < bytes.size
      · simp [hs]
      · simp [hs]
    · by_cases hin : pos + 1 ≤ i ∧ i < pos + 1 + rest.length ∧ i < bytes.size
      · rw [if_pos hin, if_pos (by omega), show i - pos = i - (pos + 1) + 1 by omega]
        simp
      · rw [if_neg hin, if_neg (by omega), Array.getElem?_setIfInBounds_ne h]

end Bytes
end HeapImage
