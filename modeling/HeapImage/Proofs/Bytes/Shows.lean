import Mathlib
import HeapImage.Bytes.Buffer

/-!
# What bytes show

Facts about a few bytes somewhere in an array, as they are read back and written over. An array is
split into what stands before, at and behind a position.
-/

namespace HeapImage
set_option autoImplicit false

theorem leValue_leBytes (width n : Nat) : leValue (leBytes width n) = n % 256 ^ width := by
  induction width generalizing n with
  | zero => simp [leBytes, leValue, Nat.mod_one]
  | succ width ih =>
    simp only [leBytes, leValue, ih, Nat.pow_succ', Nat.mod_mul]
    simp

namespace Bytes

theorem field_lt (bytes : Bytes) (width pos : Nat) : bytes.field width pos < 256 ^ width := by
  induction width generalizing pos with
  | zero => simp [field]
  | succ width ih =>
    have := (bytes.getD pos 0).toNat_lt
    have := ih (pos + 1)
    simp only [field, Nat.pow_succ]
    omega

theorem word_lt (bytes : Bytes) (pos : Nat) : bytes.word pos < 2 ^ 64 :=
  field_lt bytes 8 pos

/-- From a position on, the bytes are the given ones. -/
def Shows (bytes : Bytes) (pos : Nat) (data : List UInt8) : Prop :=
  ∀ i, i < data.length → bytes[pos + i]? = data[i]?

section Reading
variable {bytes : Bytes} {pos : Nat} {data first second : List UInt8}

theorem shows_of_toList {before after : List UInt8} (h : bytes.toList = before ++ (data ++ after)) :
    bytes.Shows before.length data := by
  intro i hi
  rw [← Array.getElem?_toList, h, List.getElem?_append_right (Nat.le_add_right _ _),
    Nat.add_sub_cancel_left, List.getElem?_append_left hi]

@[simp] theorem shows_append :
    bytes.Shows pos (first ++ second) ↔
      bytes.Shows pos first ∧ bytes.Shows (pos + first.length) second := by
  constructor
  · intro h
    constructor
    · intro i hi
      rw [h i (by rw [List.length_append]; omega), List.getElem?_append_left hi]
    · intro i hi
      rw [Nat.add_assoc, h _ (by rw [List.length_append]; omega),
        List.getElem?_append_right (Nat.le_add_right _ _), Nat.add_sub_cancel_left]
  · intro hboth i hi
    obtain ⟨hfirst, hsecond⟩ := hboth
    rw [List.length_append] at hi
    by_cases hlt : i < first.length
    · rw [hfirst i hlt, List.getElem?_append_left hlt]
    · have := hsecond (i - first.length) (by omega)
      rw [show pos + first.length + (i - first.length) = pos + i by omega] at this
      rw [this, List.getElem?_append_right (by omega)]

theorem Shows.le_size (h : bytes.Shows pos data) (hdata : data ≠ []) :
    pos + data.length ≤ bytes.size := by
  have hpos := List.length_pos_iff.mpr hdata
  have hlast := h (data.length - 1) (by omega)
  rw [List.getElem?_eq_getElem (by omega)] at hlast
  obtain ⟨hlt, _⟩ := Array.getElem?_eq_some_iff.mp hlast
  omega

theorem Shows.field {width n : Nat} (h : bytes.Shows pos (leBytes width n)) :
    bytes.field width pos = n % 256 ^ width := by
  induction width generalizing pos n with
  | zero => simp [Bytes.field, Nat.mod_one]
  | succ width ih =>
    have hcons : leBytes (width + 1) n = [UInt8.ofNat (n % 256)] ++ leBytes width (n / 256) := rfl
    rw [hcons, shows_append, List.length_singleton] at h
    have hfirst := h.1 0 (by simp)
    rw [List.getElem?_cons_zero, Nat.add_zero] at hfirst
    rw [Bytes.field, Array.getD_eq_getD_getElem?, hfirst, ih h.2, Nat.pow_succ', Nat.mod_mul]
    simp

theorem Shows.word {n : Nat} (h : bytes.Shows pos (leBytes 8 n)) (hn : n < 2 ^ 64) :
    bytes.word pos = n := by
  rw [Bytes.word, h.field]
  exact Nat.mod_eq_of_lt hn

theorem Shows.half {n : Nat} (h : bytes.Shows pos (leBytes 4 n)) (hn : n < 2 ^ 32) :
    bytes.half pos = n := by
  rw [Bytes.half, h.field]
  exact Nat.mod_eq_of_lt hn

theorem Shows.extract (h : bytes.Shows pos data) :
    bytes.extract pos (pos + data.length) = data.toArray := by
  apply Array.ext_getElem?
  intro i
  have hright : data.toArray[i]? = data[i]? := List.getElem?_toArray
  rw [Array.getElem?_extract, hright]
  split
  · rename_i hi
    exact h i (by omega)
  · rename_i hi
    by_cases hdata : data = []
    · rw [hdata, List.getElem?_nil]
    · have := h.le_size hdata
      rw [List.getElem?_eq_none]
      omega

end Reading

section Comparing
variable {first second : Bytes} {pos width lo hi : Nat}

theorem field_congr (h : ∀ i, pos ≤ i → i < pos + width → first[i]? = second[i]?) :
    first.field width pos = second.field width pos := by
  induction width generalizing pos with
  | zero => rfl
  | succ width ih =>
    have hrest : first.field width (pos + 1) = second.field width (pos + 1) :=
      ih fun i hle hlt => h i (by omega) (by omega)
    rw [field, field, hrest, Array.getD_eq_getD_getElem?, Array.getD_eq_getD_getElem?,
      h pos (Nat.le_refl _) (by omega)]

theorem extract_congr (h : ∀ i, lo ≤ i → i < hi → first[i]? = second[i]?) :
    first.extract lo hi = second.extract lo hi := by
  have hread : ∀ (bytes : Bytes) i, (bytes.extract lo hi)[i]? =
      if lo + i < hi then bytes[lo + i]? else none := by
    intro bytes i
    rw [Array.getElem?_extract]
    by_cases hin : lo + i < hi
    · by_cases hlt : lo + i < bytes.size
      · rw [if_pos (by omega), if_pos hin]
      · rw [if_neg (by omega), if_pos hin, Array.getElem?_eq_none (by omega)]
    · rw [if_neg (by omega), if_neg hin]
  apply Array.ext_getElem?
  intro i
  rw [hread, hread]
  split
  · exact h _ (Nat.le_add_right _ _) (by assumption)
  · rfl

end Comparing

section Writing
variable {bytes : Bytes} {before old data after : List UInt8}

theorem toList_overwrite (h : bytes.toList = before ++ (old ++ after))
    (hlength : old.length = data.length) :
    (bytes.overwrite before.length data).toList = before ++ (data ++ after) := by
  have hsize : bytes.size = before.length + (data.length + after.length) := by
    rw [← Array.length_toList, h, List.length_append, List.length_append, hlength]
  apply List.ext_getElem?
  intro i
  rw [Array.getElem?_toList, getElem?_overwrite]
  split
  · rename_i hi
    rw [List.getElem?_append_right hi.1, List.getElem?_append_left (by omega)]
  · rename_i hi
    rw [← Array.getElem?_toList, h]
    by_cases hlt : i < before.length
    · rw [List.getElem?_append_left hlt, List.getElem?_append_left hlt]
    · rw [List.getElem?_append_right (by omega), List.getElem?_append_right (by omega)]
      by_cases hin : i < before.length + data.length
      · have : bytes.size ≤ i := by omega
        omega
      · rw [List.getElem?_append_right (by omega), List.getElem?_append_right (by omega), hlength]

/-- Writing into zeros leaves zeros in front of and behind what is written. -/
theorem toList_overwrite_zeros {zeros gap pos : Nat}
    (h : bytes.toList = before ++ List.replicate zeros 0) (hpos : pos = before.length + gap)
    (hfits : gap + data.length ≤ zeros) :
    (bytes.overwrite pos data).toList =
      (before ++ List.replicate gap 0 ++ data) ++
        List.replicate (zeros - (gap + data.length)) 0 := by
  have hsplit : bytes.toList = (before ++ List.replicate gap 0) ++
      (List.replicate data.length 0 ++ List.replicate (zeros - (gap + data.length)) 0) := by
    rw [h, List.append_assoc]
    simp only [List.replicate_append_replicate]
    congr 2
    omega
  have hwrite := toList_overwrite hsplit (show _ = data.length from List.length_replicate)
  rw [List.length_append, List.length_replicate, ← hpos] at hwrite
  rw [hwrite, List.append_assoc, List.append_assoc, List.append_assoc]

theorem overwrite_append (bytes : Bytes) (pos : Nat) (first second : List UInt8) :
    bytes.overwrite pos (first ++ second) =
      (bytes.overwrite pos first).overwrite (pos + first.length) second := by
  induction first generalizing bytes pos with
  | nil => rfl
  | cons byte rest ih =>
    rw [List.cons_append, overwrite, ih, overwrite, List.length_cons]
    congr 1
    omega

theorem overwrite_of_shows {pos : Nat} (h : bytes.Shows pos data) :
    bytes.overwrite pos data = bytes := by
  apply Array.ext_getElem?
  intro i
  rw [getElem?_overwrite]
  split
  · rename_i hi
    have hshown := h (i - pos) (by omega)
    rwa [Nat.add_sub_cancel' hi.1, eq_comm] at hshown
  · rfl

theorem toList_shrink (h : bytes.toList = before ++ after) :
    (bytes.shrink before.length).toList = before := by
  apply List.ext_getElem?
  intro i
  rw [Array.getElem?_toList, Array.shrink_eq_take, Array.take_eq_extract, Array.getElem?_extract,
    Nat.zero_add, ← Array.getElem?_toList, h]
  have hsize : bytes.size = before.length + after.length := by
    rw [← Array.length_toList, h, List.length_append]
  split
  · rw [List.getElem?_append_left (by omega)]
  · rw [List.getElem?_eq_none (by omega)]

end Writing

end Bytes
end HeapImage
