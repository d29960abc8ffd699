import HeapImage.Heap.Basic

/-!
# Work left in a traversal

A traversal that marks an object when it first meets it, and then queues the children of that
object, ends: whatever is queued is paid for by an object that was not marked before. The same
count serves for traversals over pairs of objects.
-/

namespace HeapImage
set_option autoImplicit false

/-- The weight of what has not been marked yet. -/
def remaining {α : Type} (items : List α) (marked : α → Bool) (weight : α → Nat) : Nat :=
  (items.filter fun a => !marked a).foldr (fun a total => weight a + total) 0

theorem remaining_le {α : Type} {items : List α} {marked marked' : α → Bool}
    (weight : α → Nat) (hmono : ∀ b, marked b = true → marked' b = true) :
    remaining items marked' weight ≤ remaining items marked weight := by
  induction items with
  | nil => simp [remaining]
  | cons b rest ih =>
    simp only [remaining] at ih ⊢
    by_cases h : marked b = true
    · simp [h, hmono b h, ih]
    · by_cases h' : marked' b = true
      · simp only [List.filter_cons, h, h', Bool.not_true, Bool.not_false]
        simp only [Bool.false_eq_true, ↓reduceIte, List.foldr_cons]
        omega
      · simp [h, h', ih]

/-- Marking something new frees its weight. -/
theorem remaining_mark {α : Type} {items : List α} {marked marked' : α → Bool}
    (weight : α → Nat) {a : α} (ha : a ∈ items) (hnew : marked a = false)
    (hmark : marked' a = true) (hmono : ∀ b, marked b = true → marked' b = true) :
    remaining items marked' weight + weight a ≤ remaining items marked weight := by
  induction items with
  | nil => simp at ha
  | cons b rest ih =>
    have hle : remaining rest marked' weight ≤ remaining rest marked weight :=
      remaining_le weight hmono
    simp only [remaining] at ih hle ⊢
    rcases List.mem_cons.mp ha with rfl | hmem
    · simp only [List.filter_cons, hnew, hmark, Bool.not_true, Bool.not_false, Bool.false_eq_true,
        ↓reduceIte, List.foldr_cons]
      omega
    · have := ih hmem
      by_cases h : marked b = true
      · simp [h, hmono b h, this]
      · by_cases h' : marked' b = true
        · simp only [List.filter_cons, h, h', Bool.not_true, Bool.not_false, Bool.false_eq_true,
            ↓reduceIte, List.foldr_cons]
          omega
        · simp only [List.filter_cons, h, h', Bool.not_false, ↓reduceIte, List.foldr_cons]
          omega

namespace Heap

/-- References that unmarked objects still have to contribute to a traversal. -/
def unvisited (h : Heap) (marked : Nat → Bool) : Nat :=
  remaining (List.range h.size) marked fun id => (h.objectChildren id).length

theorem unvisited_le (h : Heap) {marked marked' : Nat → Bool}
    (hmono : ∀ id, marked id = true → marked' id = true) :
    h.unvisited marked' ≤ h.unvisited marked :=
  remaining_le _ hmono

/-- Marking an object pays for queueing its children, also when the object is not in the heap. -/
theorem unvisited_mark (h : Heap) {marked marked' : Nat → Bool} {id : Nat}
    (hnew : marked id = false) (hmark : marked' id = true)
    (hmono : ∀ other, marked other = true → marked' other = true) :
    h.unvisited marked' + (h.objectChildren id).length ≤ h.unvisited marked := by
  by_cases hid : id < h.size
  · exact remaining_mark _ (List.mem_range.mpr hid) hnew hmark hmono
  · rw [objectChildren_of_size_le (by omega)]
    exact unvisited_le h hmono

end Heap
end HeapImage
