import HeapImage.Heap.Worklist
import Std.Data.ExtTreeSet

/-!
# Structural equality

Two values are structurally equal if they are identical, or if they are objects of one kind with
equal data whose children at equal positions are structurally equal again. The decision keeps a
list of pairs still to be compared and a set of pairs met before, so that cycles end and shared
parts are compared once. A cell that is not settled yet is equal to itself only.
-/

namespace HeapImage
set_option autoImplicit false

/-- The pairs of references on which the equality of two objects depends, or nothing if the
objects already differ in kind, data or number of children. -/
def Object.pairs? {ρ : Type} : Object ρ → Object ρ → Option (List (ρ × ρ))
  | .constructor tag fields scalars, .constructor tag' fields' scalars' =>
    if tag = tag' ∧ scalars = scalars' ∧ fields.size = fields'.size then
      some (fields.toList.zip fields'.toList)
    else none
  | .array elements, .array elements' =>
    if elements.size = elements'.size then some (elements.toList.zip elements'.toList) else none
  | .byteArray elemSize bytes, .byteArray elemSize' bytes' =>
    if elemSize = elemSize' ∧ bytes = bytes' then some [] else none
  | .string bytes, .string bytes' => if bytes = bytes' then some [] else none
  | .thunk (.forced value), .thunk (.forced value') => some [(value, value')]
  | .task (some value), .task (some value') => some [(value, value')]
  | .promise (some value), .promise (some value') => some [(value, value')]
  | .mutableRef contents, .mutableRef contents' => some [(contents, contents')]
  | .bigInteger value, .bigInteger value' => if value = value' then some [] else none
  | _, _ => none

theorem Object.length_pairs?_le {ρ : Type} {o o' : Object ρ} {pairs : List (ρ × ρ)}
    (h : o.pairs? o' = some pairs) : pairs.length ≤ o.children.length := by
  unfold Object.pairs? at h
  split at h <;> try split at h
  all_goals simp_all [Object.children]
  all_goals subst h
  all_goals grind

abbrev pairOrder : Nat × Nat → Nat × Nat → Ordering :=
  compareLex (compareOn Prod.fst) (compareOn Prod.snd)

instance : Std.LawfulEqCmp pairOrder where
  eq_of_compare {p q} h := by
    simp only [compareLex, compareOn, Ordering.then_eq_eq, Nat.compare_eq_eq] at h
    exact Prod.ext h.1 h.2

instance : Std.TransCmp pairOrder := inferInstanceAs (Std.TransCmp (compareLex _ _))

abbrev PairSet := Std.ExtTreeSet (Nat × Nat) pairOrder

namespace Heap

/-- The numbers of references in the unmarked pairs of objects. -/
def unvisitedPairs (h : Heap) (visited : PairSet) : Nat :=
  remaining ((List.range h.size).flatMap fun i => (List.range h.size).map fun j => (i, j))
    visited.contains fun p => ((h.object p.1).pairs? (h.object p.2)).elim 0 List.length

theorem unvisitedPairs_insert (h : Heap) {visited : PairSet} {i j : Nat}
    (hnew : visited.contains (i, j) = false) {pairs : List (Value × Value)}
    (hpairs : (h.object i).pairs? (h.object j) = some pairs) :
    h.unvisitedPairs (visited.insert (i, j)) + pairs.length ≤ h.unvisitedPairs visited := by
  have hmono : ∀ p, visited.contains p = true → (visited.insert (i, j)).contains p = true := by
    intro p hp
    simp only [Std.ExtTreeSet.contains_insert, hp, Bool.or_true]
  by_cases hin : i < h.size ∧ j < h.size
  · have hmem : (i, j) ∈ (List.range h.size).flatMap fun i => (List.range h.size).map fun j => (i, j) := by
      simp [hin.1, hin.2]
    have hmark : (visited.insert (i, j)).contains (i, j) = true := by
      rw [Std.ExtTreeSet.contains_insert]
      simp
    have := remaining_mark (fun p => ((h.object p.1).pairs? (h.object p.2)).elim 0 List.length)
      hmem hnew hmark hmono
    simpa only [unvisitedPairs, hpairs, Option.elim_some] using this
  · have hlen : pairs.length = 0 := by
      have hle := Object.length_pairs?_le hpairs
      by_cases hi : i < h.size
      · have hj : h.size ≤ j := by omega
        have ho : h.object j = .array #[] := by simp [object, entry_of_size_le hj]
        rw [ho] at hpairs
        unfold Object.pairs? at hpairs
        split at hpairs <;> simp_all
      · have ho : h.object i = .array #[] := by
          simp [object, entry_of_size_le (show h.size ≤ i by omega)]
        simpa [ho, Object.children] using hle
    rw [hlen, Nat.add_zero]
    exact remaining_le _ hmono

/-- Whether all pairs of the list are equal, taking the visited pairs to be. -/
def equalFrom (h : Heap) (visited : PairSet) (todo : List (Value × Value)) : Bool :=
  match todo with
  | [] => true
  | (a, b) :: rest =>
    if a = b then h.equalFrom visited rest
    else match a, b with
      | .object i, .object j =>
        if _ : visited.contains (i, j) = true then h.equalFrom visited rest
        else match _ : (h.object i).pairs? (h.object j) with
          | none => false
          | some pairs => h.equalFrom (visited.insert (i, j)) (pairs ++ rest)
      | _, _ => false
termination_by h.unvisitedPairs visited + todo.length
decreasing_by
  · simp only [List.length_cons]
    omega
  · simp only [List.length_cons]
    omega
  · rename_i hnew hpairs
    have := h.unvisitedPairs_insert (Bool.eq_false_iff.mpr hnew) hpairs
    simp only [List.length_append, List.length_cons]
    omega

def structurallyEqual (h : Heap) (a b : Value) : Bool := h.equalFrom ∅ [(a, b)]

end Heap
end HeapImage
