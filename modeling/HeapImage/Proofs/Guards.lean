import HeapImage.Proofs.Guard.InMemory

/-!
# Guards perform their actions once

What the theory of guards says for every sequence of steps.
-/

namespace HeapImage
set_option autoImplicit false

/-- Guards perform each action at most once, and lose none. In memory, steps have no faults and the
same answers as without one; answers are those of the history of the steps, which performs an action
where its guard is consumed or where it is called, and nowhere else. After each step, one thing and
no other has become of every action. One that was dismissed is performed only if it is called, or
if its guard is consumed after it has been armed again. -/
theorem guards_perform_once {ε : Type} (steps : List (GuardStep ε)) :
    GuardMemory.State.run {} steps = some (GuardState.run {} steps) ∧
    GuardState.run {} steps = (List.range steps.length).map (answerAt steps) ∧
    (∀ now i, performedAt steps now = some i → i ≤ now ∧ (effectOf steps i).isSome ∧
      ∀ other, performedAt steps other = some i → other = now) ∧
    (∀ now i, now ≤ steps.length → i < now → (effectOf steps i).isSome →
      ∃! fate : Fate, fate.Holds steps i now) ∧
    ∀ start now name i, (heldAt steps start).dismissed name = some i → start ≤ now →
      performedAt steps now = some i →
      steps[now]? = some (.call name) ∨ (heldAt steps now).armed name = some i ∧
        ∃ moment, start ≤ moment ∧ moment < now ∧ steps[moment]? = some (.rearm name) ∧
          (heldAt steps moment).dismissed name = some i := by
  exact ⟨GuardMemory.run_eq steps, GuardState.run_eq steps, fun now i => performed_once,
    fun now i hnow hlt hcreated => existsUnique_fate hnow hlt hcreated,
    fun start now name i => performed_of_dismissed⟩

/-- A guard is wrapped, dismissed, armed again, and then replaced by a second one. -/
example : GuardState.run {} [.create "a" 1, .wrap "a", .dismiss "a", .rearm "a", .create "a" 2] =
    [([], none), ([], none), ([], none), ([], none), ([1], none)] := by decide

end HeapImage
