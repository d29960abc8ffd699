import HeapImage.Proofs.Guard.History

/-!
# Effects of guards

Guards take effect as the history of the steps says: after each step, the effects so far are those
of the actions that have been performed, in the order in which they have been, between those that
scopes have on their own.
-/

namespace HeapImage
set_option autoImplicit false

section Histories
variable {ε : Type} {steps : List (GuardStep ε)} {step : GuardStep ε} {now : Nat}

theorem effectsBefore_succ (steps : List (GuardStep ε)) (now : Nat) :
    effectsBefore steps (now + 1) = effectsBefore steps now ++ effectsAt steps now := by
  simp [effectsBefore, List.range_succ]

theorem effectsAt_eq (h : steps[now]? = some step) :
    effectsAt steps now = step.plain ++
      ((step.performs (heldAt steps now) now).bind (effectOf steps)).toList := by
  rw [effectsAt, performedAt_eq h, h]
  rfl

theorem effectOf_eq (h : steps[now]? = some step) : effectOf steps now = step.effect? := by
  rw [effectOf, h, Option.bind_some]

end Histories

section Tables
variable {α : Type} {R : α → Nat → Prop} {t : Table α} {held : String → Option Nat}
variable {name : String} {a : α} {i : Nat}

/-- The table has something for the action that is held under each name, and nothing else. -/
def Table.Matches (R : α → Nat → Prop) (t : Table α) (held : String → Option Nat) : Prop :=
  ∀ name, Option.Rel R (t.find? name) (held name)

section Others
variable (h : ∀ other, name ≠ other → Option.Rel R (t.find? other) (held other))
include h

theorem Table.matches_erase :
    (t.erase name).Matches R fun other => if name = other then none else held other := by
  intro other
  dsimp only
  split
  · rename_i heq
    rw [← heq, Table.find?_erase_self]
    exact .none
  · rename_i hne
    rw [Table.find?_erase_ne t hne]
    exact h other hne

theorem Table.matches_insert (ha : R a i) :
    (t.insert name a).Matches R fun other => if name = other then some i else held other := by
  intro other
  dsimp only
  split
  · rename_i heq
    rw [← heq, Table.find?_insert_self]
    exact .some ha
  · rename_i hne
    rw [Table.find?_insert_ne t hne]
    exact h other hne

end Others

theorem Table.Matches.erase (h : t.Matches R held) (name : String) :
    (t.erase name).Matches R fun other => if name = other then none else held other :=
  Table.matches_erase fun other _ => h other

theorem Table.Matches.insert (h : t.Matches R held) (ha : R a i) :
    (t.insert name a).Matches R fun other => if name = other then some i else held other :=
  Table.matches_insert (fun other _ => h other) ha

/-- What is found under a name is for the action that is held there. -/
theorem Table.Matches.of_find? (h : t.Matches R held) (ha : t.find? name = some a) :
    ∃ i, held name = some i ∧ R a i := by
  have hname := h name
  rw [ha] at hname
  generalize hheld : held name = action at hname
  cases hname with
  | some hi => exact ⟨_, rfl, hi⟩

theorem Table.Matches.of_find?_eq_none (h : t.Matches R held) (hnone : t.find? name = none) :
    held name = none := by
  have hname := h name
  rw [hnone] at hname
  generalize held name = action at hname ⊢
  cases hname
  rfl

theorem Table.Matches.isSome_find? (h : t.Matches R held) (name : String) :
    (t.find? name).isSome = (held name).isSome := by
  have hname := h name
  generalize t.find? name = found at hname ⊢
  generalize held name = action at hname ⊢
  cases hname <;> rfl

theorem Table.Matches.of_find?_none (h : t.Matches R held) (hnone : t.find? name = none) :
    t.Matches R fun other => if name = other then none else held other := by
  intro other
  dsimp only
  split
  · rename_i heq
    rw [← heq, hnone]
    exact .none
  · exact h other

theorem Table.Matches.congr {held' : String → Option Nat} (h : t.Matches R held)
    (heq : ∀ other, held' other = held other) : t.Matches R held' :=
  fun other => heq other ▸ h other

end Tables

namespace GuardState
variable {ε : Type} {steps : List (GuardStep ε)}

/-- The state has these effects, and a guard or an action for each action that is held. -/
structure Shows (steps : List (GuardStep ε)) (effects : List ε) (held : Ledger)
    (s : GuardState ε) : Prop where
  log_eq : s.log = effects
  guards : s.guards.Matches (fun g i => effectOf steps i = some g.consume) held.armed
  dismissed : s.dismissed.Matches (fun f i => effectOf steps i = some f.perform) held.dismissed

section Steps
variable {s : GuardState ε} {effects : List ε} {held : Ledger} {name : String} {g : Guard ε}
variable {i now : Nat} {step : GuardStep ε}

theorem Shows.record (h : Shows steps effects held s) (effect : ε) :
    Shows steps (effects ++ [effect]) held (s.record effect) where
  log_eq := congrArg (· ++ [effect]) h.log_eq
  guards := h.guards
  dismissed := h.dismissed

theorem Shows.consume (h : Shows steps effects held s) (name : String) (g : Guard ε) :
    Shows steps (effects ++ [g.consume])
      { held with armed := fun other => if name = other then none else held.armed other }
      (s.consume name g) where
  log_eq := congrArg (· ++ [g.consume]) h.log_eq
  guards := h.guards.erase name
  dismissed := h.dismissed

theorem Shows.store (h : Shows steps effects held s) (name : String)
    (hg : effectOf steps i = some g.consume) :
    Shows steps (effects ++ ((held.armed name).bind (effectOf steps)).toList)
      { held with armed := fun other => if name = other then some i else held.armed other }
      (s.store name g) := by
  rw [GuardState.store]
  cases hfound : s.guards.find? name with
  | none =>
    rw [h.guards.of_find?_eq_none hfound]
    exact ⟨by simpa using h.log_eq, h.guards.insert hg,
      h.dismissed⟩
  | some old =>
    obtain ⟨j, hheld, hj⟩ := h.guards.of_find? hfound
    rw [hheld, Option.bind_some, hj]
    refine ⟨(h.consume name old).log_eq, Table.matches_insert (fun other hne => ?_) hg, h.dismissed⟩
    exact (Table.find?_erase_ne s.guards hne).symm ▸ h.guards other

theorem Shows.withGuard_consume (h : Shows steps effects held s) (name : String)
    (error : Option GuardError) :
    Shows steps (effects ++ ((held.armed name).bind (effectOf steps)).toList)
      { held with armed := fun other => if name = other then none else held.armed other }
      (s.withGuard name fun g => (s.consume name g, error)).1 := by
  rw [withGuard]
  cases hfound : s.guards.find? name with
  | none =>
    rw [h.guards.of_find?_eq_none hfound]
    exact ⟨by simpa using h.log_eq, h.guards.of_find?_none hfound, h.dismissed⟩
  | some g =>
    obtain ⟨i, hheld, hi⟩ := h.guards.of_find? hfound
    rw [hheld, Option.bind_some, hi]
    exact h.consume name g

theorem Shows.wrap (h : Shows steps effects held s) (name : String) :
    Shows steps effects held (s.step (.wrap name)).1 := by
  rw [GuardState.step, withGuard]
  cases hfound : s.guards.find? name with
  | none => exact h
  | some g =>
    obtain ⟨i, hheld, hi⟩ := h.guards.of_find? hfound
    have hwrapped : effectOf steps i = some g.wrap.consume := hi
    refine ⟨h.log_eq, ?_, h.dismissed⟩
    apply (h.guards.insert hwrapped).congr
    intro other
    split
    · rename_i heq
      rw [← heq, hheld]
    · rfl

theorem Shows.dismiss (h : Shows steps effects held s) (name : String) :
    Shows steps effects ((GuardStep.dismiss name : GuardStep ε).holds held now)
      (s.step (.dismiss name)).1 := by
  rw [GuardState.step, withGuard]
  cases hfound : s.guards.find? name with
  | none =>
    have hnone := h.guards.of_find?_eq_none hfound
    refine ⟨h.log_eq, h.guards.of_find?_none hfound, h.dismissed.congr ?_⟩
    intro other
    by_cases heq : name = other
    · subst heq
      simp [GuardStep.holds, hnone]
    · simp [GuardStep.holds, heq]
  | some g =>
    obtain ⟨i, hheld, hi⟩ := h.guards.of_find? hfound
    have hkept : effectOf steps i = some g.dismiss.perform := hi
    refine ⟨h.log_eq, h.guards.erase name, ?_⟩
    apply (h.dismissed.insert hkept).congr
    intro other
    by_cases heq : name = other
    · subst heq
      simp [GuardStep.holds, hheld]
    · simp [GuardStep.holds, heq]

theorem Shows.call (h : Shows steps effects held s) (name : String) :
    Shows steps (effects ++ ((held.dismissed name).bind (effectOf steps)).toList)
      { held with dismissed := fun other => if name = other then none else held.dismissed other }
      (s.step (.call name)).1 := by
  rw [GuardState.step, withAction]
  cases hfound : s.dismissed.find? name with
  | none =>
    rw [h.dismissed.of_find?_eq_none hfound]
    exact ⟨by simpa using h.log_eq, h.guards, h.dismissed.of_find?_none hfound⟩
  | some f =>
    obtain ⟨i, hheld, hi⟩ := h.dismissed.of_find? hfound
    rw [hheld, Option.bind_some, hi]
    exact ⟨congrArg (· ++ [f.perform]) h.log_eq, h.guards, h.dismissed.erase name⟩

theorem Shows.discard (h : Shows steps effects held s) (name : String) :
    Shows steps effects
      { held with dismissed := fun other => if name = other then none else held.dismissed other }
      (s.step (.discard name)).1 := by
  rw [GuardState.step, withAction]
  cases hfound : s.dismissed.find? name with
  | none => exact ⟨h.log_eq, h.guards, h.dismissed.of_find?_none hfound⟩
  | some f => exact ⟨h.log_eq, h.guards, h.dismissed.erase name⟩

theorem Shows.rearm (h : Shows steps effects held s) (name : String) :
    Shows steps
      (effects ++ (((GuardStep.rearm name : GuardStep ε).performs held now).bind
        (effectOf steps)).toList)
      ((GuardStep.rearm name : GuardStep ε).holds held now) (s.step (.rearm name)).1 := by
  rw [GuardState.step, withAction]
  cases hfound : s.dismissed.find? name with
  | none =>
    have hnone := h.dismissed.of_find?_eq_none hfound
    refine ⟨?_, h.guards.congr ?_, h.dismissed.of_find?_none hfound⟩
    · simpa [GuardStep.performs, hnone] using h.log_eq
    · intro other
      by_cases heq : name = other
      · subst heq
        simp [GuardStep.holds, hnone]
      · simp [GuardStep.holds, heq]
  | some f =>
    obtain ⟨i, hheld, hi⟩ := h.dismissed.of_find? hfound
    have hrest : Shows steps effects
        { held with dismissed := fun other => if name = other then none else held.dismissed other }
        { s with dismissed := s.dismissed.erase name } :=
      ⟨h.log_eq, h.guards, h.dismissed.erase name⟩
    have harmed : effectOf steps i = some (Guard.arm f).consume := hi
    have hstored := hrest.store name harmed
    refine ⟨?_, hstored.guards.congr ?_, hstored.dismissed⟩
    · simpa [GuardStep.performs, hheld] using hstored.log_eq
    · intro other
      by_cases heq : name = other
      · subst heq
        simp [GuardStep.holds, hheld]
      · simp [GuardStep.holds, heq]

/-- A step takes effect and leaves guards as the history says. -/
theorem Shows.after (h : Shows steps (effectsBefore steps now) (heldAt steps now) s)
    (hstep : steps[now]? = some step) :
    Shows steps (effectsBefore steps (now + 1)) (heldAt steps (now + 1)) (s.step step).1 := by
  rw [effectsBefore_succ, effectsAt_eq hstep, heldAt_succ hstep]
  have hnew := effectOf_eq hstep
  generalize effectsBefore steps now = effects at h ⊢
  generalize heldAt steps now = held at h ⊢
  cases step with
  | create name effect => exact h.store name hnew
  | createWrapped name effect => exact h.store name hnew
  | wrap name => exact (List.append_nil effects).symm ▸ h.wrap name
  | run name => exact h.withGuard_consume name none
  | drop name => exact h.withGuard_consume name none
  | unwind name => exact h.withGuard_consume name (some (.unwound name))
  | dismiss name => exact (List.append_nil effects).symm ▸ h.dismiss name
  | call name => exact h.call name
  | discard name => exact (List.append_nil effects).symm ▸ h.discard name
  | rearm name => exact h.rearm name
  | scope name enter body exit unwinds =>
    have hexit : effectOf steps now = some exit := hnew
    cases unwinds with
    | false =>
      have heffects : effects ++ ([enter, body] ++ ((some now).bind (effectOf steps)).toList) =
          effects ++ [enter] ++ [body] ++ [exit] := by simp [hexit]
      exact heffects ▸ ((h.record enter).record body).record exit
    | true =>
      have heffects : effects ++ ([enter] ++ ((some now).bind (effectOf steps)).toList) =
          effects ++ [enter] ++ [exit] := by simp [hexit]
      exact heffects ▸ (h.record enter).record exit

theorem Shows.error_eq (h : Shows steps effects held s) (step : GuardStep ε) :
    (s.step step).2 = step.error? held := by
  have hguard := h.guards.isSome_find?
  have haction := h.dismissed.isSome_find?
  cases step with
  | create | createWrapped => rfl
  | wrap name | run name | drop name | dismiss name | unwind name =>
    rw [GuardState.step, withGuard, GuardStep.error?, ← hguard]
    cases s.guards.find? name <;> rfl
  | call name | discard name | rearm name =>
    rw [GuardState.step, withAction, GuardStep.error?, ← haction]
    cases s.dismissed.find? name <;> rfl
  | scope name enter body exit unwinds => cases unwinds <;> rfl

end Steps

theorem Shows.run_eq {s : GuardState ε} {now : Nat}
    (h : Shows steps (effectsBefore steps now) (heldAt steps now) s) :
    s.run (steps.drop now) = (List.range' now (steps.length - now)).map (answerAt steps) := by
  by_cases hnow : now < steps.length
  · have hstep : steps[now]? = some steps[now] := List.getElem?_eq_getElem hnow
    have hafter := h.after hstep
    rw [List.drop_eq_getElem_cons hnow, GuardState.run,
      show steps.length - now = steps.length - (now + 1) + 1 by omega, List.range'_succ,
      List.map_cons, ← hafter.run_eq, answerAt, ← hafter.log_eq, hstep, Option.bind_some,
      ← h.error_eq]
  · rw [List.drop_eq_nil_of_le (by omega), show steps.length - now = 0 by omega]
    rfl
termination_by steps.length - now

theorem shows_empty (steps : List (GuardStep ε)) :
    Shows steps (effectsBefore steps 0) (heldAt steps 0) {} where
  log_eq := rfl
  guards _ := .none
  dismissed _ := .none

theorem run_eq (steps : List (GuardStep ε)) :
    GuardState.run {} steps = (List.range steps.length).map (answerAt steps) := by
  have h := (shows_empty steps).run_eq
  rwa [List.drop_zero, Nat.sub_zero, ← List.range_eq_range'] at h

end GuardState
end HeapImage
