import Mathlib
import HeapImage.Guard

/-!
# What becomes of actions

An action is known by the step that has created it. The steps say by themselves which action is
armed and which one is dismissed under each name, and so which actions a step performs or discards.
This is a conservation law. After each step, every action that has been created is armed or
dismissed under one name, or it has been performed or discarded in one step, and never two of them.
-/

namespace HeapImage
set_option autoImplicit false

/-- The actions under each name: the one of the guard, and the one that is dismissed. -/
structure Ledger where
  armed : String → Option Nat
  dismissed : String → Option Nat

namespace GuardStep
variable {ε : Type}

def effect? : GuardStep ε → Option ε
  | create _ effect | createWrapped _ effect => some effect
  | scope _ _ _ exit _ => some exit
  | _ => none

/-- The effects that a step has on its own. -/
def plain : GuardStep ε → List ε
  | scope _ enter body _ unwinds => if unwinds then [enter] else [enter, body]
  | _ => []

/-- The action that a step performs: that of a guard that it consumes, or one that it calls. -/
def performs (held : Ledger) (now : Nat) : GuardStep ε → Option Nat
  | create name _ | createWrapped name _ => held.armed name
  | run name | drop name | unwind name => held.armed name
  | rearm name => if (held.dismissed name).isSome then held.armed name else none
  | call name => held.dismissed name
  | scope .. => some now
  | wrap _ | dismiss _ | discard _ => none

/-- The action that a step gives up without performing it. -/
def discards (held : Ledger) : GuardStep ε → Option Nat
  | discard name => held.dismissed name
  | dismiss name => if (held.armed name).isSome then held.dismissed name else none
  | _ => none

def error? (held : Ledger) : GuardStep ε → Option GuardError
  | create .. | createWrapped .. => none
  | wrap name | run name | drop name | dismiss name =>
    if (held.armed name).isSome then none else some (.noGuard name)
  | unwind name => if (held.armed name).isSome then some (.unwound name) else some (.noGuard name)
  | call name | discard name | rearm name =>
    if (held.dismissed name).isSome then none else some (.noAction name)
  | scope name _ _ _ unwinds => if unwinds then some (.unwound name) else none

/-- Which actions are held after a step. -/
def holds (held : Ledger) (now : Nat) (step : GuardStep ε) : Ledger where
  armed name :=
    match step with
    | create other _ | createWrapped other _ => if other = name then some now else held.armed name
    | run other | drop other | unwind other | dismiss other =>
      if other = name then none else held.armed name
    | rearm other =>
      if other = name ∧ (held.dismissed name).isSome then held.dismissed name else held.armed name
    | _ => held.armed name
  dismissed name :=
    match step with
    | dismiss other =>
      if other = name ∧ (held.armed name).isSome then held.armed name else held.dismissed name
    | call other | discard other | rearm other =>
      if other = name then none else held.dismissed name
    | _ => held.dismissed name

end GuardStep

section Histories
variable {ε : Type} (steps : List (GuardStep ε))

def heldAt : Nat → Ledger
  | 0 => ⟨fun _ => none, fun _ => none⟩
  | now + 1 =>
    match steps[now]? with
    | some step => step.holds (heldAt now) now
    | none => heldAt now

def performedAt (now : Nat) : Option Nat :=
  steps[now]?.bind fun step => step.performs (heldAt steps now) now

def discardedAt (now : Nat) : Option Nat :=
  steps[now]?.bind fun step => step.discards (heldAt steps now)

def effectOf (i : Nat) : Option ε := steps[i]?.bind GuardStep.effect?

/-- The effects of a step: those that it has on its own, and then that of the action that it
performs. -/
def effectsAt (now : Nat) : List ε :=
  (steps[now]?.elim [] GuardStep.plain) ++ ((performedAt steps now).bind (effectOf steps)).toList

def effectsBefore (now : Nat) : List ε := (List.range now).flatMap (effectsAt steps)

def answerAt (now : Nat) : List ε × Option GuardError :=
  (effectsBefore steps (now + 1), steps[now]?.bind fun step => step.error? (heldAt steps now))

/-- What can become of an action. -/
inductive Fate where
  | armed (name : String)
  | dismissed (name : String)
  | performed (moment : Nat)
  | discarded (moment : Nat)

/-- What has become of an action after the first steps. -/
def Fate.Holds (i now : Nat) : Fate → Prop
  | armed name => (heldAt steps now).armed name = some i
  | dismissed name => (heldAt steps now).dismissed name = some i
  | performed moment => moment < now ∧ performedAt steps moment = some i
  | discarded moment => moment < now ∧ discardedAt steps moment = some i

end Histories

namespace GuardStep
variable {ε : Type}

/-- What becomes of an action in a step. -/
def next (held : Ledger) (now : Nat) (step : GuardStep ε) : Fate → Fate
  | .armed name =>
    match step with
    | create other _ | createWrapped other _ | run other | drop other | unwind other =>
      if other = name then .performed now else .armed name
    | rearm other =>
      if other = name ∧ (held.dismissed name).isSome then .performed now else .armed name
    | dismiss other => if other = name then .dismissed name else .armed name
    | _ => .armed name
  | .dismissed name =>
    match step with
    | call other => if other = name then .performed now else .dismissed name
    | discard other => if other = name then .discarded now else .dismissed name
    | dismiss other =>
      if other = name ∧ (held.armed name).isSome then .discarded now else .dismissed name
    | rearm other => if other = name then .armed name else .dismissed name
    | _ => .dismissed name
  | fate => fate

/-- What becomes of an action in the step that creates it. -/
def first? (now : Nat) : GuardStep ε → Option Fate
  | create name _ | createWrapped name _ => some (.armed name)
  | scope .. => some (.performed now)
  | _ => none

section Inversion
variable {held : Ledger} {step : GuardStep ε} {name : String} {i now : Nat}

theorem isSome_first? (step : GuardStep ε) (now : Nat) :
    (step.first? now).isSome = step.effect?.isSome := by
  cases step <;> rfl

theorem armed_cases (h : (step.holds held now).armed name = some i) :
    (i = now ∧ step.first? now = some (.armed name)) ∨
      (held.armed name = some i ∧ step.next held now (.armed name) = .armed name) ∨
      (held.dismissed name = some i ∧ step = .rearm name ∧
        step.next held now (.dismissed name) = .armed name) := by
  cases step <;> simp only [holds, first?, next] at * <;> grind

theorem dismissed_cases (h : (step.holds held now).dismissed name = some i) :
    (held.armed name = some i ∧ step.next held now (.armed name) = .dismissed name) ∨
      (held.dismissed name = some i ∧ step.next held now (.dismissed name) = .dismissed name) := by
  cases step <;> simp only [holds, next] at * <;> grind

theorem performs_cases (h : step.performs held now = some i) :
    (i = now ∧ step.first? now = some (.performed now)) ∨
      (∃ name, held.armed name = some i ∧ step.next held now (.armed name) = .performed now) ∨
      ∃ name, held.dismissed name = some i ∧ step = .call name ∧
        step.next held now (.dismissed name) = .performed now := by
  cases step <;> simp only [performs, first?, next] at * <;> grind

theorem discards_cases (h : step.discards held = some i) :
    ∃ name, held.dismissed name = some i ∧
      step.next held now (.dismissed name) = .discarded now := by
  cases step <;> simp only [discards, next] at * <;> grind

end Inversion

end GuardStep

section Fates
variable {ε : Type} {steps : List (GuardStep ε)} {step : GuardStep ε} {i now : Nat} {fate : Fate}

theorem heldAt_succ (h : steps[now]? = some step) :
    heldAt steps (now + 1) = step.holds (heldAt steps now) now := by
  rw [heldAt, h]

theorem performedAt_eq (h : steps[now]? = some step) :
    performedAt steps now = step.performs (heldAt steps now) now := by
  rw [performedAt, h, Option.bind_some]

theorem discardedAt_eq (h : steps[now]? = some step) :
    discardedAt steps now = step.discards (heldAt steps now) := by
  rw [discardedAt, h, Option.bind_some]

/-- Nothing is lost in a step. -/
theorem Fate.Holds.next (h : steps[now]? = some step) (hfate : fate.Holds steps i now) :
    (step.next (heldAt steps now) now fate).Holds steps i (now + 1) := by
  have hperformed := performedAt_eq h
  have hdiscarded := discardedAt_eq h
  cases fate with
  | armed name =>
    simp only [Holds] at hfate
    cases step <;> simp only [GuardStep.next] <;> try split
    all_goals
      simp only [Holds, heldAt_succ h, GuardStep.holds, GuardStep.performs] at *
      grind
  | dismissed name =>
    simp only [Holds] at hfate
    cases step <;> simp only [GuardStep.next] <;> try split
    all_goals
      simp only [Holds, heldAt_succ h, GuardStep.holds, GuardStep.performs,
        GuardStep.discards] at *
      grind
  | performed moment => exact ⟨Nat.lt_succ_of_lt hfate.1, hfate.2⟩
  | discarded moment => exact ⟨Nat.lt_succ_of_lt hfate.1, hfate.2⟩

theorem Fate.holds_first (h : steps[now]? = some step) (hfirst : step.first? now = some fate) :
    fate.Holds steps now (now + 1) := by
  have hperformed := performedAt_eq h
  cases step <;> cases hfirst <;>
    simp [Holds, heldAt_succ h, GuardStep.holds, hperformed, GuardStep.performs]

/-- Nothing appears in a step but the action that it creates. -/
theorem Fate.Holds.previous (h : steps[now]? = some step) (hfate : fate.Holds steps i (now + 1)) :
    (i = now ∧ step.first? now = some fate) ∨
      ∃ old : Fate, old.Holds steps i now ∧ step.next (heldAt steps now) now old = fate := by
  cases fate with
  | armed name =>
    rw [Holds, heldAt_succ h] at hfate
    rcases GuardStep.armed_cases hfate with hfirst | ⟨hold, hnext⟩ | ⟨hold, _, hnext⟩
    · exact .inl hfirst
    · exact .inr ⟨armed name, hold, hnext⟩
    · exact .inr ⟨dismissed name, hold, hnext⟩
  | dismissed name =>
    rw [Holds, heldAt_succ h] at hfate
    rcases GuardStep.dismissed_cases hfate with ⟨hold, hnext⟩ | ⟨hold, hnext⟩
    · exact .inr ⟨armed name, hold, hnext⟩
    · exact .inr ⟨dismissed name, hold, hnext⟩
  | performed moment =>
    obtain ⟨hlt, hmoment⟩ := hfate
    by_cases hpast : moment < now
    · exact .inr ⟨performed moment, ⟨hpast, hmoment⟩, rfl⟩
    obtain rfl : moment = now := by omega
    rw [performedAt_eq h] at hmoment
    rcases GuardStep.performs_cases hmoment with
      hfirst | ⟨name, hold, hnext⟩ | ⟨name, hold, _, hnext⟩
    · exact .inl hfirst
    · exact .inr ⟨armed name, hold, hnext⟩
    · exact .inr ⟨dismissed name, hold, hnext⟩
  | discarded moment =>
    obtain ⟨hlt, hmoment⟩ := hfate
    by_cases hpast : moment < now
    · exact .inr ⟨discarded moment, ⟨hpast, hmoment⟩, rfl⟩
    obtain rfl : moment = now := by omega
    rw [discardedAt_eq h] at hmoment
    obtain ⟨name, hold, hnext⟩ := GuardStep.discards_cases hmoment
    exact .inr ⟨dismissed name, hold, hnext⟩

theorem Fate.not_holds_zero (fate : Fate) : ¬fate.Holds steps i 0 := by
  cases fate <;> simp [Holds, heldAt]

theorem Fate.Holds.created (hnow : now ≤ steps.length) (hfate : fate.Holds steps i now) :
    i < now ∧ (effectOf steps i).isSome := by
  induction now generalizing fate with
  | zero => exact absurd hfate fate.not_holds_zero
  | succ now ih =>
    have hstep : steps[now]? = some steps[now] := List.getElem?_eq_getElem hnow
    rcases hfate.previous hstep with ⟨rfl, hfirst⟩ | ⟨old, hold, _⟩
    · refine ⟨Nat.lt_succ_self i, ?_⟩
      rw [effectOf, hstep, Option.bind_some, ← GuardStep.isSome_first? _ i, hfirst]
      rfl
    · obtain ⟨hlt, hcreated⟩ := ih (by omega) hold
      exact ⟨Nat.lt_succ_of_lt hlt, hcreated⟩

/-- After each step, one thing and no other has become of each action that has been created. -/
theorem existsUnique_fate (hnow : now ≤ steps.length) (hlt : i < now)
    (hcreated : (effectOf steps i).isSome) : ∃! fate : Fate, fate.Holds steps i now := by
  induction now with
  | zero => omega
  | succ now ih =>
    have hstep : steps[now]? = some steps[now] := List.getElem?_eq_getElem hnow
    by_cases hnew : i = now
    · subst hnew
      rw [effectOf, hstep, Option.bind_some, ← GuardStep.isSome_first? _ i] at hcreated
      obtain ⟨first, hfirst⟩ := Option.isSome_iff_exists.mp hcreated
      refine ⟨first, Fate.holds_first hstep hfirst, fun fate hfate => ?_⟩
      rcases hfate.previous hstep with ⟨_, hother⟩ | ⟨old, hold, _⟩
      · exact Option.some.inj (hother.symm.trans hfirst)
      · exact absurd (hold.created (by omega)).1 (Nat.lt_irrefl i)
    · obtain ⟨old, hold, hunique⟩ := ih (by omega) (by omega)
      refine ⟨_, hold.next hstep, fun fate hfate => ?_⟩
      rcases hfate.previous hstep with ⟨heq, _⟩ | ⟨other, hother, rfl⟩
      · exact absurd heq hnew
      · rw [hunique other hother]

theorem Fate.Holds.unique {other : Fate} (hnow : now ≤ steps.length)
    (hfate : fate.Holds steps i now) (hother : other.Holds steps i now) : fate = other := by
  obtain ⟨hlt, hcreated⟩ := hfate.created hnow
  exact (existsUnique_fate hnow hlt hcreated).unique hfate hother

theorem holds_performed (h : performedAt steps now = some i) :
    now < steps.length ∧ (Fate.performed now).Holds steps i (now + 1) := by
  obtain ⟨step, hstep, _⟩ := Option.bind_eq_some_iff.mp h
  exact ⟨(List.getElem?_eq_some_iff.mp hstep).1, Nat.lt_succ_self now, h⟩

/-- Only actions that have been created are performed, and none of them twice. -/
theorem performed_once (h : performedAt steps now = some i) :
    i ≤ now ∧ (effectOf steps i).isSome ∧
      ∀ other, performedAt steps other = some i → other = now := by
  obtain ⟨hlt, hfate⟩ := holds_performed h
  obtain ⟨hle, hcreated⟩ := hfate.created hlt
  refine ⟨Nat.le_of_lt_succ hle, hcreated, fun other hother => ?_⟩
  have hlast : (Fate.performed now).Holds steps i steps.length := ⟨hlt, h⟩
  have hotherLast : (Fate.performed other).Holds steps i steps.length :=
    ⟨(holds_performed hother).1, hother⟩
  exact Fate.performed.inj (hotherLast.unique (Nat.le_refl _) hlast)

end Fates

section Dismissing
variable {ε : Type} {steps : List (GuardStep ε)} {i start now : Nat} {name : String}

/-- An action that was dismissed stays under its name, and is armed only if it is armed again. -/
theorem of_dismissed (hdismissed : (heldAt steps start).dismissed name = some i)
    (hstart : start ≤ now) (hnow : now ≤ steps.length) :
    (∀ other, (heldAt steps now).dismissed other = some i → other = name) ∧
      ∀ other, (heldAt steps now).armed other = some i → other = name ∧
        ∃ moment, start ≤ moment ∧ moment < now ∧ steps[moment]? = some (.rearm name) ∧
          (heldAt steps moment).dismissed name = some i := by
  induction now, hstart using Nat.le_induction with
  | base =>
    have hheld : (Fate.dismissed name).Holds steps i start := hdismissed
    refine ⟨fun other hother => ?_, fun other hother => ?_⟩
    · have hfate : (Fate.dismissed other).Holds steps i start := hother
      exact (Fate.dismissed.inj (hheld.unique hnow hfate)).symm
    · have hfate : (Fate.armed other).Holds steps i start := hother
      cases hheld.unique hnow hfate
  | succ now hstart ih =>
    obtain ⟨hleft, hright⟩ := ih (by omega)
    have hstep : steps[now]? = some steps[now] := List.getElem?_eq_getElem hnow
    have hlater : ∀ other, (heldAt steps now).armed other = some i → other = name ∧
        ∃ moment, start ≤ moment ∧ moment < now + 1 ∧ steps[moment]? = some (.rearm name) ∧
          (heldAt steps moment).dismissed name = some i := by
      intro other hother
      obtain ⟨hname, moment, hle, hlt, hrest⟩ := hright other hother
      exact ⟨hname, moment, hle, Nat.lt_succ_of_lt hlt, hrest⟩
    rw [heldAt_succ hstep]
    refine ⟨fun other hother => ?_, fun other hother => ?_⟩
    · rcases GuardStep.dismissed_cases hother with ⟨hold, _⟩ | ⟨hold, _⟩
      · exact (hright other hold).1
      · exact hleft other hold
    · rcases GuardStep.armed_cases hother with ⟨rfl, _⟩ | ⟨hold, _⟩ | ⟨hold, hrearm, _⟩
      · have hheld : (Fate.dismissed name).Holds steps i start := hdismissed
        have := (hheld.created (by omega)).1
        omega
      · exact hlater other hold
      · obtain rfl := hleft other hold
        exact ⟨rfl, now, hstart, Nat.lt_succ_self now, hrearm ▸ hstep, hold⟩

/-- An action that was dismissed is performed only if it is called, or its guard is consumed after
it has been armed again. -/
theorem performed_of_dismissed (hdismissed : (heldAt steps start).dismissed name = some i)
    (hstart : start ≤ now) (hperformed : performedAt steps now = some i) :
    steps[now]? = some (.call name) ∨ (heldAt steps now).armed name = some i ∧
      ∃ moment, start ≤ moment ∧ moment < now ∧ steps[moment]? = some (.rearm name) ∧
        (heldAt steps moment).dismissed name = some i := by
  obtain ⟨step, hstep, hperforms⟩ := Option.bind_eq_some_iff.mp hperformed
  have hnow : now < steps.length := (List.getElem?_eq_some_iff.mp hstep).1
  obtain ⟨hleft, hright⟩ := of_dismissed hdismissed hstart hnow.le
  rcases GuardStep.performs_cases hperforms with ⟨rfl, _⟩ | ⟨other, hold, _⟩ | ⟨other, hold, rfl, _⟩
  · have hheld : (Fate.dismissed name).Holds steps i start := hdismissed
    have := (hheld.created (by omega)).1
    omega
  · obtain ⟨rfl, hmoment⟩ := hright other hold
    exact .inr ⟨hold, hmoment⟩
  · obtain rfl := hleft other hold
    exact .inl hstep

end Dismissing
end HeapImage
