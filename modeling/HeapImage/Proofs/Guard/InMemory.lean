import HeapImage.Guard.InMemory
import HeapImage.Proofs.Guard.Effects

/-!
# Guards in memory have no faults

In memory each action has one owner, or it is used up: that is what the history of the steps says.
So no action is moved out of a place twice, none is used up twice, and all that is answered is the
same as without a memory.
-/

namespace HeapImage
set_option autoImplicit false

section Owners
variable {ε : Type} {steps : List (GuardStep ε)} {now : Nat}

/-- An action that has been performed or discarded in one of the first steps. -/
def Gone (steps : List (GuardStep ε)) (now i : Nat) : Prop :=
  ∃ moment, moment < now ∧ (performedAt steps moment = some i ∨ discardedAt steps moment = some i)

/-- No action has two owners, and none is held that is gone. -/
structure Ledger.Separate (held : Ledger) (now : Nat) (gone : Nat → Prop) : Prop where
  armed_inj : ∀ {name other i}, held.armed name = some i → held.armed other = some i → name = other
  apart : ∀ {name other i}, held.armed name = some i → held.dismissed other ≠ some i
  armed_kept : ∀ {name i}, held.armed name = some i → i < now ∧ ¬gone i
  dismissed_kept : ∀ {name i}, held.dismissed name = some i → i < now ∧ ¬gone i
  gone_lt : ∀ {i}, gone i → i < now

theorem Ledger.Separate.armed_ne {held : Ledger} {gone : Nat → Prop} {name : String} {i : Nat}
    (h : held.Separate now gone) (hname : held.armed name = some i) :
    ∀ other, name ≠ other → held.armed other ≠ some i :=
  fun _ hne hother => hne (h.armed_inj hname hother)

theorem Ledger.Separate.armed_ne_now {held : Ledger} {gone : Nat → Prop}
    (h : held.Separate now gone) (name : String) : held.armed name ≠ some now :=
  fun hheld => Nat.lt_irrefl now (h.armed_kept hheld).1

theorem Gone.exists_fate {i : Nat} (h : Gone steps now i) : ∃ fate : Fate, fate.Holds steps i now ∧
    ∃ moment, fate = .performed moment ∨ fate = .discarded moment := by
  obtain ⟨moment, hlt, hperformed | hdiscarded⟩ := h
  · exact ⟨.performed moment, ⟨hlt, hperformed⟩, moment, .inl rfl⟩
  · exact ⟨.discarded moment, ⟨hlt, hdiscarded⟩, moment, .inr rfl⟩

theorem separate_heldAt (hnow : now ≤ steps.length) :
    (heldAt steps now).Separate now (Gone steps now) where
  armed_inj {name other i} hname hother := by
    have hleft : (Fate.armed name).Holds steps i now := hname
    have hright : (Fate.armed other).Holds steps i now := hother
    exact Fate.armed.inj (hleft.unique hnow hright)
  apart {name other i} hname hother := by
    have hleft : (Fate.armed name).Holds steps i now := hname
    have hright : (Fate.dismissed other).Holds steps i now := hother
    cases hleft.unique hnow hright
  armed_kept {name i} hname := by
    have hheld : (Fate.armed name).Holds steps i now := hname
    refine ⟨(hheld.created hnow).1, fun hgone => ?_⟩
    obtain ⟨fate, hfate, moment, rfl | rfl⟩ := hgone.exists_fate <;> cases hheld.unique hnow hfate
  dismissed_kept {name i} hname := by
    have hheld : (Fate.dismissed name).Holds steps i now := hname
    refine ⟨(hheld.created hnow).1, fun hgone => ?_⟩
    obtain ⟨fate, hfate, moment, rfl | rfl⟩ := hgone.exists_fate <;> cases hheld.unique hnow hfate
  gone_lt hgone := by
    obtain ⟨fate, hfate, _⟩ := hgone.exists_fate
    exact (hfate.created hnow).1

end Owners

namespace GuardMemory
variable {ε : Type} {steps : List (GuardStep ε)}

structure Is (steps : List (GuardStep ε)) (action : Deferred (Owned ε)) (i : Nat) : Prop where
  id_eq : action.perform.id = i
  effect_eq : effectOf steps i = some action.perform.effect

def Stands (steps : List (GuardStep ε)) (m : Memory ε) (pos i : Nat) : Prop :=
  ∃ action, m.places[pos]? = some ⟨action, false, true⟩ ∧ Is steps action i

/-- The memory holds all guards of another one but at most that of one action. -/
def Keeps (steps : List (GuardStep ε)) (m kept : Memory ε) (j : Nat) : Prop :=
  ∀ pos i, i ≠ j → Stands steps m pos i → Stands steps kept pos i

section Operations
variable {m : Memory ε} {action : Deferred (Owned ε)} {pos i : Nat}

theorem keeps_of_places {m kept : Memory ε} {j : Nat} {place : Place ε}
    (hstands : Stands steps m pos j)
    (h : kept.places = m.places.setIfInBounds pos place) : Keeps steps m kept j := by
  intro other i hne ⟨action, hplace, his⟩
  obtain ⟨held, hheld, hisHeld⟩ := hstands
  have hpos : pos ≠ other := by
    rintro rfl
    rw [hheld] at hplace
    cases hplace
    exact hne (his.id_eq.symm.trans hisHeld.id_eq)
  refine ⟨action, ?_, his⟩
  rw [h, Array.getElem?_setIfInBounds_ne hpos]
  exact hplace

theorem new_eq (m : Memory ε) (h : Is steps action i) :
    Stands steps (m.new action).1 (m.new action).2 i ∧
      ∀ j, Keeps steps m (m.new action).1 j := by
  refine ⟨⟨action, ?_, h⟩, ?_⟩
  · simp [Memory.new]
  · intro j pos i _ ⟨other, hplace, his⟩
    refine ⟨other, ?_, his⟩
    have hlt : pos < m.places.size := (Array.getElem?_eq_some_iff.mp hplace).1
    simpa [Memory.new, Array.getElem?_push, hlt.ne] using hplace

theorem discard_eq (h : Is steps action i) (hkept : i ∉ m.spent) :
    m.discard action = some { m with spent := i :: m.spent } := by
  obtain ⟨rfl, _⟩ := h
  rw [Memory.discard, if_neg hkept]

theorem call_eq (h : Is steps action i) (hkept : i ∉ m.spent) :
    m.call action =
      some { m with spent := i :: m.spent, log := m.log ++ [action.perform.effect] } := by
  rw [Memory.call, discard_eq h hkept]
  rfl

theorem take_eq {live : Bool} (h : m.places[pos]? = some ⟨action, false, live⟩) :
    m.take pos =
      some ({ m with places := m.places.setIfInBounds pos ⟨action, true, live⟩ }, action) := by
  rw [Memory.take, h]
  rfl

theorem forget_eq {taken : Bool} (h : m.places[pos]? = some ⟨action, taken, true⟩) :
    m.forget pos =
      some { m with places := m.places.setIfInBounds pos ⟨action, taken, false⟩ } := by
  rw [Memory.forget, h]
  rfl

/-- The memory after the action has been moved out of a place that is not dropped any more. -/
def retire (m : Memory ε) (pos : Nat) (action : Deferred (Owned ε)) : Memory ε :=
  { m with places := m.places.setIfInBounds pos ⟨action, true, false⟩ }

theorem keeps_retire (h : Stands steps m pos i) : Keeps steps m (retire m pos action) i :=
  keeps_of_places h rfl

theorem dismiss_eq (h : m.places[pos]? = some ⟨action, false, true⟩) :
    m.dismiss pos = some (retire m pos action, action) := by
  have hlt : pos < m.places.size := (Array.getElem?_eq_some_iff.mp h).1
  have htaken : (m.places.setIfInBounds pos ⟨action, true, true⟩)[pos]? =
      some ⟨action, true, true⟩ := Array.getElem?_setIfInBounds_self_of_lt hlt
  have hretired : (retire m pos action).places[pos]? = some ⟨action, true, false⟩ :=
    Array.getElem?_setIfInBounds_self_of_lt hlt
  have hleft : (retire m pos action).leave pos = some (retire m pos action) := by
    rw [Memory.leave, hretired]
    rfl
  rw [Memory.dismiss, take_eq h, Option.bind_eq_bind, Option.bind_some]
  dsimp only
  rw [forget_eq htaken, Option.bind_eq_bind, Option.bind_some, Array.setIfInBounds_setIfInBounds]
  change (retire m pos action).leave pos >>= _ = _
  rw [hleft]
  rfl

theorem leave_eq (h : m.places[pos]? = some ⟨action, false, true⟩) :
    m.leave pos = (retire m pos action).call action := by
  have hlt : pos < m.places.size := (Array.getElem?_eq_some_iff.mp h).1
  have hforgotten : (m.places.setIfInBounds pos ⟨action, false, false⟩)[pos]? =
      some ⟨action, false, false⟩ := Array.getElem?_setIfInBounds_self_of_lt hlt
  rw [Memory.leave, h, Option.bind_eq_bind, Option.bind_some]
  change m.drop pos = _
  rw [Memory.drop, forget_eq h, Option.bind_eq_bind, Option.bind_some, take_eq hforgotten,
    Option.bind_eq_bind, Option.bind_some, Array.setIfInBounds_setIfInBounds]
  rfl

theorem exists_leave (h : Stands steps m pos i) (hkept : i ∉ m.spent) :
    ∃ left, m.leave pos = some left ∧ left.log = m.log ++ (effectOf steps i).toList ∧
      left.spent = i :: m.spent ∧ Keeps steps m left i := by
  obtain ⟨action, hplace, his⟩ := id h
  have hcall := call_eq (m := retire m pos action) his hkept
  refine ⟨_, (leave_eq hplace).trans hcall, ?_, rfl, keeps_of_places h rfl⟩
  rw [his.effect_eq]
  rfl

theorem exists_dismiss (h : Stands steps m pos i) :
    ∃ left action, m.dismiss pos = some (left, action) ∧ Is steps action i ∧
      left.log = m.log ∧ left.spent = m.spent ∧ Keeps steps m left i := by
  obtain ⟨action, hplace, his⟩ := id h
  exact ⟨_, action, dismiss_eq hplace, his, rfl, rfl, keeps_retire h⟩

/-- The guard of a wrapped action has the effect of the guard that is dismissed for it. -/
theorem exists_wrap (h : Stands steps m pos i) :
    ∃ left other, m.wrap pos = some (left, other) ∧ Stands steps left other i ∧
      left.log = m.log ∧ left.spent = m.spent ∧ Keeps steps m left i := by
  obtain ⟨left, action, hdismiss, his, hlog, hspent, hkeeps⟩ := exists_dismiss h
  have hwrapped : Is steps (.wrapped action) i := ⟨his.id_eq, his.effect_eq⟩
  obtain ⟨hstands, hnew⟩ := new_eq left hwrapped
  refine ⟨(left.new (.wrapped action)).1, (left.new (.wrapped action)).2, ?_, hstands, hlog, hspent,
    fun other j hne hother => hnew i other j hne (hkeeps other j hne hother)⟩
  rw [Memory.wrap, hdismiss]
  rfl

end Operations

/-- The state has these effects, a guard in memory or an action for each action that is held, and
nothing is used up that is not gone. -/
structure Shows (steps : List (GuardStep ε)) (effects : List ε) (held : Ledger)
    (gone : Nat → Prop) (s : State ε) : Prop where
  log_eq : s.memory.log = effects
  guards : s.guards.Matches (Stands steps s.memory) held.armed
  dismissed : s.dismissed.Matches (Is steps) held.dismissed
  spent : ∀ i ∈ s.memory.spent, gone i

section Steps
variable {s : State ε} {effects : List ε} {held : Ledger} {gone : Nat → Prop} {name : String}
variable {pos i j now : Nat} {dismissed : String → Option Nat}

theorem Shows.kept {kept : Memory ε} (h : Shows steps effects held gone s)
    (hkeeps : Keeps steps s.memory kept j) {other : String} (hj : held.armed other ≠ some j) :
    Option.Rel (Stands steps kept) (s.guards.find? other) (held.armed other) := by
  have hguard := h.guards other
  generalize s.guards.find? other = found at hguard ⊢
  generalize held.armed other = action at hguard hj ⊢
  cases hguard with
  | none => exact .none
  | some hstands => exact .some (hkeeps _ _ (fun heq => hj (congrArg some heq)) hstands)

theorem Shows.congr {effects' : List ε} {held' : Ledger} {gone' : Nat → Prop}
    (h : Shows steps effects held gone s) (heffects : effects' = effects)
    (harmed : ∀ other, held'.armed other = held.armed other)
    (hdismissed : ∀ other, held'.dismissed other = held.dismissed other)
    (hgone : ∀ i, gone i → gone' i) : Shows steps effects' held' gone' s where
  log_eq := heffects ▸ h.log_eq
  guards := h.guards.congr harmed
  dismissed := h.dismissed.congr hdismissed
  spent i hi := hgone i (h.spent i hi)

section Separate
variable (hsep : held.Separate now gone)
include hsep

theorem Shows.consume (h : Shows steps effects { held with dismissed := dismissed } gone s)
    (hfound : s.guards.find? name = some pos) :
    ∃ next, s.consume name pos = some next ∧ next.now = s.now ∧
      Shows steps (effects ++ ((held.armed name).bind (effectOf steps)).toList)
        { armed := fun other => if name = other then none else held.armed other
          dismissed := dismissed }
        (fun i => gone i ∨ held.armed name = some i) next ∧
      next.guards = s.guards.erase name ∧
      ∀ j, held.armed name ≠ some j → ∀ other, Stands steps s.memory other j →
        Stands steps next.memory other j := by
  obtain ⟨i, hheld, hstands⟩ := h.guards.of_find? hfound
  dsimp only at hheld
  have hkept : i ∉ s.memory.spent := fun hmem => (hsep.armed_kept hheld).2 (h.spent i hmem)
  obtain ⟨left, hleave, hlog, hspent, hkeeps⟩ := exists_leave hstands hkept
  rw [State.consume, hleave]
  refine ⟨_, rfl, rfl, ⟨?_, ?_, h.dismissed, ?_⟩, rfl, ?_⟩
  · rw [hheld, Option.bind_some, ← h.log_eq]
    exact hlog
  · exact Table.matches_erase fun other hne => h.kept hkeeps (hsep.armed_ne hheld other hne)
  · intro j hj
    rw [hspent] at hj
    rcases List.mem_cons.mp hj with rfl | hj
    · exact .inr hheld
    · exact .inl (h.spent j hj)
  · intro j hj other hother
    exact hkeeps other j (fun heq => hj (heq ▸ hheld)) hother

theorem Shows.store (h : Shows steps effects { held with dismissed := dismissed } gone s)
    (hpos : Stands steps s.memory pos j) (hnew : ∀ other, held.armed other ≠ some j)
    (name : String) :
    ∃ next, s.store name pos = some next ∧ next.now = s.now ∧
      Shows steps (effects ++ ((held.armed name).bind (effectOf steps)).toList)
        { armed := fun other => if name = other then some j else held.armed other
          dismissed := dismissed }
        (fun i => gone i ∨ held.armed name = some i) next := by
  rw [State.store]
  cases hfound : s.guards.find? name with
  | none =>
    have hnone := h.guards.of_find?_eq_none hfound
    dsimp only at hnone
    refine ⟨_, rfl, rfl, ⟨?_, h.guards.insert hpos, h.dismissed, fun i hi => .inl (h.spent i hi)⟩⟩
    rw [hnone]
    simpa using h.log_eq
  | some old =>
    obtain ⟨left, hconsume, hnow, hleft, hguards, hkeeps⟩ := h.consume hsep hfound
    dsimp only
    rw [hconsume]
    refine ⟨_, rfl, hnow, ⟨hleft.log_eq, ?_, hleft.dismissed, hleft.spent⟩⟩
    refine Table.matches_insert (fun other hne => ?_) (hkeeps j (hnew name) pos hpos)
    have hother := hleft.guards other
    dsimp only at hother
    rwa [if_neg hne] at hother

end Separate

/-- The step has no fault, and comes to what its history says. -/
def Passes (steps : List (GuardStep ε)) (effects : List ε) (held : Ledger) (gone : Nat → Prop)
    (s : State ε) (step : GuardStep ε) : Prop :=
  ∃ next, s.perform step = some (next, step.error? held) ∧ next.now = s.now ∧
    Shows steps (effects ++ (step.plain ++ ((step.performs held s.now).bind (effectOf steps)).toList))
      (step.holds held s.now)
      (fun i => gone i ∨ step.performs held s.now = some i ∨ step.discards held = some i) next

variable (h : Shows steps effects held gone s) (hsep : held.Separate s.now gone)
include h hsep

section Creation
variable {effect : ε} (heffect : effectOf steps s.now = some effect)
include heffect

theorem Shows.create : Shows steps effects held gone (s.create effect).1 ∧
    Stands steps (s.create effect).1.memory (s.create effect).2 s.now := by
  have his : Is steps (.bare ⟨s.now, effect⟩) s.now := ⟨rfl, heffect⟩
  obtain ⟨hstands, hkeeps⟩ := new_eq s.memory his
  exact ⟨⟨h.log_eq, fun other => h.kept (hkeeps s.now) (hsep.armed_ne_now other), h.dismissed,
    h.spent⟩, hstands⟩

theorem Shows.passes_create (name : String) :
    Passes steps effects held gone s (.create name effect) := by
  obtain ⟨hmade, hstands⟩ := h.create hsep heffect
  obtain ⟨next, hstore, hsame, hnext⟩ :=
    hmade.store hsep hstands hsep.armed_ne_now name
  refine ⟨next, ?_, hsame, hnext.congr rfl (fun _ => rfl) (fun _ => rfl) ?_⟩
  · change ((s.create effect).1.store name (s.create effect).2 >>= _) = _
    rw [hstore]
    rfl
  · rintro i (hi | hi)
    · exact .inl hi
    · exact .inr (.inl hi)

theorem Shows.passes_createWrapped (name : String) :
    Passes steps effects held gone s (.createWrapped name effect) := by
  obtain ⟨hmade, hstands⟩ := h.create hsep heffect
  obtain ⟨left, pos, hwrap, hother, hlog, hspent, hkeeps⟩ := exists_wrap hstands
  have hwrapped : Shows steps effects held gone { (s.create effect).1 with memory := left } :=
    ⟨hlog.trans hmade.log_eq, fun other => hmade.kept hkeeps (hsep.armed_ne_now other),
      hmade.dismissed, fun i hi => hmade.spent i (hspent ▸ hi)⟩
  obtain ⟨next, hstore, hsame, hnext⟩ :=
    hwrapped.store hsep hother hsep.armed_ne_now name
  refine ⟨next, ?_, hsame, hnext.congr rfl (fun _ => rfl) (fun _ => rfl) ?_⟩
  · change ((s.create effect).1.memory.wrap (s.create effect).2 >>= fun wrapped =>
      ({ (s.create effect).1 with memory := wrapped.1 }.store name wrapped.2 >>= _)) = _
    rw [hwrap]
    change (State.store _ name pos >>= _) = _
    rw [hstore]
    rfl
  · rintro i (hi | hi)
    · exact .inl hi
    · exact .inr (.inl hi)

/-- At the end of a scope the guard that it has made is left, whatever has been recorded by then. -/
theorem Shows.leave_created {m : Memory ε} (hplaces : m.places = (s.create effect).1.memory.places)
    (hspent : m.spent = (s.create effect).1.memory.spent) :
    ∃ left, m.leave (s.create effect).2 = some left ∧
      Shows steps (m.log ++ [effect]) held (fun i => gone i ∨ some s.now = some i)
        { (s.create effect).1 with memory := left } := by
  obtain ⟨hmade, action, hplace, his⟩ := h.create hsep heffect
  have hstands : Stands steps m (s.create effect).2 s.now := ⟨action, hplaces ▸ hplace, his⟩
  have hkept : s.now ∉ m.spent := by
    rw [hspent]
    exact fun hmem => Nat.lt_irrefl s.now (hsep.gone_lt (hmade.spent _ hmem))
  obtain ⟨left, hleave, hlog, hleft, hkeeps⟩ := exists_leave hstands hkept
  have hkeeps' : Keeps steps (s.create effect).1.memory left s.now := by
    intro pos i hne hother
    obtain ⟨other, hother, his⟩ := hother
    exact hkeeps pos i hne ⟨other, hplaces ▸ hother, his⟩
  refine ⟨left, hleave, ⟨?_, fun other => hmade.kept hkeeps' (hsep.armed_ne_now other),
    hmade.dismissed, fun i hi => ?_⟩⟩
  · rw [hlog, heffect]
    rfl
  · rw [hleft, hspent] at hi
    rcases List.mem_cons.mp hi with rfl | hi
    · exact .inr rfl
    · exact .inl (hmade.spent i hi)

theorem Shows.passes_scope (name : String) (enter body : ε) (unwinds : Bool) :
    Passes steps effects held gone s (.scope name enter body effect unwinds) := by
  have hmemory : (s.create effect).1.memory.log = effects := h.log_eq
  cases unwinds with
  | true =>
    obtain ⟨left, hleave, hleft⟩ := h.leave_created hsep heffect
      (m := (s.create effect).1.memory.record enter) rfl rfl
    refine ⟨{ (s.create effect).1 with memory := left }, ?_, rfl,
      hleft.congr ?_ (fun _ => rfl) (fun _ => rfl) fun i hi => hi.imp_right .inl⟩
    · change (((s.create effect).1.memory.record enter).leave (s.create effect).2 >>= _) = _
      rw [hleave]
      rfl
    · simp [GuardStep.plain, GuardStep.performs, Memory.record, hmemory, heffect]
  | false =>
    obtain ⟨left, hleave, hleft⟩ := h.leave_created hsep heffect
      (m := ((s.create effect).1.memory.record enter).record body) rfl rfl
    refine ⟨{ (s.create effect).1 with memory := left }, ?_, rfl,
      hleft.congr ?_ (fun _ => rfl) (fun _ => rfl) fun i hi => hi.imp_right .inl⟩
    · change ((((s.create effect).1.memory.record enter).record body).leave
        (s.create effect).2 >>= _) = _
      rw [hleave]
      rfl
    · simp [GuardStep.plain, GuardStep.performs, Memory.record, hmemory, heffect]

end Creation

theorem Shows.withGuard_consume (name : String) (error : Option GuardError) :
    ∃ next, (s.withGuard name fun pos => do return (← s.consume name pos, error)) =
        some (next, if (held.armed name).isSome then error else some (.noGuard name)) ∧
      next.now = s.now ∧
      Shows steps (effects ++ ((held.armed name).bind (effectOf steps)).toList)
        { held with armed := fun other => if name = other then none else held.armed other }
        (fun i => gone i ∨ held.armed name = some i) next := by
  rw [State.withGuard, ← h.guards.isSome_find?]
  cases hfound : s.guards.find? name with
  | none =>
    have hnone := h.guards.of_find?_eq_none hfound
    refine ⟨s, rfl, rfl, ⟨?_, h.guards.of_find?_none hfound, h.dismissed, fun i hi => ?_⟩⟩
    · rw [hnone]
      simpa using h.log_eq
    · exact .inl (h.spent i hi)
  | some pos =>
    obtain ⟨next, hconsume, hsame, hnext, _⟩ := h.consume hsep hfound
    dsimp only
    rw [hconsume]
    exact ⟨next, rfl, hsame, hnext⟩

theorem Shows.passes_run (name : String) : Passes steps effects held gone s (.run name) := by
  obtain ⟨next, hperform, hsame, hnext⟩ := h.withGuard_consume hsep name none
  exact ⟨next, hperform, hsame, hnext.congr rfl (fun _ => rfl) (fun _ => rfl)
    fun i hi => hi.imp_right .inl⟩

theorem Shows.passes_drop (name : String) : Passes steps effects held gone s (.drop name) := by
  obtain ⟨next, hperform, hsame, hnext⟩ := h.withGuard_consume hsep name none
  exact ⟨next, hperform, hsame, hnext.congr rfl (fun _ => rfl) (fun _ => rfl)
    fun i hi => hi.imp_right .inl⟩

theorem Shows.passes_unwind (name : String) :
    Passes steps effects held gone s (.unwind name) := by
  obtain ⟨next, hperform, hsame, hnext⟩ := h.withGuard_consume hsep name (some (.unwound name))
  exact ⟨next, hperform, hsame, hnext.congr rfl (fun _ => rfl) (fun _ => rfl)
    fun i hi => hi.imp_right .inl⟩

theorem Shows.passes_wrap (name : String) : Passes steps effects held gone s (.wrap name) := by
  rw [Passes, State.perform, State.withGuard, GuardStep.error?, ← h.guards.isSome_find?]
  cases hfound : s.guards.find? name with
  | none =>
    exact ⟨s, rfl, rfl, h.congr (List.append_nil _) (fun _ => rfl) (fun _ => rfl) fun _ => .inl⟩
  | some pos =>
    obtain ⟨i, hheld, hstands⟩ := h.guards.of_find? hfound
    obtain ⟨left, other, hwrap, hother, hlog, hspent, hkeeps⟩ := exists_wrap hstands
    dsimp only
    rw [hwrap]
    refine ⟨_, rfl, rfl, ⟨?_, ?_, h.dismissed, fun i hi => .inl (h.spent i (hspent ▸ hi))⟩⟩
    · exact (hlog.trans h.log_eq).trans (List.append_nil _).symm
    · refine (Table.matches_insert
        (fun other hne => h.kept hkeeps (hsep.armed_ne hheld other hne)) hother).congr ?_
      intro other
      by_cases heq : name = other
      · subst heq
        simp [GuardStep.holds, hheld]
      · simp [GuardStep.holds, heq]

omit h in
/-- The action that loses its name is used up, and nothing else changes. -/
theorem Shows.exists_clear (h : Shows steps effects held gone s) (current : State ε)
    (hdismissed : current.dismissed = s.dismissed)
    (hspent : ∀ i ∈ current.memory.spent, gone i) (name : String) :
    ∃ spent, current.clear name =
        some { current with memory := { current.memory with spent := spent } } ∧
      ∀ i ∈ spent, gone i ∨ held.dismissed name = some i := by
  rw [State.clear]
  cases hfound : current.dismissed.find? name with
  | none => exact ⟨current.memory.spent, rfl, fun i hi => .inl (hspent i hi)⟩
  | some old =>
    obtain ⟨k, hheld, his⟩ := h.dismissed.of_find? (hdismissed ▸ hfound)
    have hkept : k ∉ current.memory.spent :=
      fun hmem => (hsep.dismissed_kept hheld).2 (hspent k hmem)
    dsimp only
    rw [discard_eq his hkept]
    refine ⟨k :: current.memory.spent, rfl, fun i hi => ?_⟩
    rcases List.mem_cons.mp hi with rfl | hi
    · exact .inr hheld
    · exact .inl (hspent i hi)

theorem Shows.passes_dismiss (name : String) :
    Passes steps effects held gone s (.dismiss name) := by
  rw [Passes, State.perform, State.withGuard, GuardStep.error?, ← h.guards.isSome_find?]
  cases hfound : s.guards.find? name with
  | none =>
    have hnone := h.guards.of_find?_eq_none hfound
    refine ⟨s, rfl, rfl, ⟨?_, h.guards.of_find?_none hfound, h.dismissed.congr fun other => ?_,
      fun i hi => .inl (h.spent i hi)⟩⟩
    · exact h.log_eq.trans (List.append_nil _).symm
    · by_cases heq : name = other
      · subst heq
        simp [GuardStep.holds, hnone]
      · simp [GuardStep.holds, heq]
  | some pos =>
    obtain ⟨i, hheld, hstands⟩ := h.guards.of_find? hfound
    obtain ⟨left, action, hdismiss, his, hlog, hspent, hkeeps⟩ := exists_dismiss hstands
    obtain ⟨spent, hclear, hgone⟩ := h.exists_clear hsep { s with memory := left }
      rfl (fun i hi => h.spent i (hspent ▸ hi)) name
    dsimp only
    rw [hdismiss]
    change ∃ next, (State.clear { s with memory := left } name >>= _) = _ ∧ _
    rw [hclear]
    refine ⟨_, rfl, rfl, ⟨?_, ?_, (h.dismissed.insert his).congr fun other => ?_, fun j hj => ?_⟩⟩
    · exact (hlog.trans h.log_eq).trans (List.append_nil _).symm
    · exact Table.matches_erase fun other hne => h.kept hkeeps (hsep.armed_ne hheld other hne)
    · by_cases heq : name = other
      · subst heq
        simp [GuardStep.holds, hheld]
      · simp [GuardStep.holds, heq]
    · refine (hgone j hj).imp_right fun hold => .inr ?_
      simp [GuardStep.discards, hheld, hold]

theorem Shows.passes_call (name : String) : Passes steps effects held gone s (.call name) := by
  rw [Passes, State.perform, State.withAction, GuardStep.error?, ← h.dismissed.isSome_find?]
  cases hfound : s.dismissed.find? name with
  | none =>
    have hnone := h.dismissed.of_find?_eq_none hfound
    refine ⟨s, rfl, rfl, ⟨?_, h.guards, h.dismissed.of_find?_none hfound,
      fun i hi => .inl (h.spent i hi)⟩⟩
    simpa [GuardStep.plain, GuardStep.performs, hnone] using h.log_eq
  | some action =>
    obtain ⟨i, hheld, his⟩ := h.dismissed.of_find? hfound
    have hkept : i ∉ s.memory.spent := fun hmem => (hsep.dismissed_kept hheld).2 (h.spent i hmem)
    dsimp only
    rw [call_eq his hkept]
    refine ⟨_, rfl, rfl, ⟨?_, h.guards, h.dismissed.erase name, fun j hj => ?_⟩⟩
    · simp [GuardStep.plain, GuardStep.performs, hheld, his.effect_eq, h.log_eq]
    · rcases List.mem_cons.mp hj with rfl | hj
      · exact .inr (.inl hheld)
      · exact .inl (h.spent j hj)

theorem Shows.passes_discard (name : String) :
    Passes steps effects held gone s (.discard name) := by
  rw [Passes, State.perform, State.withAction, GuardStep.error?, ← h.dismissed.isSome_find?]
  cases hfound : s.dismissed.find? name with
  | none =>
    exact ⟨s, rfl, rfl, ⟨h.log_eq.trans (List.append_nil _).symm, h.guards,
      h.dismissed.of_find?_none hfound, fun i hi => .inl (h.spent i hi)⟩⟩
  | some action =>
    obtain ⟨i, hheld, his⟩ := h.dismissed.of_find? hfound
    have hkept : i ∉ s.memory.spent := fun hmem => (hsep.dismissed_kept hheld).2 (h.spent i hmem)
    dsimp only
    rw [discard_eq his hkept]
    refine ⟨_, rfl, rfl, ⟨h.log_eq.trans (List.append_nil _).symm, h.guards,
      h.dismissed.erase name, fun j hj => ?_⟩⟩
    rcases List.mem_cons.mp hj with rfl | hj
    · exact .inr (.inr hheld)
    · exact .inl (h.spent j hj)

theorem Shows.passes_rearm (name : String) : Passes steps effects held gone s (.rearm name) := by
  rw [Passes, State.perform, State.withAction, GuardStep.error?, ← h.dismissed.isSome_find?]
  cases hfound : s.dismissed.find? name with
  | none =>
    have hnone := h.dismissed.of_find?_eq_none hfound
    refine ⟨s, rfl, rfl, ⟨?_, h.guards.congr fun other => ?_, h.dismissed.of_find?_none hfound,
      fun i hi => .inl (h.spent i hi)⟩⟩
    · simpa [GuardStep.plain, GuardStep.performs, hnone] using h.log_eq
    · by_cases heq : name = other
      · subst heq
        simp [GuardStep.holds, hnone]
      · simp [GuardStep.holds, heq]
  | some action =>
    obtain ⟨i, hheld, his⟩ := h.dismissed.of_find? hfound
    obtain ⟨hstands, hkeeps⟩ := new_eq s.memory his
    have hapart : ∀ other, held.armed other ≠ some i := fun other hother => hsep.apart hother hheld
    have hmade : Shows steps effects
        { held with dismissed := fun other => if name = other then none else held.dismissed other }
        gone { s with
          memory := (s.memory.new action).1
          dismissed := s.dismissed.erase name } :=
      ⟨h.log_eq, fun other => h.kept (hkeeps i) (hapart other), h.dismissed.erase name, h.spent⟩
    obtain ⟨next, hstore, hsame, hnext⟩ := hmade.store hsep hstands hapart name
    refine ⟨next, ?_, hsame, hnext.congr ?_ (fun other => ?_) (fun _ => rfl) fun j hj => ?_⟩
    · exact congrArg (fun stored => stored >>= fun next => pure (next, none)) hstore
    · simp [GuardStep.plain, GuardStep.performs, hheld]
    · by_cases heq : name = other
      · subst heq
        simp [GuardStep.holds, hheld]
      · simp [GuardStep.holds, heq]
    · refine hj.imp_right fun hold => .inl ?_
      simp [GuardStep.performs, hheld, hold]

/-- Whatever the step is, it has no fault. -/
theorem Shows.passes {step : GuardStep ε} (hstep : steps[s.now]? = some step) :
    Passes steps effects held gone s step := by
  have heffect := effectOf_eq hstep
  cases step with
  | create name effect => exact h.passes_create hsep heffect name
  | createWrapped name effect => exact h.passes_createWrapped hsep heffect name
  | wrap name => exact h.passes_wrap hsep name
  | run name => exact h.passes_run hsep name
  | drop name => exact h.passes_drop hsep name
  | dismiss name => exact h.passes_dismiss hsep name
  | call name => exact h.passes_call hsep name
  | discard name => exact h.passes_discard hsep name
  | rearm name => exact h.passes_rearm hsep name
  | scope name enter body exit unwinds => exact h.passes_scope hsep heffect name enter body unwinds
  | unwind name => exact h.passes_unwind hsep name

end Steps

theorem gone_succ {step : GuardStep ε} {now i : Nat} (hstep : steps[now]? = some step)
    (h : Gone steps now i ∨ step.performs (heldAt steps now) now = some i ∨
      step.discards (heldAt steps now) = some i) : Gone steps (now + 1) i := by
  rw [← performedAt_eq hstep, ← discardedAt_eq hstep] at h
  rcases h with ⟨moment, hlt, hmoment⟩ | hmoment
  · exact ⟨moment, Nat.lt_succ_of_lt hlt, hmoment⟩
  · exact ⟨now, Nat.lt_succ_self now, hmoment⟩

theorem Shows.run_eq {s : State ε} {now : Nat} (hnow : s.now = now)
    (h : Shows steps (effectsBefore steps now) (heldAt steps now) (Gone steps now) s) :
    s.run (steps.drop now) =
      some ((List.range' now (steps.length - now)).map (answerAt steps)) := by
  by_cases hlt : now < steps.length
  · have hstep : steps[now]? = some steps[now] := List.getElem?_eq_getElem hlt
    subst hnow
    obtain ⟨next, hperform, hsame, hnext⟩ := h.passes (separate_heldAt hlt.le) hstep
    have hafter : Shows steps (effectsBefore steps (s.now + 1)) (heldAt steps (s.now + 1))
        (Gone steps (s.now + 1)) { next with now := next.now + 1 } := by
      rw [effectsBefore_succ, effectsAt_eq hstep, heldAt_succ hstep]
      exact ⟨hnext.log_eq, hnext.guards, hnext.dismissed,
        fun i hi => gone_succ hstep (hnext.spent i hi)⟩
    have hrest := hafter.run_eq (congrArg (· + 1) hsame)
    have hanswer : answerAt steps s.now =
        (next.memory.log, steps[s.now].error? (heldAt steps s.now)) := by
      rw [answerAt, ← hafter.log_eq, hstep]
      rfl
    rw [List.drop_eq_getElem_cons hlt, State.run, State.step, hperform,
      show steps.length - s.now = steps.length - (s.now + 1) + 1 by omega, List.range'_succ,
      List.map_cons, hanswer]
    change (State.run { next with now := next.now + 1 } _ >>= _) = _
    rw [hrest]
    rfl
  · rw [List.drop_eq_nil_of_le (by omega), show steps.length - now = 0 by omega]
    rfl
termination_by steps.length - now

theorem shows_empty (steps : List (GuardStep ε)) :
    Shows steps (effectsBefore steps 0) (heldAt steps 0) (Gone steps 0) {} where
  log_eq := rfl
  guards _ := .none
  dismissed _ := .none
  spent := nofun

theorem run_eq (steps : List (GuardStep ε)) :
    State.run {} steps = some (GuardState.run {} steps) := by
  have hnow : ({} : State ε).now = 0 := rfl
  have h := (shows_empty steps).run_eq hnow
  rwa [List.drop_zero, Nat.sub_zero, ← List.range_eq_range', ← GuardState.run_eq] at h

end GuardMemory
end HeapImage
