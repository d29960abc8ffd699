import HeapImage.Table

/-!
# Scope guards

A guard holds an action and gives up its effect when it is consumed: run, dropped, replaced, or
passed by the end of a scope, normal or not. Dismissing a guard hands back the action instead.
Consuming returns the effect, so that whoever consumes a guard decides where effects are recorded,
and nothing takes effect in any other way.
-/

namespace HeapImage
set_option autoImplicit false

/-- An action, given by its effect, behind any number of wrappers. -/
inductive Deferred (ε : Type) where
  | bare (effect : ε)
  | wrapped (inner : Deferred ε)
deriving DecidableEq

def Deferred.perform {ε : Type} : Deferred ε → ε
  | bare effect => effect
  | wrapped inner => inner.perform

structure Guard (ε : Type) where
  action : Deferred ε
deriving DecidableEq

namespace Guard
variable {ε : Type}

def arm (action : Deferred ε) : Guard ε := ⟨action⟩

def consume (g : Guard ε) : ε := g.action.perform

/-- Hand back the action without performing it. -/
def dismiss (g : Guard ε) : Deferred ε := g.action

/-- Hide what the action is made of. -/
def wrap (g : Guard ε) : Guard ε := arm (.wrapped g.dismiss)

end Guard

/-- Guards and dismissed actions by name, and the effects so far in order. -/
structure GuardState (ε : Type) where
  log : List ε := []
  guards : Table (Guard ε) := {}
  dismissed : Table (Deferred ε) := {}

inductive GuardStep (ε : Type) where
  | create (name : String) (effect : ε)
  | createWrapped (name : String) (effect : ε)
  | wrap (name : String)
  | run (name : String)
  | drop (name : String)
  | dismiss (name : String)
  | call (name : String)
  | discard (name : String)
  | rearm (name : String)
  /-- A scope with a guard of its own; if it unwinds, it does so before its body. -/
  | scope (name : String) (enter body exit : ε) (unwinds : Bool)
  /-- Unwind through a scope that holds the guard. -/
  | unwind (name : String)
deriving DecidableEq

inductive GuardError where
  | unwound (name : String)
  | noGuard (name : String)
  | noAction (name : String)
deriving DecidableEq

def GuardError.message : GuardError → String
  | unwound name => "unwind " ++ name
  | noGuard name => "no guard " ++ name
  | noAction name => "no action " ++ name

namespace GuardState
variable {ε : Type}

def record (s : GuardState ε) (effect : ε) : GuardState ε := { s with log := s.log ++ [effect] }

def consume (s : GuardState ε) (name : String) (g : Guard ε) : GuardState ε :=
  { s with guards := s.guards.erase name }.record g.consume

/-- Store a guard under a name; a guard that had the name is consumed. -/
def store (s : GuardState ε) (name : String) (g : Guard ε) : GuardState ε :=
  let s := match s.guards.find? name with
    | some old => s.consume name old
    | none => s
  { s with guards := s.guards.insert name g }

def withGuard (s : GuardState ε) (name : String)
    (f : Guard ε → GuardState ε × Option GuardError) : GuardState ε × Option GuardError :=
  match s.guards.find? name with
  | some g => f g
  | none => (s, some (.noGuard name))

def withAction (s : GuardState ε) (name : String)
    (f : Deferred ε → GuardState ε × Option GuardError) : GuardState ε × Option GuardError :=
  match s.dismissed.find? name with
  | some action => f action
  | none => (s, some (.noAction name))

def step (s : GuardState ε) : GuardStep ε → GuardState ε × Option GuardError
  | .create name effect => (s.store name (.arm (.bare effect)), none)
  | .createWrapped name effect => (s.store name (Guard.arm (.bare effect)).wrap, none)
  | .wrap name => s.withGuard name fun g =>
    ({ s with guards := s.guards.insert name g.wrap }, none)
  | .run name => s.withGuard name fun g => (s.consume name g, none)
  | .drop name => s.withGuard name fun g => (s.consume name g, none)
  | .dismiss name => s.withGuard name fun g =>
    ({ s with
        guards := s.guards.erase name
        dismissed := s.dismissed.insert name g.dismiss }, none)
  | .call name => s.withAction name fun action =>
    ({ s with dismissed := s.dismissed.erase name }.record action.perform, none)
  | .discard name => s.withAction name fun _ =>
    ({ s with dismissed := s.dismissed.erase name }, none)
  | .rearm name => s.withAction name fun action =>
    ({ s with dismissed := s.dismissed.erase name }.store name (.arm action), none)
  | .scope name enter body exit unwinds =>
    let guard := Guard.arm (.bare exit)
    let s := s.record enter
    if unwinds then (s.record guard.consume, some (.unwound name))
    else ((s.record body).record guard.consume, none)
  | .unwind name => s.withGuard name fun g => (s.consume name g, some (.unwound name))

def run (s : GuardState ε) : List (GuardStep ε) → List (List ε × Option GuardError)
  | [] => []
  | step :: rest =>
    let (s, error) := s.step step
    (s.log, error) :: s.run rest

end GuardState
end HeapImage
