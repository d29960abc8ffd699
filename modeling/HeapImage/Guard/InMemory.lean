import HeapImage.Guard

/-!
# Scope guards in memory

Guards as they are in memory. A guard stands in a place, which is dropped where its owner ends,
unless it is forgotten before. Its action is moved out of the place by copying it, so that the place
has it still: nothing keeps it from being moved out again but the order of the operations. What an
action owns is used up when the action is called or dropped. Using it up twice, moving an action out
of a place twice, and dropping a place that is gone are faults, and then there is no result.
-/

namespace HeapImage
set_option autoImplicit false

/-- What an action owns, which can be told apart from what all others own. -/
structure Owned (ε : Type) where
  id : Nat
  effect : ε

namespace GuardMemory

/-- The place of a guard: its action, whether that has been moved out, and whether the place is
still to be dropped. -/
structure Place (ε : Type) where
  action : Deferred (Owned ε)
  taken : Bool
  live : Bool

structure Memory (ε : Type) where
  places : Array (Place ε) := #[]
  /-- What has been used up. -/
  spent : List Nat := []
  log : List ε := []

namespace Memory
variable {ε : Type}

def record (m : Memory ε) (effect : ε) : Memory ε := { m with log := m.log ++ [effect] }

def discard (m : Memory ε) (action : Deferred (Owned ε)) : Option (Memory ε) :=
  if action.perform.id ∈ m.spent then none
  else some { m with spent := action.perform.id :: m.spent }

def call (m : Memory ε) (action : Deferred (Owned ε)) : Option (Memory ε) := do
  let m ← m.discard action
  return m.record action.perform.effect

def new (m : Memory ε) (action : Deferred (Owned ε)) : Memory ε × Nat :=
  ({ m with places := m.places.push ⟨action, false, true⟩ }, m.places.size)

/-- Move the action out of a place. What is in the place does not change. -/
def take (m : Memory ε) (pos : Nat) : Option (Memory ε × Deferred (Owned ε)) := do
  let place ← m.places[pos]?
  if place.taken then none
  else return ({ m with places := m.places.setIfInBounds pos { place with taken := true } },
    place.action)

/-- Leave a place without dropping it. -/
def forget (m : Memory ε) (pos : Nat) : Option (Memory ε) := do
  let place ← m.places[pos]?
  if place.live then
    return { m with places := m.places.setIfInBounds pos { place with live := false } }
  else none

/-- Drop a guard: its action is moved out and called. -/
def drop (m : Memory ε) (pos : Nat) : Option (Memory ε) := do
  let m ← m.forget pos
  let (m, action) ← m.take pos
  m.call action

/-- The end of the owner of a place. -/
def leave (m : Memory ε) (pos : Nat) : Option (Memory ε) := do
  let place ← m.places[pos]?
  if place.live then m.drop pos else return m

/-- Move the action out of a guard, which is then forgotten. The end of the function that does this
is also that of the owner of the guard. -/
def dismiss (m : Memory ε) (pos : Nat) : Option (Memory ε × Deferred (Owned ε)) := do
  let (m, action) ← m.take pos
  let m ← m.forget pos
  let m ← m.leave pos
  return (m, action)

/-- Make a guard of the wrapped action of another one. -/
def wrap (m : Memory ε) (pos : Nat) : Option (Memory ε × Nat) := do
  let (m, action) ← m.dismiss pos
  return m.new (.wrapped action)

end Memory

/-- The places of guards and the dismissed actions by name, and the number of steps so far. What
actions own is told apart by the step that has created it. -/
structure State (ε : Type) where
  memory : Memory ε := {}
  guards : Table Nat := {}
  dismissed : Table (Deferred (Owned ε)) := {}
  now : Nat := 0

namespace State
variable {ε : Type}

def create (s : State ε) (effect : ε) : State ε × Nat :=
  let (memory, pos) := s.memory.new (.bare ⟨s.now, effect⟩)
  ({ s with memory }, pos)

def consume (s : State ε) (name : String) (pos : Nat) : Option (State ε) := do
  let memory ← s.memory.leave pos
  return { s with memory, guards := s.guards.erase name }

/-- Store a guard under a name; a guard that had the name is left. -/
def store (s : State ε) (name : String) (pos : Nat) : Option (State ε) := do
  let s ← match s.guards.find? name with
    | some old => s.consume name old
    | none => some s
  return { s with guards := s.guards.insert name pos }

def withGuard (s : State ε) (name : String)
    (f : Nat → Option (State ε × Option GuardError)) : Option (State ε × Option GuardError) :=
  match s.guards.find? name with
  | some pos => f pos
  | none => some (s, some (.noGuard name))

def withAction (s : State ε) (name : String)
    (f : Deferred (Owned ε) → Option (State ε × Option GuardError)) :
    Option (State ε × Option GuardError) :=
  match s.dismissed.find? name with
  | some action => f action
  | none => some (s, some (.noAction name))

/-- Drop the dismissed action that has a name, which another one takes. -/
def clear (s : State ε) (name : String) : Option (State ε) :=
  match s.dismissed.find? name with
  | some old => do
    let memory ← s.memory.discard old
    return { s with memory }
  | none => some s

def perform (s : State ε) : GuardStep ε → Option (State ε × Option GuardError)
  | .create name effect => do
    let (s, pos) := s.create effect
    return (← s.store name pos, none)
  | .createWrapped name effect => do
    let (s, pos) := s.create effect
    let (memory, pos) ← s.memory.wrap pos
    return (← { s with memory }.store name pos, none)
  | .wrap name => s.withGuard name fun pos => do
    let (memory, pos) ← s.memory.wrap pos
    return ({ s with memory, guards := s.guards.insert name pos }, none)
  | .run name => s.withGuard name fun pos => do return (← s.consume name pos, none)
  | .drop name => s.withGuard name fun pos => do return (← s.consume name pos, none)
  | .dismiss name => s.withGuard name fun pos => do
    let (memory, action) ← s.memory.dismiss pos
    let s ← { s with memory }.clear name
    return ({ s with
      guards := s.guards.erase name
      dismissed := s.dismissed.insert name action }, none)
  | .call name => s.withAction name fun action => do
    return ({ s with
      memory := ← s.memory.call action
      dismissed := s.dismissed.erase name }, none)
  | .discard name => s.withAction name fun action => do
    return ({ s with
      memory := ← s.memory.discard action
      dismissed := s.dismissed.erase name }, none)
  | .rearm name => s.withAction name fun action => do
    let (memory, pos) := s.memory.new action
    return (← { s with memory, dismissed := s.dismissed.erase name }.store name pos, none)
  | .scope name enter body exit unwinds => do
    let (s, pos) := s.create exit
    let memory := s.memory.record enter
    if unwinds then return ({ s with memory := ← memory.leave pos }, some (.unwound name))
    else return ({ s with memory := ← (memory.record body).leave pos }, none)
  | .unwind name => s.withGuard name fun pos => do
    return (← s.consume name pos, some (.unwound name))

def step (s : State ε) (step : GuardStep ε) : Option (State ε × Option GuardError) := do
  let (s, error) ← s.perform step
  return ({ s with now := s.now + 1 }, error)

def run (s : State ε) : List (GuardStep ε) → Option (List (List ε × Option GuardError))
  | [] => some []
  | first :: rest => do
    let (s, error) ← s.step first
    return (s.memory.log, error) :: (← s.run rest)

end State
end GuardMemory
end HeapImage
