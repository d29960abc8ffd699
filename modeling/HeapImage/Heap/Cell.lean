import HeapImage.Heap.Build

/-!
# Changing objects

Thunks, tasks and promises are settled once; mutable references are replaced; the fields of a live
constructor may be replaced to tie knots. Contents of compacted objects never change.
-/

namespace HeapImage
set_option autoImplicit false

/-- Whether a value was taken in, or is handed back by a cell that is settled already. -/
inductive Settlement where
  | settled
  | handedBack (value : Value)
deriving DecidableEq

inductive RefError where
  | misuse (cause : Misuse)
  /-- The reference is compacted; the value was not stored. -/
  | frozen (value : Value)
deriving DecidableEq

def RefError.frozenMessage : String := "Mutable reference is compacted and cannot be set"

def RefError.message : RefError → String
  | misuse cause => cause.message
  | frozen _ => frozenMessage

namespace Heap

def object? (h : Heap) : Value → Option (Nat × Object Value)
  | .scalar _ => none
  | .object id => some (id, h.object id)

def force (h : Heap) (v x : Value) : Except Misuse (Heap × Settlement) :=
  match h.object? v with
  | some (id, .thunk (.waiting _)) => .ok (h.put id (.thunk (.forced x)), .settled)
  | some (_, .thunk (.forced _)) => .ok (h, .handedBack x)
  | _ => .error (.notThunk (h.kind v))

def closure? (h : Heap) (v : Value) : Except Misuse (Option Value) :=
  match h.object? v with
  | some (_, .thunk (.waiting closure)) => .ok (some closure)
  | some (_, .thunk (.forced _)) => .ok none
  | _ => .error (.notThunk (h.kind v))

def resolveTask (h : Heap) (v x : Value) : Except Misuse (Heap × Settlement) :=
  match h.object? v with
  | some (id, .task none) => .ok (h.put id (.task (some x)), .settled)
  | some (_, .task (some _)) => .ok (h, .handedBack x)
  | _ => .error (.notSettleable (h.kind v))

def resolvePromise (h : Heap) (v x : Value) : Except Misuse (Heap × Settlement) :=
  match h.object? v with
  | some (id, .promise none) => .ok (h.put id (.promise (some x)), .settled)
  | some (_, .promise (some _)) => .ok (h, .handedBack x)
  | _ => .error (.notSettleable (h.kind v))

def getRef (h : Heap) (v : Value) : Except Misuse Value :=
  match h.object? v with
  | some (_, .mutableRef contents) => .ok contents
  | _ => .error (.notMutableRef (h.kind v))

/-- Replace the contents of a mutable reference; the old contents are returned. -/
def setRef (h : Heap) (v x : Value) : Except RefError (Heap × Value) :=
  match h.object? v with
  | some (id, .mutableRef contents) =>
    if h.isCompacted v then .error (.frozen x) else .ok (h.put id (.mutableRef x), contents)
  | _ => .error (.misuse (.notMutableRef (h.kind v)))

def setField (h : Heap) (v : Value) (index : Nat) (x : Value) : Except Misuse (Heap × Value) :=
  match h.object? v with
  | some (id, .constructor tag fields scalars) =>
    if h.isCompacted v then .error .notLiveConstructor
    else if hi : index < fields.size then
      .ok (h.put id (.constructor tag (fields.set index x) scalars), fields[index])
    else .error .fieldOutOfBounds
  | _ => .error .notLiveConstructor

/-- A field or element by its index, or the contents of a cell whatever the index. -/
def child? (h : Heap) (v : Value) (index : Nat) : Option Value :=
  match h.object? v with
  | some (_, .constructor _ fields _) => fields[index]?
  | some (_, .array elements) => elements[index]?
  | some (_, o) => o.children.head?
  | none => none

end Heap
end HeapImage
