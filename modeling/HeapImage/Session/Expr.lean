import HeapImage.Heap.Build
import HeapImage.Table

/-!
# Value expressions

Expressions that make values. Parts are evaluated from left to right, and the first part that
fails makes the whole fail; objects made before it stay in the heap, where nothing refers to them.
-/

namespace HeapImage
set_option autoImplicit false

mutual

inductive Expr where
  | named (name : String)
  | scalar (payload : Nat)
  | constructor (tag : UInt16) (fields : List Item) (scalars : Bytes)
  | array (elements : List Item)
  | byteArray (elemSize : UInt8) (bytes : Bytes)
  | string (bytes : Bytes)
  /-- The string with byte `i * factor + offset` at position `i`. -/
  | pattern (length factor offset : Nat)
  | waiting (closure : Expr)
  | forced (value : Expr)
  | pendingTask
  | task (result : Expr)
  | pendingPromise
  | promise (result : Expr)
  | mutableRef (contents : Expr)
  | bigInteger (negative : Bool) (limbs : List UInt64)

inductive Item where
  | one (value : Expr)
  /-- Several values, each from an evaluation of its own. -/
  | copies (count : Nat) (value : Expr)

end

inductive EvalError where
  | unbound (name : String)
  | build (cause : BuildError)
deriving DecidableEq

namespace Heap

def make (h : Heap) (o : Object Value) : Heap × Except EvalError Value :=
  let (h, result) := h.build o
  (h, result.mapError .build)

/-- Make an object from a value that may have failed to evaluate. -/
def makeWith (r : Heap × Except EvalError Value) (f : Value → Object Value) :
    Heap × Except EvalError Value :=
  match r with
  | (h, .ok v) => h.make (f v)
  | (h, .error e) => (h, .error e)

def makeWithAll (r : Heap × Except EvalError (Array Value)) (f : Array Value → Object Value) :
    Heap × Except EvalError Value :=
  match r with
  | (h, .ok vs) => h.make (f vs)
  | (h, .error e) => (h, .error e)

def repeated (eval : Heap → Heap × Except EvalError Value) :
    Nat → Heap → Array Value → Heap × Except EvalError (Array Value)
  | 0, h, found => (h, .ok found)
  | count + 1, h, found =>
    match eval h with
    | (h, .ok v) => repeated eval count h (found.push v)
    | (h, .error e) => (h, .error e)

end Heap

/-- The string whose bytes follow an arithmetic progression. Its size is looked at first. -/
def Heap.makePattern (h : Heap) (length factor offset : Nat) : Heap × Except EvalError Value :=
  if fitsLive (Payload.string? length) then
    h.make (.string (Array.ofFn fun i : Fin length => UInt8.ofNat (i * factor + offset)))
  else (h, .error (.build .objectSize))

mutual

def Expr.eval (names : Table Value) (h : Heap) : Expr → Heap × Except EvalError Value
  | .named name =>
    match names.find? name with
    | some v => (h, .ok v)
    | none => (h, .error (.unbound name))
  | .scalar payload => (h, (Value.scalar? payload).mapError .build)
  | .constructor tag fields scalars =>
    Heap.makeWithAll (evalItems names h #[] fields) fun vs => .constructor tag vs scalars
  | .array elements => Heap.makeWithAll (evalItems names h #[] elements) .array
  | .byteArray elemSize bytes => h.make (.byteArray elemSize bytes)
  | .string bytes => h.make (.string bytes)
  | .pattern length factor offset => h.makePattern length factor offset
  | .waiting closure => Heap.makeWith (closure.eval names h) fun v => .thunk (.waiting v)
  | .forced value => Heap.makeWith (value.eval names h) fun v => .thunk (.forced v)
  | .pendingTask => h.make (.task none)
  | .task result => Heap.makeWith (result.eval names h) fun v => .task (some v)
  | .pendingPromise => h.make (.promise none)
  | .promise result => Heap.makeWith (result.eval names h) fun v => .promise (some v)
  | .mutableRef contents => Heap.makeWith (contents.eval names h) .mutableRef
  | .bigInteger negative limbs =>
    let (h, v) := h.bigInteger negative limbs
    (h, .ok v)

def evalItems (names : Table Value) (h : Heap) (found : Array Value) :
    List Item → Heap × Except EvalError (Array Value)
  | [] => (h, .ok found)
  | .one value :: rest =>
    match value.eval names h with
    | (h, .ok v) => evalItems names h (found.push v) rest
    | (h, .error e) => (h, .error e)
  | .copies count value :: rest =>
    match Heap.repeated (fun h => value.eval names h) count h found with
    | (h, .ok found) => evalItems names h found rest
    | (h, .error e) => (h, .error e)

end

/-- How a chain wraps the value so far. -/
inductive Link where
  /-- A constructor with tag 1, the number of the link and the value. -/
  | constructor
  | array
  /-- An array that holds the value twice. -/
  | twin
  | forced
  | waiting
  | task
  | promise
  | mutableRef
deriving DecidableEq

def Link.object (link : Link) (index : Nat) (v : Value) : Object Value :=
  match link with
  | constructor =>
    .constructor 1 #[.scalar ⟨index % scalarLimit, Nat.mod_lt _ (by decide)⟩, v] #[]
  | array => .array #[v]
  | twin => .array #[v, v]
  | forced => .thunk (.forced v)
  | waiting => .thunk (.waiting v)
  | task => .task (some v)
  | promise => .promise (some v)
  | mutableRef => .mutableRef v

def Heap.chain (h : Heap) (link : Link) (index : Nat) (v : Value) : Nat → Heap × Value
  | 0 => (h, v)
  | left + 1 =>
    let (h, v) := h.alloc (link.object index v)
    h.chain link (index + 1) v left

end HeapImage
