import HeapImage.Bytes.LittleEndian
import HeapImage.LimbInteger

/-!
# Objects

The nine kinds of object, over an arbitrary type of references to other objects. A heap uses them
with values as references, a byte image with stored words, a listing with positions.
-/

namespace HeapImage
set_option autoImplicit false

inductive Kind where
  | scalar
  | constructor
  | array
  | byteArray
  | string
  | thunk
  | task
  | promise
  | mutableRef
  | bigInteger
deriving DecidableEq

def Kind.name : Kind → String
  | .scalar => "Scalar"
  | .constructor => "Constructor"
  | .array => "Array"
  | .byteArray => "ByteArray"
  | .string => "String"
  | .thunk => "Thunk"
  | .task => "Task"
  | .promise => "Promise"
  | .mutableRef => "MutableRef"
  | .bigInteger => "BigInteger"

/-- A lazy computation: what is to be run, or what it gave. -/
inductive Suspension (ρ : Type) where
  | waiting (closure : ρ)
  | forced (value : ρ)
deriving DecidableEq

inductive Object (ρ : Type) where
  | constructor (tag : UInt16) (fields : Array ρ) (scalars : Bytes)
  | array (elements : Array ρ)
  | byteArray (elemSize : UInt8) (bytes : Bytes)
  | string (bytes : Bytes)
  | thunk (state : Suspension ρ)
  | task (result : Option ρ)
  | promise (result : Option ρ)
  | mutableRef (contents : ρ)
  | bigInteger (value : LimbInteger)
deriving DecidableEq

namespace Object
variable {ρ σ : Type}

def kind : Object ρ → Kind
  | constructor .. => .constructor
  | array .. => .array
  | byteArray .. => .byteArray
  | string .. => .string
  | thunk .. => .thunk
  | task .. => .task
  | promise .. => .promise
  | mutableRef .. => .mutableRef
  | bigInteger .. => .bigInteger

/-- What an object refers to, in order. The closure of a waiting thunk is not a child. -/
def children : Object ρ → List ρ
  | constructor _ fields _ => fields.toList
  | array elements => elements.toList
  | thunk (.forced value) => [value]
  | task (some value) => [value]
  | promise (some value) => [value]
  | mutableRef contents => [contents]
  | _ => []

def mapM {ε : Type} (f : ρ → Except ε σ) : Object ρ → Except ε (Object σ)
  | constructor tag fields scalars => return constructor tag (← fields.mapM f) scalars
  | array elements => return array (← elements.mapM f)
  | byteArray elemSize bytes => return byteArray elemSize bytes
  | string bytes => return string bytes
  | thunk (.waiting closure) => return thunk (.waiting (← f closure))
  | thunk (.forced value) => return thunk (.forced (← f value))
  | task none => return task none
  | task (some value) => return task (some (← f value))
  | promise none => return promise none
  | promise (some value) => return promise (some (← f value))
  | mutableRef contents => return mutableRef (← f contents)
  | bigInteger value => return bigInteger value

def map (f : ρ → σ) : Object ρ → Object σ
  | constructor tag fields scalars => constructor tag (fields.map f) scalars
  | array elements => array (elements.map f)
  | byteArray elemSize bytes => byteArray elemSize bytes
  | string bytes => string bytes
  | thunk (.waiting closure) => thunk (.waiting (f closure))
  | thunk (.forced value) => thunk (.forced (f value))
  | task result => task (result.map f)
  | promise result => promise (result.map f)
  | mutableRef contents => mutableRef (f contents)
  | bigInteger value => bigInteger value

/-- Strings, byte arrays and big integers refer to nothing and never change. -/
def isLeaf : Object ρ → Bool
  | byteArray .. | string .. | bigInteger .. => true
  | _ => false

@[simp] theorem children_map (f : ρ → σ) (o : Object ρ) :
    (o.map f).children = o.children.map f := by
  cases o with
  | thunk s => cases s <;> simp [map, children]
  | task r => cases r <;> simp [map, children]
  | promise r => cases r <;> simp [map, children]
  | _ => simp [map, children]

@[simp] theorem kind_map (f : ρ → σ) (o : Object ρ) : (o.map f).kind = o.kind := by
  cases o with
  | thunk s => cases s <;> rfl
  | _ => rfl

theorem children_eq_nil_of_isLeaf {o : Object ρ} (h : o.isLeaf = true) : o.children = [] := by
  cases o <;> simp_all [isLeaf, children]

end Object
end HeapImage
