import HeapImage.Heap.Object

/-!
# Heaps

A heap numbers its objects in order of creation and never reuses a number, so that two values are
the same object exactly when they are equal. Objects that came from an image are marked as
compacted. A number that has not been given out reads as an empty array, which makes every
operation total; values made by the operations of this library never hold one.
-/

namespace HeapImage
set_option autoImplicit false

def scalarLimit : Nat := 0x8000000000000000

inductive Value where
  | scalar (payload : Fin scalarLimit)
  | object (id : Nat)
deriving DecidableEq

def Value.id? : Value → Option Nat
  | .scalar _ => none
  | .object id => some id

@[simp] theorem Value.id?_scalar (payload : Fin scalarLimit) : (Value.scalar payload).id? = none :=
  rfl

@[simp] theorem Value.id?_object (id : Nat) : (Value.object id).id? = some id := rfl

/-- A scalar is stored as an odd word. -/
def scalarWord (payload : Nat) : Nat := 2 * payload + 1

structure Heap.Entry where
  object : Object Value
  compacted : Bool
deriving DecidableEq

structure Heap where
  entries : Array Heap.Entry
deriving DecidableEq

namespace Heap

def empty : Heap := ⟨#[]⟩

def size (h : Heap) : Nat := h.entries.size

def entry (h : Heap) (id : Nat) : Entry := h.entries.getD id ⟨.array #[], false⟩

def object (h : Heap) (id : Nat) : Object Value := (h.entry id).object

def kind (h : Heap) : Value → Kind
  | .scalar _ => .scalar
  | .object id => (h.object id).kind

def isCompacted (h : Heap) : Value → Bool
  | .scalar _ => false
  | .object id => (h.entry id).compacted

def children (h : Heap) : Value → List Value
  | .scalar _ => []
  | .object id => (h.object id).children

def objectChildren (h : Heap) (id : Nat) : List Nat := (h.object id).children.filterMap Value.id?

def alloc (h : Heap) (o : Object Value) : Heap × Value :=
  let v := .object h.size
  (⟨h.entries.push ⟨o, false⟩⟩, v)

def put (h : Heap) (id : Nat) (o : Object Value) : Heap :=
  ⟨h.entries.modify id fun e => { e with object := o }⟩

/-- Add the objects of an image, numbered from the current size on. -/
def adopt (h : Heap) (objects : Array (Object Value)) : Heap :=
  ⟨h.entries ++ objects.map fun o => ⟨o, true⟩⟩

/-- Every reference of every object is to an object of the heap. -/
def Closed (h : Heap) : Prop :=
  ∀ id, id < h.size → ∀ child ∈ h.objectChildren id, child < h.size

theorem entry_of_size_le {h : Heap} {id : Nat} (hid : h.size ≤ id) :
    h.entry id = ⟨.array #[], false⟩ := by
  simp only [size] at hid
  simp [entry, Array.getD, Nat.not_lt.mpr hid]

theorem objectChildren_of_size_le {h : Heap} {id : Nat} (hid : h.size ≤ id) :
    h.objectChildren id = [] := by
  simp [objectChildren, object, entry_of_size_le hid, Object.children]

@[simp] theorem size_alloc (h : Heap) (o : Object Value) : (h.alloc o).1.size = h.size + 1 := by
  simp [alloc, size]

@[simp] theorem size_put (h : Heap) (id : Nat) (o : Object Value) : (h.put id o).size = h.size := by
  simp [put, size]

@[simp] theorem size_adopt (h : Heap) (objects : Array (Object Value)) :
    (h.adopt objects).size = h.size + objects.size := by
  simp [adopt, size]

theorem entry_alloc_of_lt {h : Heap} {o : Object Value} {id : Nat} (hid : id < h.size) :
    (h.alloc o).1.entry id = h.entry id := by
  simp only [size] at hid
  simp [alloc, entry, Array.getD, hid, Nat.lt_succ_of_lt hid, Array.getElem_push_lt]

theorem entry_alloc_self (h : Heap) (o : Object Value) :
    (h.alloc o).1.entry h.size = ⟨o, false⟩ := by
  simp [alloc, entry, size, Array.getD]

theorem entry_put_self {h : Heap} {id : Nat} (hid : id < h.size) (o : Object Value) :
    (h.put id o).entry id = ⟨o, (h.entry id).compacted⟩ := by
  simp only [size] at hid
  simp [put, entry, Array.getD, hid, Array.getElem_modify]

theorem entry_put_ne {h : Heap} {id other : Nat} (hne : id ≠ other) (o : Object Value) :
    (h.put id o).entry other = h.entry other := by
  by_cases ho : other < h.entries.size <;>
    simp [put, entry, Array.getD, ho, Array.getElem_modify, hne]

theorem entry_adopt_of_lt {h : Heap} {objects : Array (Object Value)} {id : Nat}
    (hid : id < h.size) : (h.adopt objects).entry id = h.entry id := by
  simp only [size] at hid
  have hlt : id < h.entries.size + objects.size := by omega
  simp [adopt, entry, Array.getD, hid, hlt, Array.getElem_append_left]

end Heap
end HeapImage
