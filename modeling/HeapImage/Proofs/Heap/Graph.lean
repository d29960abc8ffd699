import Mathlib
import HeapImage.Heap.Basic

/-!
# Object graphs

Heaps as graphs: which objects are reached from given values, which references may occur, and how a
heap may have grown. Objects are related by maps of their numbers.
-/

namespace HeapImage
set_option autoImplicit false

/-- Data that every object has by construction: byte arrays have whole elements, and zero is not
negative. -/
def Object.WellFormed {ρ : Type} : Object ρ → Prop
  | byteArray elemSize bytes => elemSize ≠ 0 ∧ bytes.size % elemSize.toNat = 0
  | bigInteger value => value.limbs = [] → value.negative = false
  | _ => True

theorem Object.wellFormed_map {ρ σ : Type} {o : Object ρ} (f : ρ → σ) (ho : o.WellFormed) :
    (o.map f).WellFormed := by
  cases o with
  | thunk state => cases state <;> trivial
  | byteArray | bigInteger => exact ho
  | _ => trivial

/-- Thunks are forced, tasks and promises resolved. -/
def Object.Settled {ρ : Type} : Object ρ → Prop
  | thunk (.waiting _) => False
  | task none => False
  | promise none => False
  | _ => True

theorem Object.settled_map {ρ σ : Type} (f : ρ → σ) (o : Object ρ) :
    (o.map f).Settled ↔ o.Settled := by
  cases o with
  | thunk state => cases state <;> exact Iff.rfl
  | task result | promise result => cases result <;> exact Iff.rfl
  | _ => exact Iff.rfl

namespace Value

def In (h : Heap) : Value → Prop
  | scalar _ => True
  | object id => id < h.size

def mapId (m : Nat → Nat) : Value → Value
  | scalar payload => .scalar payload
  | object id => .object (m id)

end Value

namespace Heap

structure WellFormed (h : Heap) : Prop where
  data : ∀ id, id < h.size → (h.object id).WellFormed
  closed : h.Closed

/-- Objects reached from the roots. -/
inductive Reaches (h : Heap) (roots : List Value) : Nat → Prop where
  | root {id : Nat} : .object id ∈ roots → Reaches h roots id
  | child {id child : Nat} : Reaches h roots id → child ∈ h.objectChildren id →
      Reaches h roots child

/-- The objects of `h₀` are in `h` unchanged; there may be more. -/
structure GrownFrom (h h₀ : Heap) : Prop where
  size_le : h₀.size ≤ h.size
  object_eq : ∀ id, id < h₀.size → h.object id = h₀.object id

theorem GrownFrom.refl (h : Heap) : h.GrownFrom h := ⟨Nat.le_refl _, fun _ _ => rfl⟩

theorem GrownFrom.in_of_in {h h₀ : Heap} (hg : h.GrownFrom h₀) {v : Value} (hv : v.In h₀) :
    v.In h := by
  cases v with
  | scalar payload => trivial
  | object id => exact Nat.lt_of_lt_of_le hv hg.size_le

theorem object_of_size_le {h : Heap} {id : Nat} (hid : h.size ≤ id) : h.object id = .array #[] := by
  rw [object, entry_of_size_le hid]

theorem WellFormed.object {h : Heap} (hw : h.WellFormed) (id : Nat) : (h.object id).WellFormed := by
  by_cases hid : id < h.size
  · exact hw.data id hid
  · rw [object_of_size_le (Nat.le_of_not_lt hid)]
    trivial

theorem mem_objectChildren {h : Heap} {id child : Nat} :
    child ∈ h.objectChildren id ↔ .object child ∈ (h.object id).children := by
  rw [objectChildren, List.mem_filterMap]
  constructor
  · intro hmem
    obtain ⟨v, hv, hid⟩ := hmem
    cases v with
    | scalar payload => cases hid
    | object id => exact Option.some.inj hid ▸ hv
  · intro hv
    exact ⟨_, hv, rfl⟩

theorem Reaches.lt_size {h : Heap} (hw : h.WellFormed) {roots : List Value}
    (hroots : ∀ root ∈ roots, root.In h) {id : Nat} (hr : h.Reaches roots id) : id < h.size := by
  induction hr with
  | root hroot => exact hroots _ hroot
  | child _ hchild ih => exact hw.closed _ ih _ hchild

end Heap
end HeapImage
