import HeapImage.Proofs.Heap.Settled
import HeapImage.Proofs.Heap.StructuralEquality

/-!
# Leaves

Strings, byte arrays and big integers refer to nothing, and no update replaces one. So a leaf is
structurally equal to another object only if the two are the same but for their place in the heap,
and stays so.
-/

namespace HeapImage
set_option autoImplicit false

namespace Object
variable {ρ σ : Type} {o o' : Object ρ}

theorem isLeaf_of_kind_eq (hkind : o.kind = o'.kind) : o.isLeaf = o'.isLeaf := by
  cases o <;> cases o' <;> first | rfl | cases hkind

theorem settled_of_isLeaf (ho : o.isLeaf = true) : o.Settled := by
  cases o <;> trivial

/-- There is nothing in a leaf but what its skeleton has. -/
theorem eq_of_skeleton_eq (ho : o.isLeaf = true) (heq : o.skeleton = o'.skeleton) : o = o' := by
  have hkind := congrArg kind heq
  rw [skeleton, skeleton, kind_map, kind_map] at hkind
  cases o with
  | byteArray | string | bigInteger =>
    cases o' <;> try cases hkind
    cases heq
    rfl
  | _ => cases ho

theorem map_inj_of_isLeaf {f : ρ → σ} (ho : o.isLeaf = true) (heq : o.map f = o'.map f) :
    o = o' := by
  apply eq_of_skeleton_eq ho
  rw [← skeleton_map f o, heq, skeleton_map]

theorem eq_of_map_eq_bigInteger {f : ρ → σ} {x : LimbInteger} (hmap : o.map f = .bigInteger x) :
    o = .bigInteger x := by
  have hkind := congrArg kind hmap
  rw [kind_map] at hkind
  cases o <;> try cases hkind
  cases hmap
  rfl

theorem agrees_iff_of_isLeaf (ho : o.isLeaf = true) : o.Agrees o' ↔ o = o' := by
  constructor
  · exact fun hagrees => eq_of_skeleton_eq ho hagrees.skeleton_eq
  · rintro rfl
    exact ⟨settled_of_isLeaf ho, settled_of_isLeaf ho, rfl⟩

end Object

namespace Heap
variable {h : Heap} {id other : Nat}

theorem structurallyEqual_iff_of_isLeaf (hleaf : (h.object id).isLeaf = true) :
    h.structurallyEqual (.object id) (.object other) = true ↔ h.object id = h.object other := by
  constructor
  · intro hequal
    rcases h.preservesStructure_structurallyEqual _ _ hequal with heq | ⟨i, j, hi, hj, hagrees, _⟩
    · rw [Value.object.inj heq]
    · cases hi
      cases hj
      exact (Object.agrees_iff_of_isLeaf hleaf).mp hagrees
  · intro heq
    refine structurallyEqual_iff.mpr
      ⟨fun a b => a = .object id ∧ b = .object other, ?_, rfl, rfl⟩
    rintro a b ⟨rfl, rfl⟩
    refine .inr ⟨id, other, rfl, rfl, (Object.agrees_iff_of_isLeaf hleaf).mpr heq, ?_⟩
    rw [← heq, Object.children_eq_nil_of_isLeaf hleaf]
    exact .nil

theorem Puts.not_isLeaf {u : Update} {o : Object Value} (hp : h.Puts u id o) :
    (h.object id).isLeaf = false := by
  cases hp with
  | force hobject | resolveTask hobject | resolvePromise hobject => rw [hobject]; rfl
  | setRef hobject _ | setField _ hobject _ => rw [hobject]; rfl

theorem object_update_of_isLeaf (hid : id < h.size) (hleaf : (h.object id).isLeaf = true)
    (u : Update) : (h.update u).object id = h.object id := by
  rcases h.update_cases u with ⟨added, heq, _⟩ | ⟨target, o, hp, heq⟩
  · rw [heq, object, entry_append_of_lt added hid, object]
  · rw [heq, object, entry_put_ne, object]
    rintro rfl
    rw [hp.not_isLeaf] at hleaf
    cases hleaf

theorem object_updates_of_isLeaf (hid : id < h.size) (hleaf : (h.object id).isLeaf = true)
    (us : List Update) : (h.updates us).object id = h.object id := by
  induction us generalizing h with
  | nil => rfl
  | cons u rest ih =>
    have hobject := object_update_of_isLeaf hid hleaf u
    rw [← hobject] at hleaf ⊢
    exact ih (hid.trans_le (h.size_le_update u)) hleaf

theorem isLeaf_update (hid : id < h.size) (u : Update) :
    ((h.update u).object id).isLeaf = (h.object id).isLeaf :=
  Object.isLeaf_of_kind_eq (kind_update hid u)

end Heap
end HeapImage
