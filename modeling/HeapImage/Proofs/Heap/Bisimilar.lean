import HeapImage.Heap.Equality
import HeapImage.Proofs.Heap.Graph

/-!
# Bisimilar values

Values that are related by a bisimulation are structurally equal, also if there are cycles.
-/

namespace HeapImage
set_option autoImplicit false

/-- Related values are identical, or objects that agree up to children which are related again. -/
def Heap.Bisimulation (h : Heap) (related : Value → Value → Prop) : Prop :=
  ∀ a b, related a b → a = b ∨ ∃ i j pairs, a = .object i ∧ b = .object j ∧
    (h.object i).pairs? (h.object j) = some pairs ∧ ∀ p ∈ pairs, related p.1 p.2

theorem Object.pairs?_map {ρ : Type} {o : Object ρ} (ho : o.Settled) (g : ρ → ρ) :
    o.pairs? (o.map g) = some (o.children.map fun v => (v, g v)) := by
  have hzip : ∀ refs : List ρ, refs.zip (refs.map g) = refs.map fun v => (v, g v) := by
    intro refs
    induction refs with
    | nil => rfl
    | cons v rest ih => rw [List.map_cons, List.zip_cons_cons, ih, List.map_cons]
  cases o with
  | constructor tag fields scalars => simp [pairs?, map, children, hzip]
  | array elements => simp [pairs?, map, children, hzip]
  | byteArray | string | bigInteger => simp [pairs?, map, children]
  | thunk state =>
    cases state with
    | waiting closure => exact ho.elim
    | forced value => rfl
  | task result | promise result =>
    cases result with
    | none => exact ho.elim
    | some value => rfl
  | mutableRef contents => rfl

namespace Heap
variable {h : Heap} {related : Value → Value → Prop}

theorem equalFrom_of_bisimulation (hb : h.Bisimulation related) (visited : PairSet)
    (todo : List (Value × Value)) (htodo : ∀ p ∈ todo, related p.1 p.2) :
    h.equalFrom visited todo = true := by
  fun_induction equalFrom h visited todo with
  | case1 => rfl
  | case2 visited a rest ih => exact ih (List.forall_mem_cons.mp htodo).2
  | case3 visited rest i j _ _ ih => exact ih (List.forall_mem_cons.mp htodo).2
  | case4 visited rest i j _ hnone hne =>
    have hpair := hb _ _ (List.forall_mem_cons.mp htodo).1
    rcases hpair with heq | ⟨i', j', pairs, hi, hj, hpairs, _⟩
    · exact absurd heq hne
    · cases hi
      cases hj
      rw [hnone] at hpairs
      cases hpairs
  | case5 visited rest i j _ pairs hsome hne ih =>
    obtain ⟨hpair, hrest⟩ := List.forall_mem_cons.mp htodo
    apply ih
    intro p hp
    rcases List.mem_append.mp hp with hp | hp
    · rcases hb _ _ hpair with heq | ⟨i', j', pairs', hi, hj, hpairs, hchildren⟩
      · exact absurd heq hne
      · cases hi
        cases hj
        cases hsome.symm.trans hpairs
        exact hchildren p hp
    · exact hrest p hp
  | case6 visited a b rest hne hother =>
    rcases hb _ _ (List.forall_mem_cons.mp htodo).1 with heq | ⟨i, j, _, hi, hj, _⟩
    · exact absurd heq hne
    · exact absurd hj (hother i j hi)

theorem structurallyEqual_of_bisimulation (hb : h.Bisimulation related) {a b : Value}
    (hab : related a b) : h.structurallyEqual a b = true := by
  apply equalFrom_of_bisimulation hb ∅ [(a, b)]
  intro p hp
  rw [List.mem_singleton.mp hp]
  exact hab

end Heap
end HeapImage
