import HeapImage.Proofs.Heap.Bisimilar

/-!
# Structural equality

Structural equality is the largest relation that preserves structure: whatever it relates agrees in
kind and data, and has related children position by position. Such relations have converses and
compositions of the same sort, so structural equality is an equivalence. It does not see whether
parts are shared or copied, or how far a cycle is unrolled.
-/

namespace HeapImage
set_option autoImplicit false

namespace Object
variable {ρ σ τ : Type}

/-- What is left of an object if it is not looked at what it refers to: kind, data, and the number
of references. -/
def skeleton (o : Object ρ) : Object Unit := o.map fun _ => ()

/-- Objects of one kind with equal data and equally many children; cells are settled. -/
structure Agrees (o : Object ρ) (o' : Object σ) : Prop where
  left : o.Settled
  right : o'.Settled
  skeleton_eq : o.skeleton = o'.skeleton

theorem Agrees.symm {o : Object ρ} {o' : Object σ} (h : o.Agrees o') : o'.Agrees o :=
  ⟨h.right, h.left, h.skeleton_eq.symm⟩

theorem Agrees.trans {o : Object ρ} {o' : Object σ} {o'' : Object τ} (h : o.Agrees o')
    (h' : o'.Agrees o'') : o.Agrees o'' :=
  ⟨h.left, h'.right, h.skeleton_eq.trans h'.skeleton_eq⟩

theorem map_unit_eq_iff {refs : Array ρ} {refs' : Array σ} :
    refs.map (fun _ => ()) = refs'.map (fun _ => ()) ↔ refs.size = refs'.size := by
  rw [Array.map_const', Array.map_const', Array.replicate_inj]
  simp

theorem Agrees.kind_eq {o : Object ρ} {o' : Object σ} (h : o.Agrees o') : o.kind = o'.kind := by
  have hkind := congrArg kind h.skeleton_eq
  rwa [skeleton, skeleton, kind_map, kind_map] at hkind

theorem pairs?_of_agrees {o o' : Object ρ} (h : o.Agrees o') :
    o.pairs? o' = some (o.children.zip o'.children) := by
  have hkind := h.kind_eq
  obtain ⟨ho, ho', heq⟩ := h
  cases o <;> cases o' <;> try cases hkind
  case constructor.constructor =>
    obtain ⟨htag, hfields, hscalars⟩ := Object.constructor.inj heq
    exact if_pos ⟨htag, hscalars, map_unit_eq_iff.mp hfields⟩
  case array.array => exact if_pos (map_unit_eq_iff.mp (Object.array.inj heq))
  case byteArray.byteArray => exact if_pos (Object.byteArray.inj heq)
  case string.string => exact if_pos (Object.string.inj heq)
  case bigInteger.bigInteger => exact if_pos (Object.bigInteger.inj heq)
  case mutableRef.mutableRef => rfl
  case thunk.thunk state state' =>
    cases state with
    | waiting closure => exact ho.elim
    | forced value =>
      cases state' with
      | waiting closure => exact ho'.elim
      | forced value' => rfl
  case task.task result result' =>
    cases result with
    | none => exact ho.elim
    | some value =>
      cases result' with
      | none => exact ho'.elim
      | some value' => rfl
  case promise.promise result result' =>
    cases result with
    | none => exact ho.elim
    | some value =>
      cases result' with
      | none => exact ho'.elim
      | some value' => rfl

theorem agrees_of_pairs? {o o' : Object ρ} {pairs : List (ρ × ρ)} (h : o.pairs? o' = some pairs) :
    o.Agrees o' := by
  unfold pairs? at h
  split at h
  case h_1 =>
    obtain ⟨⟨rfl, rfl, hsize⟩, _⟩ := Option.ite_none_right_eq_some.mp h
    exact ⟨trivial, trivial, congrArg (constructor _ · _) (map_unit_eq_iff.mpr hsize)⟩
  case h_2 =>
    obtain ⟨hsize, _⟩ := Option.ite_none_right_eq_some.mp h
    exact ⟨trivial, trivial, congrArg array (map_unit_eq_iff.mpr hsize)⟩
  case h_3 =>
    obtain ⟨⟨rfl, rfl⟩, _⟩ := Option.ite_none_right_eq_some.mp h
    exact ⟨trivial, trivial, rfl⟩
  case h_4 | h_9 =>
    obtain ⟨rfl, _⟩ := Option.ite_none_right_eq_some.mp h
    exact ⟨trivial, trivial, rfl⟩
  case h_5 | h_6 | h_7 | h_8 => exact ⟨trivial, trivial, rfl⟩
  case h_10 => cases h

/-- Two objects that are compared differ, or they agree and depend on their children at equal
positions. -/
theorem pairs?_eq_some_iff {o o' : Object ρ} {pairs : List (ρ × ρ)} :
    o.pairs? o' = some pairs ↔ o.Agrees o' ∧ pairs = o.children.zip o'.children := by
  constructor
  · intro h
    have hagrees := agrees_of_pairs? h
    rw [pairs?_of_agrees hagrees] at h
    exact ⟨hagrees, (Option.some.inj h).symm⟩
  · rintro ⟨hagrees, rfl⟩
    exact pairs?_of_agrees hagrees

theorem length_children_of_agrees {o o' : Object ρ} (h : o.Agrees o') :
    o.children.length = o'.children.length := by
  have hleft := congrArg (fun o => o.children.length) h.skeleton_eq
  simpa only [skeleton, children_map, List.length_map] using hleft

theorem skeleton_map (f : ρ → σ) (o : Object ρ) : (o.map f).skeleton = o.skeleton := by
  cases o with
  | thunk state => cases state <;> rfl
  | _ => simp [skeleton, map]

theorem agrees_map {o : Object ρ} (ho : o.Settled) (f : ρ → σ) : o.Agrees (o.map f) :=
  ⟨ho, (settled_map f o).mpr ho, (skeleton_map f o).symm⟩

end Object

/-- Related values are identical, or objects that agree and have related children at equal
positions. -/
def Heap.PreservesStructure (h : Heap) (related : Value → Value → Prop) : Prop :=
  ∀ a b, related a b → a = b ∨ ∃ i j, a = .object i ∧ b = .object j ∧
    (h.object i).Agrees (h.object j) ∧
    List.Forall₂ related (h.object i).children (h.object j).children

namespace Heap
variable {h : Heap} {related related' : Value → Value → Prop} {a b : Value}

theorem bisimulation_iff : h.Bisimulation related ↔ h.PreservesStructure related := by
  have hpairs : ∀ i j : Nat,
      (∃ pairs, (h.object i).pairs? (h.object j) = some pairs ∧ ∀ p ∈ pairs, related p.1 p.2) ↔
        (h.object i).Agrees (h.object j) ∧
          List.Forall₂ related (h.object i).children (h.object j).children := by
    intro i j
    simp only [Object.pairs?_eq_some_iff, List.forall₂_iff_zip]
    constructor
    · rintro ⟨_, ⟨hagrees, rfl⟩, hall⟩
      exact ⟨hagrees, Object.length_children_of_agrees hagrees, fun hmem => hall _ hmem⟩
    · rintro ⟨hagrees, _, hall⟩
      exact ⟨_, ⟨hagrees, rfl⟩, fun p hp => hall hp⟩
  simp only [Bisimulation, PreservesStructure, ← hpairs, exists_and_left]

theorem preservesStructure_eq (h : Heap) : h.PreservesStructure Eq :=
  fun _ _ heq => .inl heq

theorem PreservesStructure.flip (hr : h.PreservesStructure related) :
    h.PreservesStructure (flip related) := by
  intro a b hab
  rcases hr b a hab with heq | ⟨i, j, hi, hj, hagrees, hchildren⟩
  · exact .inl heq.symm
  · exact .inr ⟨j, i, hj, hi, hagrees.symm, hchildren.flip⟩

theorem forall₂_comp {as bs cs : List Value} (hab : List.Forall₂ related as bs)
    (hbc : List.Forall₂ related' bs cs) :
    List.Forall₂ (Relation.Comp related related') as cs := by
  induction hab generalizing cs with
  | nil => cases hbc; exact .nil
  | cons hfirst _ ih =>
    cases hbc with
    | cons hfirst' hrest' => exact .cons ⟨_, hfirst, hfirst'⟩ (ih hrest')

/-- One of the two steps may be the identity, so both relations are to be reflexive. -/
theorem PreservesStructure.comp (hr : h.PreservesStructure related)
    (hr' : h.PreservesStructure related') (hrefl : ∀ v, related v v) (hrefl' : ∀ v, related' v v) :
    h.PreservesStructure (Relation.Comp related related') := by
  rintro a c ⟨b, hab, hbc⟩
  rcases hr a b hab with rfl | ⟨i, j, rfl, rfl, hagrees, hchildren⟩
  · rcases hr' a c hbc with rfl | ⟨i, j, rfl, rfl, hagrees', hchildren'⟩
    · exact .inl rfl
    · have hsame := List.forall₂_same.mpr fun v (_ : v ∈ (h.object i).children) => hrefl v
      exact .inr ⟨i, j, rfl, rfl, hagrees', forall₂_comp hsame hchildren'⟩
  · rcases hr' _ c hbc with rfl | ⟨j', k, heq, rfl, hagrees', hchildren'⟩
    · have hsame := List.forall₂_same.mpr fun v (_ : v ∈ (h.object j).children) => hrefl' v
      exact .inr ⟨i, j, rfl, rfl, hagrees, forall₂_comp hchildren hsame⟩
    · cases heq
      exact .inr ⟨i, k, rfl, rfl, hagrees.trans hagrees', forall₂_comp hchildren hchildren'⟩

def Linked (pairs : Nat → Nat → Prop) (a b : Value) : Prop :=
  a = b ∨ ∃ i j, a = .object i ∧ b = .object j ∧ pairs i j

/-- A comparison that finds no difference has met a set of pairs with the visited ones in it, and
has seen all others of them to agree. -/
theorem exists_pairs_of_equalFrom {visited : PairSet} {todo : List (Value × Value)}
    (hequal : h.equalFrom visited todo = true) : ∃ pairs : Nat → Nat → Prop,
      (∀ i j, visited.contains (i, j) = true → pairs i j) ∧
      (∀ p ∈ todo, Linked pairs p.1 p.2) ∧
      ∀ i j, pairs i j → visited.contains (i, j) = true ∨ (h.object i).Agrees (h.object j) ∧
        List.Forall₂ (Linked pairs) (h.object i).children (h.object j).children := by
  fun_induction equalFrom h visited todo with
  | case1 visited =>
    exact ⟨fun i j => visited.contains (i, j) = true, fun _ _ => id, List.forall_mem_nil _,
      fun _ _ => .inl⟩
  | case2 visited a rest ih =>
    obtain ⟨pairs, hvisited, htodo, hagree⟩ := ih hequal
    exact ⟨pairs, hvisited, List.forall_mem_cons.mpr ⟨.inl rfl, htodo⟩, hagree⟩
  | case3 visited rest i j hseen _ ih =>
    obtain ⟨pairs, hvisited, htodo, hagree⟩ := ih hequal
    have hlinked : Linked pairs (.object i) (.object j) := .inr ⟨i, j, rfl, rfl, hvisited i j hseen⟩
    exact ⟨pairs, hvisited, List.forall_mem_cons.mpr ⟨hlinked, htodo⟩, hagree⟩
  | case4 => cases hequal
  | case5 visited rest i j _ children hsome _ ih =>
    obtain ⟨pairs, hvisited, htodo, hagree⟩ := ih hequal
    obtain ⟨hchildren, hrest⟩ := List.forall_mem_append.mp htodo
    have hnow : pairs i j := hvisited i j Std.ExtTreeSet.contains_insert_self
    refine ⟨pairs, fun i' j' hseen => hvisited i' j' ?_, ?_, fun i' j' hpair => ?_⟩
    · rw [Std.ExtTreeSet.contains_insert, hseen, Bool.or_true]
    · exact List.forall_mem_cons.mpr ⟨.inr ⟨i, j, rfl, rfl, hnow⟩, hrest⟩
    · -- The pair that was added is justified here, and those added later by the hypothesis.
      rcases hagree i' j' hpair with hseen | hdone
      · rcases Std.ExtTreeSet.mem_insert.mp hseen with heq | hold
        · cases Std.LawfulEqCmp.eq_of_compare heq
          obtain ⟨hagrees, rfl⟩ := Object.pairs?_eq_some_iff.mp hsome
          have hlength := Object.length_children_of_agrees hagrees
          exact .inr ⟨hagrees, List.forall₂_iff_zip.mpr ⟨hlength, fun hmem => hchildren _ hmem⟩⟩
        · exact .inl hold
      · exact .inr hdone
  | case6 => cases hequal

/-- Structural equality preserves structure, and it is the largest relation to do so. -/
theorem structurallyEqual_iff :
    h.structurallyEqual a b = true ↔ ∃ related, h.PreservesStructure related ∧ related a b := by
  constructor
  · intro hequal
    obtain ⟨pairs, _, htodo, hagree⟩ := exists_pairs_of_equalFrom hequal
    refine ⟨Linked pairs, ?_, htodo (a, b) List.mem_cons_self⟩
    rintro a' b' (heq | ⟨i, j, ha, hb, hpair⟩)
    · exact .inl heq
    · rcases hagree i j hpair with hseen | hdone
      · exact absurd hseen Std.ExtTreeSet.not_mem_empty
      · exact .inr ⟨i, j, ha, hb, hdone⟩
  · rintro ⟨related, hpreserves, hab⟩
    exact structurallyEqual_of_bisimulation (bisimulation_iff.mpr hpreserves) hab

theorem preservesStructure_structurallyEqual (h : Heap) :
    h.PreservesStructure fun a b => h.structurallyEqual a b = true := by
  intro a b hequal
  obtain ⟨related, hpreserves, hab⟩ := structurallyEqual_iff.mp hequal
  rcases hpreserves a b hab with heq | ⟨i, j, ha, hb, hagrees, hchildren⟩
  · exact .inl heq
  · have hequal := hchildren.imp fun _ _ hab' =>
      structurallyEqual_iff.mpr ⟨related, hpreserves, hab'⟩
    exact .inr ⟨i, j, ha, hb, hagrees, hequal⟩

theorem structurallyEqual_equivalence (h : Heap) :
    Equivalence fun a b => h.structurallyEqual a b = true := by
  have hrefl : ∀ v, h.structurallyEqual v v = true := fun v =>
    structurallyEqual_iff.mpr ⟨Eq, h.preservesStructure_eq, rfl⟩
  have hpreserves := h.preservesStructure_structurallyEqual
  refine ⟨hrefl, fun hab => ?_, fun hab hbc => ?_⟩
  · exact structurallyEqual_iff.mpr ⟨_, hpreserves.flip, hab⟩
  · exact structurallyEqual_iff.mpr ⟨_, hpreserves.comp hpreserves hrefl hrefl, _, hab, hbc⟩

theorem eq_of_structurallyEqual_of_not_settled {id : Nat} (hpending : ¬(h.object id).Settled)
    (hequal : h.structurallyEqual (.object id) b = true) : b = .object id := by
  rcases h.preservesStructure_structurallyEqual _ _ hequal with heq | ⟨i, j, hi, _, hagrees, _⟩
  · exact heq.symm
  · cases hi
    exact absurd hagrees.left hpending

/-- Each object of a part of the heap is left alone, or is a copy of the object it is mapped to.
More than one may be copies of the same, and a cycle of the part may be longer than its image. -/
structure Copying (h : Heap) (part : Nat → Prop) (m : Nat → Nat) : Prop where
  closed : ∀ id, part id → ∀ child ∈ h.objectChildren id, part child
  copied : ∀ id, part id → m id = id ∨
    (h.object id).Settled ∧ h.object (m id) = (h.object id).map (Value.mapId m)

theorem Copying.preservesStructure {part : Nat → Prop} {m : Nat → Nat} (hc : h.Copying part m) :
    h.PreservesStructure fun a b => b = a.mapId m ∧ ∀ id, a = .object id → part id := by
  rintro a _ ⟨rfl, hpart⟩
  cases a with
  | scalar payload => exact .inl rfl
  | object id =>
    rcases hc.copied id (hpart id rfl) with hsame | ⟨hsettled, hcopy⟩
    · exact .inl (congrArg Value.object hsame.symm)
    · refine .inr ⟨id, m id, rfl, rfl, hcopy ▸ Object.agrees_map hsettled _, ?_⟩
      rw [hcopy, Object.children_map, List.forall₂_map_right_iff, List.forall₂_same]
      rintro v hv
      refine ⟨rfl, ?_⟩
      rintro child rfl
      exact hc.closed id (hpart id rfl) child (mem_objectChildren.mpr hv)

/-- Two values are structurally equal if and only if some relation that preserves structure relates
them. This is an equivalence. It distinguishes a cell that is not settled from everything else, and
nothing from its copies. -/
theorem structurallyEqual_decides (h : Heap) :
    (∀ a b, h.structurallyEqual a b = true ↔
      ∃ related, h.PreservesStructure related ∧ related a b) ∧
    Equivalence (fun a b => h.structurallyEqual a b = true) ∧
    (∀ id v, ¬(h.object id).Settled → h.structurallyEqual (.object id) v = true →
      v = .object id) ∧
    ∀ part m, h.Copying part m → ∀ id, part id →
      h.structurallyEqual (.object id) (.object (m id)) = true := by
  refine ⟨fun _ _ => structurallyEqual_iff, h.structurallyEqual_equivalence,
    fun _ _ => eq_of_structurallyEqual_of_not_settled, fun part m hc id hid => ?_⟩
  refine structurallyEqual_iff.mpr ⟨_, hc.preservesStructure, rfl, ?_⟩
  rintro _ ⟨⟩
  exact hid

/-- A compacted array that holds itself, two arrays that hold each other, and two tasks. -/
def loopHeap : Heap :=
  ⟨#[⟨.array #[.object 0], true⟩, ⟨.array #[.object 2], false⟩, ⟨.array #[.object 1], false⟩,
    ⟨.task none, false⟩, ⟨.task none, false⟩]⟩

theorem loops_structurallyEqual :
    loopHeap.structurallyEqual (.object 1) (.object 0) = true ∧
      ¬loopHeap.structurallyEqual (.object 3) (.object 4) = true := by
  obtain ⟨_, _, hpending, hcopies⟩ := loopHeap.structurallyEqual_decides
  constructor
  · refine hcopies (· < 3) (fun _ => 0) ⟨?_, ?_⟩ 1 (by decide)
    · decide +kernel
    · intro id hid
      have hsettled : (loopHeap.object id).Settled := by
        interval_cases id <;> trivial
      have hcopy : ∀ id < 3, loopHeap.object 0 =
          (loopHeap.object id).map (Value.mapId fun _ => 0) := by decide +kernel
      exact .inr ⟨hsettled, hcopy id hid⟩
  · intro hequal
    have hcell := hpending 3 (.object 4) id hequal
    cases hcell

end Heap
end HeapImage
