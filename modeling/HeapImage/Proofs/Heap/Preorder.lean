import HeapImage.Heap.Worklist
import HeapImage.Proofs.Heap.Graph
import HeapImage.Writer.Basic

/-!
# Depth-first preorder

The recursive walk over what some objects refer to. It passes over objects that were seen before,
ends at the first cell that is not settled, and otherwise meets an object before the objects that it
refers to, from first to last. The same objects are met if the children of an object are put in
front of a list of what is to be visited.
-/

namespace HeapImage
set_option autoImplicit false

/-- What keeps an object from being copied whatever its size: it is a cell that is not settled. -/
def Object.pending? {ρ : Type} : Object ρ → Option Obstacle
  | .thunk (.waiting _) => some .unforcedThunk
  | .task none => some .pendingTask
  | .promise none => some .pendingPromise
  | _ => none

theorem Object.pending?_eq_none_iff {ρ : Type} {o : Object ρ} : o.pending? = none ↔ o.Settled := by
  cases o with
  | thunk state => cases state <;> simp [pending?, Settled]
  | task result | promise result => cases result <;> simp [pending?, Settled]
  | _ => exact iff_of_true rfl trivial

/-- The objects that a walk has met for the first time, in order, and what it has ended at. -/
structure Walk where
  met : List Nat
  stop : Option Obstacle

namespace Walk

def andThen (first : Walk) (later : List Nat → Walk) : Walk :=
  match first.stop with
  | some _ => first
  | none => ⟨first.met ++ (later first.met).met, (later first.met).stop⟩

def startAt (id : Nat) (walk : Walk) : Walk := ⟨id :: walk.met, walk.stop⟩

theorem andThen_of_stop {first : Walk} {e : Obstacle} (he : first.stop = some e)
    (later : List Nat → Walk) : first.andThen later = first := by
  rw [andThen, he]

theorem andThen_of_done {first : Walk} (hdone : first.stop = none) (later : List Nat → Walk) :
    first.andThen later = ⟨first.met ++ (later first.met).met, (later first.met).stop⟩ := by
  rw [andThen, hdone]

theorem andThen_assoc (first : Walk) (second third : List Nat → Walk) :
    (first.andThen second).andThen third =
      first.andThen fun met => (second met).andThen fun met' => third (met ++ met') := by
  cases hfirst : first.stop with
  | some e => rw [andThen_of_stop hfirst, andThen_of_stop hfirst, andThen_of_stop hfirst]
  | none =>
    rw [andThen_of_done hfirst, andThen_of_done hfirst]
    cases hsecond : (second first.met).stop with
    | some e => rw [andThen_of_stop hsecond, andThen_of_stop rfl, hsecond]
    | none => rw [andThen_of_done hsecond, andThen_of_done rfl, List.append_assoc]

theorem startAt_andThen (id : Nat) (first : Walk) (later : List Nat → Walk) :
    (first.startAt id).andThen later = startAt id (first.andThen fun met => later (id :: met)) := by
  have hstart : (first.startAt id).stop = first.stop := rfl
  cases hfirst : first.stop with
  | some e => rw [andThen_of_stop hfirst, andThen_of_stop (hstart.trans hfirst)]
  | none =>
    rw [andThen_of_done hfirst, andThen_of_done (hstart.trans hfirst)]
    rfl

end Walk

namespace Heap

theorem unvisited_insert (h : Heap) {seen : Finset Nat} {id : Nat} (hid : id ∉ seen) :
    h.unvisited (fun other => decide (other ∈ insert id seen)) + (h.objectChildren id).length ≤
      h.unvisited fun other => decide (other ∈ seen) :=
  h.unvisited_mark (by simpa using hid) (by simp) (by simp +contextual)

/-- Visit some objects, one after the other, each with all that it refers to. There is nothing to
visit in a scalar, so `objectChildren` leaves them out. -/
def walk (h : Heap) (seen : Finset Nat) : List Nat → Walk
  | [] => ⟨[], none⟩
  | id :: rest =>
    if _ : id ∈ seen then h.walk seen rest
    else match (h.object id).pending? with
      | some e => ⟨[], some e⟩
      | none =>
        ((h.walk (insert id seen) (h.objectChildren id)).startAt id).andThen fun met =>
          h.walk (seen ∪ met.toFinset) rest
termination_by ids => h.unvisited (fun id => decide (id ∈ seen)) + ids.length
decreasing_by
  · simp only [List.length_cons]
    omega
  · rename_i hid
    have hmark := h.unvisited_insert hid
    simp only [List.length_cons]
    omega
  · have hle : h.unvisited (fun other => decide (other ∈ seen ∪ met.toFinset)) ≤
        h.unvisited fun other => decide (other ∈ seen) := h.unvisited_le (by simp +contextual)
    simp only [List.length_cons]
    omega

section Walks
variable {h : Heap} {seen : Finset Nat} {id : Nat} {rest : List Nat}

theorem walk_nil (h : Heap) (seen : Finset Nat) : h.walk seen [] = ⟨[], none⟩ := by
  rw [walk]

theorem walk_of_seen (hid : id ∈ seen) : h.walk seen (id :: rest) = h.walk seen rest := by
  rw [walk, dif_pos hid]

theorem walk_of_pending {e : Obstacle} (hid : id ∉ seen) (he : (h.object id).pending? = some e) :
    h.walk seen (id :: rest) = ⟨[], some e⟩ := by
  rw [walk, dif_neg hid, he]

theorem walk_of_settled (hid : id ∉ seen) (hnone : (h.object id).pending? = none) :
    h.walk seen (id :: rest) =
      ((h.walk (insert id seen) (h.objectChildren id)).startAt id).andThen fun met =>
        h.walk (seen ∪ met.toFinset) rest := by
  rw [walk, dif_neg hid, hnone]

theorem walk_append (h : Heap) (seen : Finset Nat) (ids rest : List Nat) :
    h.walk seen (ids ++ rest) =
      (h.walk seen ids).andThen fun met => h.walk (seen ∪ met.toFinset) rest := by
  induction ids generalizing seen with
  | nil =>
    rw [walk_nil, Walk.andThen_of_done rfl, List.nil_append, List.toFinset_nil, Finset.union_empty]
    rfl
  | cons id ids ih =>
    rw [List.cons_append]
    by_cases hid : id ∈ seen
    · rw [walk_of_seen hid, walk_of_seen hid, ih]
    · cases hpending : (h.object id).pending? with
      | some e =>
        rw [walk_of_pending hid hpending, walk_of_pending hid hpending, Walk.andThen_of_stop rfl]
      | none =>
        rw [walk_of_settled hid hpending, walk_of_settled hid hpending, Walk.andThen_assoc]
        congr 1
        funext met
        rw [ih]
        congr 1
        funext met'
        rw [List.toFinset_append, Finset.union_assoc]

/-- The children of an object may as well be put in front of what is still to be visited. -/
theorem walk_of_new (hid : id ∉ seen) (hnone : (h.object id).pending? = none) :
    h.walk seen (id :: rest) =
      (h.walk (insert id seen) (h.objectChildren id ++ rest)).startAt id := by
  rw [walk_of_settled hid hnone, walk_append, Walk.startAt_andThen]
  congr 2
  funext met
  rw [List.toFinset_cons, Finset.union_insert, Finset.insert_union]

/-- To show something of every walk, take it as if it worked off a list. -/
theorem walk_induction (h : Heap) {motive : Finset Nat → List Nat → Walk → Prop}
    (hnil : ∀ seen, motive seen [] ⟨[], none⟩)
    (hseen : ∀ seen id rest walk, id ∈ seen → motive seen rest walk → motive seen (id :: rest) walk)
    (hpending : ∀ seen id rest e, id ∉ seen → (h.object id).pending? = some e →
      motive seen (id :: rest) ⟨[], some e⟩)
    (hnew : ∀ seen id rest walk, id ∉ seen → (h.object id).pending? = none →
      motive (insert id seen) (h.objectChildren id ++ rest) walk →
        motive seen (id :: rest) (walk.startAt id)) (seen : Finset Nat) (ids : List Nat) :
    motive seen ids (h.walk seen ids) := by
  induction hmeasure : h.unvisited (fun id => decide (id ∈ seen)) + ids.length using
    Nat.strong_induction_on generalizing seen ids with
  | h measure ih =>
    cases ids with
    | nil =>
      rw [walk_nil]
      exact hnil seen
    | cons id rest =>
      rw [List.length_cons] at hmeasure
      by_cases hid : id ∈ seen
      · rw [walk_of_seen hid]
        exact hseen seen id rest _ hid (ih _ (by omega) seen rest rfl)
      · cases hobject : (h.object id).pending? with
        | some e =>
          rw [walk_of_pending hid hobject]
          exact hpending seen id rest e hid hobject
        | none =>
          have hmark := unvisited_insert h hid
          have hlength : (h.objectChildren id ++ rest).length =
              (h.objectChildren id).length + rest.length := List.length_append
          rw [walk_of_new hid hobject]
          exact hnew seen id rest _ hid hobject (ih _ (by omega) _ _ rfl)

theorem walk_nodup (h : Heap) (seen : Finset Nat) (ids : List Nat) :
    (h.walk seen ids).met.Nodup ∧ ∀ id ∈ (h.walk seen ids).met, id ∉ seen := by
  refine h.walk_induction (motive := fun seen _ walk => walk.met.Nodup ∧ ∀ id ∈ walk.met, id ∉ seen)
    ?nil ?seen ?pending ?new seen ids
  case nil => exact fun _ => ⟨List.nodup_nil, nofun⟩
  case seen => exact fun _ _ _ _ _ ih => ih
  case pending => exact fun _ _ _ _ _ _ => ⟨List.nodup_nil, nofun⟩
  case new =>
    intro seen id rest walk hid _ ih
    obtain ⟨hnodup, hnew⟩ := ih
    refine ⟨List.nodup_cons.mpr ⟨fun hmem => ?_, hnodup⟩, ?_⟩
    · exact hnew id hmem (Finset.mem_insert_self _ _)
    · exact List.forall_mem_cons.mpr ⟨hid, fun other hother hmem =>
        hnew other hother (Finset.mem_insert_of_mem hmem)⟩

end Walks

/-- Objects reached from a value along objects that were not seen before. -/
inductive ReachesNew (h : Heap) (seen : Finset Nat) (root : Value) : Nat → Prop where
  | root {id : Nat} : root = .object id → id ∉ seen → ReachesNew h seen root id
  | child {id child : Nat} : ReachesNew h seen root id → child ∈ h.objectChildren id →
      child ∉ seen → ReachesNew h seen root child

section Reaching
variable {h : Heap} {seen before : Finset Nat} {ids : List Nat} {P : Nat → Prop}

/-- All that a walk meets or ends at has a property that the children of an object inherit. -/
theorem walk_within (hP : ∀ id, P id → ∀ child ∈ h.objectChildren id, child ∉ before → P child)
    (hbefore : before ⊆ seen) (hids : ∀ id ∈ ids, id ∉ before → P id) :
    (∀ id ∈ (h.walk seen ids).met, P id) ∧
      ∀ e, (h.walk seen ids).stop = some e → ∃ id, P id ∧ (h.object id).pending? = some e := by
  refine h.walk_induction (motive := fun seen ids walk => before ⊆ seen →
    (∀ id ∈ ids, id ∉ before → P id) → (∀ id ∈ walk.met, P id) ∧
      ∀ e, walk.stop = some e → ∃ id, P id ∧ (h.object id).pending? = some e)
    ?nil ?seen ?pending ?new seen ids hbefore hids
  case nil =>
    intro _ _ _
    exact ⟨nofun, nofun⟩
  case seen =>
    intro _ _ _ _ _ ih hbefore hids
    exact ih hbefore (List.forall_mem_cons.mp hids).2
  case pending =>
    intro seen id _ e hid hpending hbefore hids
    have hnow := (List.forall_mem_cons.mp hids).1 fun hmem => hid (hbefore hmem)
    refine ⟨nofun, ?_⟩
    rintro _ ⟨⟩
    exact ⟨id, hnow, hpending⟩
  case new =>
    intro seen id _ _ hid _ ih hbefore hids
    obtain ⟨hfirst, hrest⟩ := List.forall_mem_cons.mp hids
    have hnow := hfirst fun hmem => hid (hbefore hmem)
    obtain ⟨hmet, hstop⟩ := ih (hbefore.trans (Finset.subset_insert _ _))
      (List.forall_mem_append.mpr ⟨hP id hnow, hrest⟩)
    exact ⟨List.forall_mem_cons.mpr ⟨hnow, hmet⟩, hstop⟩

/-- A walk that comes to its end has met all that it had to visit, and has passed settled objects
only, with their children. -/
theorem walk_closed (hdone : (h.walk seen ids).stop = none) :
    (∀ id ∈ ids, id ∈ seen ∨ id ∈ (h.walk seen ids).met) ∧
      ∀ id ∈ (h.walk seen ids).met, (h.object id).Settled ∧
        ∀ child ∈ h.objectChildren id, child ∈ seen ∨ child ∈ (h.walk seen ids).met := by
  refine h.walk_induction (motive := fun seen ids walk => walk.stop = none →
    (∀ id ∈ ids, id ∈ seen ∨ id ∈ walk.met) ∧ ∀ id ∈ walk.met, (h.object id).Settled ∧
      ∀ child ∈ h.objectChildren id, child ∈ seen ∨ child ∈ walk.met)
    ?nil ?seen ?pending ?new seen ids hdone
  case nil =>
    intro _ _
    exact ⟨nofun, nofun⟩
  case seen =>
    intro _ id _ _ hid ih hdone
    obtain ⟨hids, hmet⟩ := ih hdone
    exact ⟨List.forall_mem_cons.mpr ⟨.inl hid, hids⟩, hmet⟩
  case pending =>
    intro _ _ _ _ _ _ hdone
    cases hdone
  case new =>
    intro seen id rest walk hid hpending ih hdone
    obtain ⟨hids, hmet⟩ := ih hdone
    obtain ⟨hchildren, hrest⟩ := List.forall_mem_append.mp hids
    -- The walk over the rest has seen this object, which this walk meets first.
    have hall : ∀ other, other ∈ insert id seen ∨ other ∈ walk.met →
        other ∈ seen ∨ other ∈ (walk.startAt id).met := by
      intro other hother
      rcases hother with hother | hother
      · rcases Finset.mem_insert.mp hother with rfl | hother
        · exact .inr List.mem_cons_self
        · exact .inl hother
      · exact .inr (List.mem_cons_of_mem _ hother)
    constructor
    · exact List.forall_mem_cons.mpr
        ⟨.inr List.mem_cons_self, fun other hother => hall other (hrest other hother)⟩
    · refine List.forall_mem_cons.mpr ⟨⟨Object.pending?_eq_none_iff.mp hpending, ?_⟩, ?_⟩
      · intro child hchild
        exact hall child (hchildren child hchild)
      · intro other hother
        obtain ⟨hsettled, hclosed⟩ := hmet other hother
        exact ⟨hsettled, fun child hchild => hall child (hclosed child hchild)⟩

theorem eq_object_of_mem_id? {root : Value} {id : Nat} (hid : id ∈ root.id?.toList) :
    root = .object id := by
  cases root with
  | scalar payload => cases hid
  | object other => rw [List.mem_singleton.mp hid]

/-- A walk that comes to its end has met just what is reached. -/
theorem mem_walk_iff {root : Value} (hdone : (h.walk seen root.id?.toList).stop = none) {id : Nat} :
    id ∈ (h.walk seen root.id?.toList).met ↔ h.ReachesNew seen root id := by
  constructor
  · obtain ⟨hmet, _⟩ := walk_within (fun _ hid _ hchild hnew => hid.child hchild hnew)
      (Finset.Subset.refl seen) fun id hid hnew => ReachesNew.root (eq_object_of_mem_id? hid) hnew
    exact hmet id
  · intro hreaches
    obtain ⟨hids, hmet⟩ := walk_closed hdone
    induction hreaches with
    | root heq hnew =>
      subst heq
      exact (hids _ List.mem_cons_self).resolve_left hnew
    | child _ hchild hnew ih => exact ((hmet _ ih).2 _ hchild).resolve_left hnew

theorem walk_stop_eq_none_iff {root : Value} : (h.walk seen root.id?.toList).stop = none ↔
    ∀ id, h.ReachesNew seen root id → (h.object id).Settled := by
  constructor
  · intro hdone id hreaches
    exact ((walk_closed hdone).2 id ((mem_walk_iff hdone).mpr hreaches)).1
  · intro hsettled
    obtain ⟨_, hstop⟩ := walk_within (fun _ hid _ hchild hnew => hid.child hchild hnew)
      (Finset.Subset.refl seen) fun id hid hnew => ReachesNew.root (eq_object_of_mem_id? hid) hnew
    cases hend : (h.walk seen root.id?.toList).stop with
    | none => rfl
    | some e =>
      obtain ⟨id, hreaches, hpending⟩ := hstop e hend
      rw [Object.pending?_eq_none_iff.mpr (hsettled id hreaches)] at hpending
      cases hpending

end Reaching

end Heap
end HeapImage
