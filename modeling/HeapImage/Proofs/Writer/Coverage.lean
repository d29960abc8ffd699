import HeapImage.Proofs.RoundTrip
import HeapImage.Proofs.Writer.History

/-!
# What is copied

If the heap does not change but for new objects, then a writer has copied just the objects that are
reached from the roots it has accepted: all of them, and nothing else. What a call that fails has
met on its way does not count.
-/

namespace HeapImage
set_option autoImplicit false

namespace Heap
variable {h h₀ : Heap} {id child : Nat}

theorem GrownFrom.mem_objectChildren (hg : h.GrownFrom h₀) (hc : child ∈ h₀.objectChildren id) :
    child ∈ h.objectChildren id := by
  rw [Heap.mem_objectChildren] at hc ⊢
  by_cases hid : id < h₀.size
  · rwa [hg.object_eq id hid]
  · rw [object_of_size_le (Nat.le_of_not_lt hid)] at hc
    cases hc

theorem GrownFrom.shows (hg : h.GrownFrom h₀) (hh : h.WellFormed) (hclosed : h₀.Closed) :
    h₀.Shows h.object :=
  ⟨fun id hid => (hg.object_eq id hid).symm, fun id _ => hh.object id, hclosed⟩

end Heap

namespace Writer

/-- All that was copied or is to be copied has a property. -/
structure Within (w : Writer) (P : Nat → Prop) : Prop where
  copied : ∀ id word : Nat, w.copied[id]? = some word → P id
  todo : ∀ hole ∈ w.todo, P hole.child

theorem Within.of_eq {w w' : Writer} {P : Nat → Prop} (hw : w.Within P)
    (hcopied : w'.copied = w.copied) (htodo : w'.todo = w.todo) : w'.Within P where
  copied := by
    rw [hcopied]
    exact hw.copied
  todo := by
    rw [htodo]
    exact hw.todo

theorem Within.commit {w : Writer} {P : Nat → Prop} (hw : w.Within P) : w.commit.Within P :=
  ⟨hw.copied, hw.todo⟩

section Calls
variable {w : Writer} {hash : ContentHash} {h : Heap} {root : Value} {P : Nat → Prop}
variable (hP : ∀ id, P id → ∀ child ∈ h.objectChildren id, P child)
include hP

theorem Within.store (hw : w.Within P) {id : Nat} (hid : P id) :
    (w.store hash h id).1.Within P := by
  cases hc : w.copied[id]? with
  | some stored =>
    rw [store_of_copied hc]
    exact hw
  | none =>
    rw [store_of_new hc]
    refine ⟨fun other word hother => ?_, fun hole hhole => ?_⟩
    · rw [copied_copyObject] at hother
      rcases eq_or_of_getElem?_insert hother with ⟨rfl, _⟩ | hother
      · exact hid
      · exact hw.copied other word hother
    · rw [todo_copyObject, List.mem_append] at hhole
      rcases hhole with hnew | hold
      · exact hP id hid _ (mem_objectChildren_of_mem_holes hnew)
      · exact hw.todo hole hold

theorem Within.advance (hw : w.Within P) {next : Hole} {rest : List Hole}
    (htodo : w.todo = next :: rest) : (w.advance hash h next rest).Within P := by
  have hnext : P next.child := hw.todo next (htodo ▸ List.mem_cons_self)
  have hpop : { w with todo := rest }.Within P :=
    ⟨hw.copied, fun hole hhole => hw.todo hole (htodo ▸ List.mem_cons_of_mem _ hhole)⟩
  have hstore : ({ w with todo := rest }.store hash h next.child).1.Within P :=
    hpop.store hP hnext
  exact hstore.of_eq (copied_fill _ _ _) (todo_fill _ _ _)

/-- A call that succeeds has copied nothing that its root does not need. -/
theorem Within.compact (hw : w.Within P) (hroot : ∀ id, root = .object id → P id)
    (hok : (w.compact hash h root).2 = .ok ()) : (w.compact hash h root).1.Within P := by
  rcases compact_cases w hash h root with ⟨v, hv, hcompact⟩ | ⟨v, e, _, hcompact⟩
  · obtain ⟨_, _, _, rfl⟩ := writeRoot_eq_none hv
    have hstored : (w.storeRoot hash h root).1.Within P := by
      cases root with
      | scalar payload => exact hw
      | object id => exact hw.store hP (hroot id rfl)
    have hdrain : ((w.storeRoot hash h root).1.drain hash h).1.Within P :=
      drain_invariant _ hash h (motive := (Within · P))
        (fun w next rest htodo _ hw => hw.advance hP htodo) hstored
    have hend := hdrain.of_eq (copied_terminate _ (w.storeRoot hash h root).2)
      (todo_terminate _ _)
    rw [hcompact]
    exact hend.commit
  · rw [hcompact] at hok
    cases hok

end Calls

section Runs
variable {w : Writer} {hash : ContentHash} {P : Nat → Prop}

theorem Within.calls (hw : w.Within P) (hrest : w.AtRest) {calls : List (Heap × Value)}
    (hP : ∀ call ∈ calls, ∀ id, P id → ∀ child ∈ call.1.objectChildren id, P child)
    (hroots : ∀ id, .object id ∈ (w.accepted hash calls).map Prod.fst → P id) :
    (w.calls hash calls).1.Within P := by
  induction calls generalizing w with
  | nil => exact hw
  | cons call rest ih =>
    obtain ⟨h, root⟩ := call
    obtain ⟨hfirst, hlater⟩ := List.forall_mem_cons.mp hP
    have hnext := hrest.compact hash h root
    cases hresult : (w.compact hash h root).2 with
    | ok u =>
      rw [accepted_cons_of_ok hresult, List.map_cons] at hroots
      refine ih (hw.compact hfirst ?_ hresult) hnext hlater ?_
      · rintro id rfl
        exact hroots id List.mem_cons_self
      · intro id hid
        exact hroots id (List.mem_cons_of_mem _ hid)
    | error e =>
      rw [accepted_cons_of_error hresult] at hroots
      obtain ⟨capacity, hcapacity⟩ := hrest.compact_of_error hresult
      refine ih ?_ hnext hlater hroots
      rw [hcapacity]
      exact hw.of_eq rfl rfl

variable {orig : Nat → Object Value} {layout : List Entry} {f : Nat → Nat} {roots : List Value}

theorem Holding.calls_accepted (hw : Holding w hash orig roots layout f) (hrest : w.AtRest)
    {calls : List (Heap × Value)}
    (hcalls : ∀ call ∈ calls, call.1.Shows orig ∧ call.2.In call.1) :
    ∃ layout' g, Holding (w.calls hash calls).1 hash orig
      (roots ++ (w.accepted hash calls).map Prod.fst) layout' g := by
  induction calls generalizing w roots layout f with
  | nil =>
    refine ⟨layout, f, ?_⟩
    rw [accepted, List.map_nil, List.append_nil]
    exact hw
  | cons call rest ih =>
    obtain ⟨h, root⟩ := call
    obtain ⟨⟨hh, hroot⟩, hlater⟩ := List.forall_mem_cons.mp hcalls
    have hnext := hrest.compact hash h root
    cases hresult : (w.compact hash h root).2 with
    | ok u =>
      obtain ⟨_, f₁, _, hcompact⟩ := hw.compact (hh.supplies _) hroot hresult
      obtain ⟨layout₂, f₂, hdone⟩ := ih hcompact hnext hlater
      refine ⟨layout₂, f₂, ?_⟩
      rw [accepted_cons_of_ok hresult, List.map_cons]
      rwa [List.append_assoc] at hdone
    | error e =>
      rw [accepted_cons_of_error hresult]
      exact ih (hw.compact_of_error hrest hresult) hnext hlater

end Runs

section Coverage
variable {c : WriterConfig} {w : Writer} {h : Heap} {calls : List (Heap × Value)}

/-- The objects copied are those that are reached from the accepted roots. -/
theorem exists_holding_of_calls (hcreate : create? c = .ok w) (hash : ContentHash)
    (hh : h.WellFormed)
    (hcalls : ∀ call ∈ calls, call.1.Closed ∧ h.GrownFrom call.1 ∧ call.2.In call.1) :
    ∃ layout f, Holding (w.calls hash calls).1 hash h.object
        ((w.accepted hash calls).map Prod.fst) layout f ∧
      ∀ id : Nat, (∃ word, (w.calls hash calls).1.copied[id]? = some word) ↔
        h.Reaches ((w.accepted hash calls).map Prod.fst) id := by
  have hrest := atRest_of_create? hcreate
  have hw := holding_of_create? hcreate hash h.object
  have hshows : ∀ call ∈ calls, call.1.Shows h.object ∧ call.2.In call.1 := by
    intro call hcall
    obtain ⟨hclosed, hgrown, hin⟩ := hcalls call hcall
    exact ⟨hgrown.shows hh hclosed, hin⟩
  obtain ⟨layout, f, hdone⟩ := hw.calls_accepted hrest hshows
  rw [List.nil_append] at hdone
  refine ⟨layout, f, hdone, fun id => ⟨fun ⟨word, hc⟩ => ?_, fun hr => ?_⟩⟩
  · have hnone : w.Within (h.Reaches ((w.accepted hash calls).map Prod.fst)) := by
      refine ⟨fun id word hc => ?_, ?_⟩
      · cases (hw.laid.copied_of_nil id).symm.trans hc
      · rw [hw.todo]
        exact nofun
    refine (hnone.calls hrest ?_ fun id => .root).copied id word hc
    intro call hcall id hid child hchild
    exact hid.child ((hcalls call hcall).2.1.mem_objectChildren hchild)
  · obtain ⟨off, hc, _⟩ := hdone.copiedAt_of_reaches hr
    exact ⟨_, hc⟩

end Coverage
end Writer
end HeapImage
