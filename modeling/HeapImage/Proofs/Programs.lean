import HeapImage.Proofs.Heap.Leaves
import HeapImage.Proofs.Snapshots
import HeapImage.Proofs.Writer.Coverage

/-!
# Programs that write

What a writer has copied was an object of the heap at the time, and the heap goes on. A relation
that the updates of a heap keep holds in the end between each copied object as it was and as it is.
-/

namespace HeapImage
set_option autoImplicit false

/-- Objects are related to what they were, whatever the heap goes through. -/
structure Heap.Kept (R : Object Value → Object Value → Prop) : Prop where
  refl : ∀ o, R o o
  update : ∀ (h : Heap) (u : Heap.Update) (o : Object Value) (id : Nat), id < h.size →
    R o (h.object id) → R o ((h.update u).object id)

theorem Heap.kept_kind : Heap.Kept fun o o' => o.kind = o'.kind where
  refl _ := rfl
  update _ u _ _ hid hkind := hkind.trans (Heap.kind_update hid u).symm

theorem Heap.kept_leaf : Heap.Kept fun o o' => o'.isLeaf = true → o = o' where
  refl _ _ := rfl
  update h u o id hid hsame hleaf := by
    rw [Heap.isLeaf_update hid] at hleaf
    exact (hsame hleaf).trans (Heap.object_update_of_isLeaf hid hleaf u).symm

namespace Writer

/-- What is copied is of the heap, and related to what it was when it was copied. -/
def Relates (R : Object Value → Object Value → Prop) (s : Heap × Writer)
    (orig : Nat → Object Value) : Prop :=
  ∀ id word : Nat, s.2.copied[id]? = some word → id < s.1.size ∧ R (orig id) (s.1.object id)

section Keeping
variable {hash : ContentHash} {h : Heap} {w : Writer} {orig : Nat → Object Value} {root : Value}
variable {R : Object Value → Object Value → Prop}

theorem Relates.update (hk : Relates R (h, w) orig) (hR : Heap.Kept R) (u : Heap.Update) :
    Relates R (h.update u, w) orig := by
  intro id word hc
  obtain ⟨hid, hrelated⟩ := hk id word hc
  exact ⟨hid.trans_le (h.size_le_update u), hR.update h u _ id hid hrelated⟩

theorem lt_size_of_compact (hrest : w.AtRest) (hh : h.WellFormed) (hroot : root.In h)
    (hold : ∀ id word : Nat, w.copied[id]? = some word → id < h.size) {id word : Nat}
    (hc : (w.compact hash h root).1.copied[id]? = some word) : id < h.size := by
  cases hresult : (w.compact hash h root).2 with
  | error e =>
    obtain ⟨capacity, hcapacity⟩ := hrest.compact_of_error hresult
    rw [hcapacity] at hc
    exact hold id word hc
  | ok =>
    have hwithin : w.Within (· < h.size) := by
      refine ⟨hold, ?_⟩
      rw [hrest.todo]
      nofun
    have hroot' : ∀ id, root = .object id → id < h.size := by
      rintro id rfl
      exact hroot
    exact (hwithin.compact (fun id hid => hh.closed id hid) hroot' hresult).copied id word hc

theorem Relates.compact (hk : Relates R (h, w) orig) (hR : Heap.Kept R) (hrest : w.AtRest)
    (hh : h.WellFormed) (hroot : root.In h) :
    Relates R (h, (w.compact hash h root).1) (w.view orig h) := by
  intro id word hc
  refine ⟨lt_size_of_compact hrest hh hroot (fun id word hc => (hk id word hc).1) hc, ?_⟩
  cases hold : w.copied[id]? with
  | some stored =>
    rw [view_of_copied hold]
    exact (hk id stored hold).2
  | none =>
    rw [view_of_new hold]
    exact hR.refl _

theorem Relates.runAll {s : Heap × Writer} {actions : List Action} (hk : Relates R s orig)
    (hR : Heap.Kept R) (hrest : s.2.AtRest) (hh : s.1.WellFormed)
    (hactions : Action.AllFit hash s actions) :
    Relates R (Action.runAll hash s actions)
      (s.2.originals hash orig (Action.calls hash s actions)) := by
  induction actions generalizing s orig with
  | nil => exact hk
  | cons action rest ih =>
    obtain ⟨hfits, hlater⟩ := hactions
    cases action with
    | update u => exact ih (hk.update hR u) hrest (hh.update hfits) hlater
    | compact root =>
      exact ih (hk.compact hR hrest hh hfits) (hrest.compact hash s.1 root) hh hlater

end Keeping

end Writer

section Programs
variable {c : WriterConfig} {w w' : Writer} {h h' : Heap} {hash : ContentHash}
variable {actions : List Action}

theorem Action.writer_of_runAll (hrun : Action.runAll hash (h, w) actions = (h', w')) :
    (w.calls hash (Action.calls hash (h, w) actions)).1 = w' :=
  Action.runAll_snd.symm.trans (congrArg Prod.snd hrun)

/-- After any actions a writer holds a layout of objects as they were when they were copied, and
these are related to the objects of the heap by then. -/
theorem exists_laid_runAll (hcreate : Writer.create? c = .ok w) (hh : h.WellFormed)
    (hactions : Action.AllFit hash (h, w) actions)
    (hrun : Action.runAll hash (h, w) actions = (h', w')) :
    ∃ orig layout f, w'.Laid hash orig layout f [] ∧
      (∀ R, Heap.Kept R → Writer.Relates R (h', w') orig) ∧
      ∀ id, .object id ∈ (w.accepted hash (Action.calls hash (h, w) actions)).map Prod.fst →
        ∃ word, w'.copied[id]? = some word := by
  have hrest := Writer.atRest_of_create? hcreate
  have hstart := Writer.holding_of_create? hcreate hash fun _ => .array #[]
  obtain ⟨layout, f, hw, _⟩ := hstart.history hrest (Action.wellFormed_of_mem_calls hh hactions)
  rw [Action.writer_of_runAll hrun, List.nil_append] at hw
  refine ⟨_, _, f, hw.laid, fun R hR => ?_, ?_⟩
  · have hnone : Writer.Relates R (h, w) fun _ => .array #[] := by
      intro id word hc
      cases (hstart.laid.copied_of_nil id).symm.trans hc
    have hrelates := hnone.runAll hR hrest hh hactions
    rwa [hrun] at hrelates
  · intro id hroot
    obtain ⟨off, hat⟩ := hw.copiedAt_of_root hroot
    exact ⟨_, hat.1⟩

/-- What a program was given when it has created its writer stays. -/
theorem settings_runAll (hcreate : Writer.create? c = .ok w)
    (hrun : Action.runAll hash (h, w) actions = (h', w')) :
    w'.base = c.base ∧ w'.sharing = c.sharing := by
  have hgrown := (Writer.atRest_of_create? hcreate).grownFrom_calls hash
    (Action.calls hash (h, w) actions)
  rw [Action.writer_of_runAll hrun] at hgrown
  exact ⟨hgrown.base.trans (Writer.base_of_create? hcreate),
    hgrown.sharing.trans (Writer.sharing_of_create? hcreate)⟩

end Programs
end HeapImage
