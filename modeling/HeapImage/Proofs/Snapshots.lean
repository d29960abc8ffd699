import HeapImage.Proofs.Heap.Made
import HeapImage.Proofs.RoundTrip
import HeapImage.Proofs.Writer.History

/-!
# Snapshots

A program changes its heap and writes roots by turns. What has been written stays as it was: the
image only grows, and in the end every object is read as it was when a call that succeeded met it
first. Calls that fail leave no trace in this.
-/

namespace HeapImage
set_option autoImplicit false

/-- One step of a program that writes roots of its heap. -/
inductive Action where
  | update (u : Heap.Update)
  | compact (root : Value)

namespace Action

def Fits (h : Heap) : Action → Prop
  | update u => u.Fits h
  | compact root => root.In h

def run (hash : ContentHash) (s : Heap × Writer) : Action → Heap × Writer
  | update u => (s.1.update u, s.2)
  | compact root => (s.1, (s.2.compact hash s.1 root).1)

def runAll (hash : ContentHash) (s : Heap × Writer) (actions : List Action) : Heap × Writer :=
  actions.foldl (run hash) s

/-- Each action is given values of the heap as it is by then. -/
def AllFit (hash : ContentHash) (s : Heap × Writer) : List Action → Prop
  | [] => True
  | action :: rest => action.Fits s.1 ∧ AllFit hash (action.run hash s) rest

/-- The calls of the writer, each with the heap as it is by then. -/
def calls (hash : ContentHash) (s : Heap × Writer) : List Action → List (Heap × Value)
  | [] => []
  | update u :: rest => calls hash ((update u).run hash s) rest
  | compact root :: rest => (s.1, root) :: calls hash ((compact root).run hash s) rest

section Runs
variable {hash : ContentHash} {s : Heap × Writer} {actions earlier later : List Action}

theorem runAll_snd : (runAll hash s actions).2 = (s.2.calls hash (calls hash s actions)).1 := by
  induction actions generalizing s with
  | nil => rfl
  | cons action rest ih =>
    rw [runAll, List.foldl_cons]
    apply Eq.trans ih
    cases action <;> rfl

theorem runAll_append :
    runAll hash s (earlier ++ later) = runAll hash (runAll hash s earlier) later :=
  List.foldl_append

theorem calls_append : calls hash s (earlier ++ later) =
    calls hash s earlier ++ calls hash (runAll hash s earlier) later := by
  induction earlier generalizing s with
  | nil => rfl
  | cons action rest ih =>
    cases action with
    | update u => exact ih
    | compact root => exact congrArg (_ :: ·) ih

theorem wellFormed_of_mem_calls (hs : s.1.WellFormed) (hactions : AllFit hash s actions) :
    ∀ call ∈ calls hash s actions, call.1.WellFormed ∧ call.2.In call.1 := by
  induction actions generalizing s with
  | nil => nofun
  | cons action rest ih =>
    obtain ⟨hfits, hrest⟩ := hactions
    cases action with
    | update u => exact ih (hs.update hfits) hrest
    | compact root => exact List.forall_mem_cons.mpr ⟨⟨hs, hfits⟩, ih hs hrest⟩

end Runs

end Action

namespace Writer

/-- The map takes what was copied to the object that the reader takes its stored reference for. -/
def Decodes (w : Writer) (first : Nat) (m : Nat → Nat) : Prop :=
  ∃ records, IsImage w.data w.base.toNat records ∧ ∀ id word : Nat, w.copied[id]? = some word →
    wordValue w.base.toNat first records word = .object (m id)

section Decoding
variable {w : Writer} {hash : ContentHash} {orig : Nat → Object Value} {layout : List Entry}
variable {f : Nat → Nat} {roots : List Value}

theorem Holding.decodes (hw : Holding w hash orig roots layout f) (hne : roots ≠ [])
    (first : Nat) : w.Decodes first (w.loadedId layout first) := by
  refine ⟨_, hw.isImage hne, fun id word hc => ?_⟩
  obtain ⟨off, owner, rfl, hmem, _⟩ := hw.laid.copied id word hc
  rw [wordValue_offset hw.laid.base_mod hmem, loadedId_eq layout first hc]

end Decoding

end Writer

/-- An object is copied by this call; it was not copied before. -/
def Writer.Copies (w : Writer) (hash : ContentHash) (h : Heap) (root : Value) (id : Nat) : Prop :=
  w.copied[id]? = none ∧ ∃ word, (w.compact hash h root).1.copied[id]? = some word

namespace Writer
variable {w : Writer} {hash : ContentHash} {h : Heap} {root : Value} {id word : Nat}
variable {earlier later calls : List (Heap × Value)}

theorem Copies.eq_ok (hrest : w.AtRest) (hcopies : w.Copies hash h root id) :
    (w.compact hash h root).2 = .ok () := by
  obtain ⟨hnew, word, hc⟩ := hcopies
  cases hresult : (w.compact hash h root).2 with
  | ok => rfl
  | error e =>
    obtain ⟨capacity, hcapacity⟩ := hrest.compact_of_error hresult
    rw [hcapacity] at hc
    exact nomatch hnew.symm.trans hc

/-- What is copied in the end was copied by one of the calls. -/
theorem exists_copies (hnew : w.copied[id]? = none)
    (hc : (w.calls hash calls).1.copied[id]? = some word) :
    ∃ earlier h root later, calls = earlier ++ (h, root) :: later ∧
      (w.calls hash earlier).1.Copies hash h root id := by
  induction calls generalizing w with
  | nil => exact nomatch hnew.symm.trans hc
  | cons call rest ih =>
    obtain ⟨h, root⟩ := call
    cases hnext : (w.compact hash h root).1.copied[id]? with
    | some stored => exact ⟨[], h, root, rest, rfl, hnew, stored, hnext⟩
    | none =>
      obtain ⟨earlier, h', root', later, rfl, hcopies⟩ := ih hnext hc
      exact ⟨(h, root) :: earlier, h', root', later, rfl, hcopies⟩

theorem originals_of_copies (hrest : w.AtRest) (orig : Nat → Object Value)
    (hcopies : (w.calls hash earlier).1.Copies hash h root id) :
    w.originals hash orig (earlier ++ (h, root) :: later) id = h.object id := by
  obtain ⟨hnew, word, hc⟩ := hcopies
  apply originals_of_new hrest hnew
  rw [calls_append]
  exact hc

end Writer

section Snapshots
variable {c : WriterConfig} {w : Writer} {h : Heap} {actions : List Action}

/-- What has been written by one time is a beginning of what has been written later, and the stored
references are still the same. -/
theorem grownFrom_runAll (hcreate : Writer.create? c = .ok w) (hash : ContentHash) (h : Heap)
    (earlier later : List Action) :
    (Action.runAll hash (h, w) (earlier ++ later)).2.GrownFrom
      (Action.runAll hash (h, w) earlier).2 := by
  have hrest := Writer.atRest_of_create? hcreate
  rw [Action.runAll_snd, Action.runAll_snd, Action.calls_append]
  exact hrest.grownFrom_calls_append hash _ _

/-- The object that counts is the one that was there when the copying call was made. -/
theorem originals_of_copies (hcreate : Writer.create? c = .ok w) {hash : ContentHash}
    (orig : Nat → Object Value) {earlier later : List Action} {root : Value} {id : Nat}
    {s : Heap × Writer} (hs : s = Action.runAll hash (h, w) earlier)
    (hcopies : s.2.Copies hash s.1 root id) :
    w.originals hash orig (Action.calls hash (h, w) (earlier ++ .compact root :: later)) id =
      s.1.object id := by
  have hwriter : s.2 = (w.calls hash (Action.calls hash (h, w) earlier)).1 :=
    hs ▸ Action.runAll_snd
  rw [Action.calls_append, ← hs, Action.calls]
  rw [hwriter] at hcopies
  exact Writer.originals_of_copies (Writer.atRest_of_create? hcreate) orig hcopies

/-- Whatever a program does, its image only grows, and in the end every object is read as it was
in the heap at the call that copied it. -/
theorem snapshot {ε : Type} (hcreate : Writer.create? c = .ok w) (hash : ContentHash)
    (hh : h.WellFormed) (hactions : Action.AllFit hash (h, w) actions) :
    (∀ earlier middle later, actions = earlier ++ middle ++ later →
      (Action.runAll hash (h, w) (earlier ++ middle)).2.GrownFrom
        (Action.runAll hash (h, w) earlier).2) ∧
    ((Action.runAll hash (h, w) actions).2.stats.roots ≠ 0 → ∀ (target : Heap) (release : ε),
      ∃ h' region m,
        Region.ofWriter target (Action.runAll hash (h, w) actions).2 release =
          (.ok (h', region), []) ∧
        (Action.runAll hash (h, w) actions).2.Decodes target.size m ∧
        ∀ earlier root later, actions = earlier ++ .compact root :: later →
          ∀ s, s = Action.runAll hash (h, w) earlier → ∀ id, s.2.Copies hash s.1 root id →
            h'.object (m id) = (s.1.object id).map (Value.mapId m) ∧
            h'.isCompacted (.object (m id)) = true ∧
            ∀ child ∈ s.1.objectChildren id,
              (Action.runAll hash (h, w) actions).2.copied.contains child = true) := by
  refine ⟨fun earlier middle _ _ => grownFrom_runAll hcreate hash h earlier middle, ?_⟩
  intro hsome target release
  have hcalls := Action.wellFormed_of_mem_calls hh hactions
  obtain ⟨layout, f, hw, _⟩ := (Writer.holding_of_create? hcreate hash fun _ => .array #[]).history
    (Writer.atRest_of_create? hcreate) hcalls
  have hrun : (w.calls hash (Action.calls hash (h, w) actions)).1 =
      (Action.runAll hash (h, w) actions).2 := (Action.runAll_snd (s := (h, w))).symm
  rw [hrun, List.nil_append] at hw
  have hne : (w.accepted hash (Action.calls hash (h, w) actions)).map Prod.fst ≠ [] := by
    intro hnil
    apply hsome
    rw [hw.laid.roots, hw.roots_eq, hnil]
    rfl
  obtain ⟨g, region, hg, hload, _⟩ := hw.exists_load hne target release
  refine ⟨_, region, _, hload, hw.decodes hne target.size, ?_⟩
  intro earlier root later hsplit s hs id hcopies
  have horig : w.originals hash (fun _ => .array #[])
      (Action.calls hash (h, w) (earlier ++ .compact root :: later)) id = s.1.object id :=
    originals_of_copies hcreate (fun _ => .array #[]) hs hcopies
  rw [← hsplit] at horig
  obtain ⟨_, word, hc⟩ := hcopies
  have hgrown := grownFrom_runAll hcreate hash h (earlier ++ [.compact root]) later
  rw [← List.append_cons, ← hsplit, Action.runAll_append, ← hs] at hgrown
  have hcopied := hgrown.copied id word hc
  obtain ⟨off, hat⟩ := hw.copiedAt hcopied
  have hentry := (hw.entry_loadedId hne hg hat).2
  rw [horig] at hentry
  refine ⟨?_, ?_, ?_⟩
  · rw [Heap.object, hentry]
  · rw [Heap.isCompacted, hentry]
  · intro child hchild
    rw [Heap.mem_objectChildren, ← horig] at hchild
    obtain ⟨_, hchild, _⟩ := hw.copiedAt_of_child hat hchild
    rw [Std.ExtTreeMap.contains_eq_isSome_getElem?, hchild]
    rfl

end Snapshots

def cellHeap : Heap :=
  ⟨#[⟨.array #[.object 1, .object 2], false⟩, ⟨.promise none, false⟩,
    ⟨.mutableRef (.scalar ⟨0, by decide⟩), false⟩]⟩

/-- The array fails first, since its promise is not resolved by then. -/
def cellActions : List Action :=
  [.compact (.object 0), .update (.resolvePromise (.object 1) (.object 2)), .compact (.object 0),
    .update (.setRef (.object 2) (.scalar ⟨1, by decide⟩))]

theorem wellFormed_cellHeap : cellHeap.WellFormed := by
  have hsize : cellHeap.size = 3 := rfl
  refine ⟨fun id hid => ?_, fun id hid => ?_⟩
  · have hcases : id = 0 ∨ id = 1 ∨ id = 2 := by omega
    rcases hcases with rfl | rfl | rfl <;> trivial
  · revert id
    decide

theorem allFit_cellActions :
    Action.AllFit fingerprint (cellHeap, Writer.start {}) cellActions :=
  ⟨show 0 < cellHeap.size by decide, show 2 < cellHeap.size by decide,
    show 0 < (cellHeap.update (.resolvePromise (.object 1) (.object 2))).size by decide,
    trivial, trivial⟩

/-- In the image the promise is resolved, and the reference is as it was then. -/
theorem cell_snapshot : ∃ h' region, ∃ m : Nat → Nat,
    Region.ofWriter .empty
        (Action.runAll fingerprint (cellHeap, Writer.start {}) cellActions).2 () =
      (.ok (h', region), []) ∧
    h'.object (m 1) = .promise (some (.object (m 2))) ∧
    h'.object (m 2) = .mutableRef (.scalar ⟨0, by decide⟩) := by
  obtain ⟨_, hread⟩ := snapshot (c := {}) rfl fingerprint wellFormed_cellHeap allFit_cellActions
  obtain ⟨h', region, m, hload, _, hobjects⟩ := hread (by cbv) .empty ()
  have hcall := hobjects (cellActions.take 2) (.object 0) (cellActions.drop 3) rfl _ rfl
  exact ⟨h', region, m, hload, (hcall 1 ⟨by cbv, _, by cbv⟩).1, (hcall 2 ⟨by cbv, _, by cbv⟩).1⟩

end HeapImage
