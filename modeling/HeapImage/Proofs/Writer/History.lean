import HeapImage.Proofs.Writer.Traversal
import HeapImage.Proofs.Writer.Undo

/-!
# The history of a writer

A writer only grows. What its image is made of after any number of calls is known from these: the
roots of those calls that succeeded, each behind what it needed, and every object as it was when a
call that succeeded met it first. The heap may have changed between the calls.
-/

namespace HeapImage
set_option autoImplicit false

namespace Writer

/-- The calls from `w₀` to `w` have added to the image only: the bytes and the stored references
that were there are there still. -/
structure GrownFrom (w w₀ : Writer) : Prop where
  base : w.base = w₀.base
  sharing : w.sharing = w₀.sharing
  data : w₀.data.toList <+: w.data.toList
  copied : ∀ id word : Nat, w₀.copied[id]? = some word → w.copied[id]? = some word

namespace GrownFrom
variable {w w₁ w₂ : Writer}

theorem refl (w : Writer) : w.GrownFrom w := ⟨rfl, rfl, List.prefix_rfl, fun _ _ h => h⟩

theorem trans (h₂ : w₂.GrownFrom w₁) (h₁ : w₁.GrownFrom w) : w₂.GrownFrom w where
  base := h₂.base.trans h₁.base
  sharing := h₂.sharing.trans h₁.sharing
  data := h₁.data.trans h₂.data
  copied := fun id word hc => h₂.copied id word (h₁.copied id word hc)

theorem data_eq_extract (hg : w₁.GrownFrom w) : w.data = w₁.data.extract 0 w.size := by
  apply Array.toList_inj.mp
  rw [Array.toList_extract, List.extract_eq_take_drop, List.drop_zero]
  exact List.prefix_iff_eq_take.mp hg.data

end GrownFrom

section Growth
variable {w : Writer} {hash : ContentHash} {h : Heap} {root : Value}

theorem getElem?_copied_storeRoot {id word : Nat} (hc : w.copied[id]? = some word) :
    (w.storeRoot hash h root).1.copied[id]? = some word := by
  cases root with
  | scalar payload => exact hc
  | object other => exact getElem?_copied_store hc

theorem truncate_terminate {n : Nat} (hn : n ≤ w.size) (word : Nat) :
    ((w.terminate word).buffer.truncate n).bytes = (w.buffer.truncate n).bytes := by
  have hlast : n ≤ w.size + 8 := Nat.le_add_right_of_le hn
  have hfirst : n ≤ w.size + 4 := Nat.le_add_right_of_le hn
  rw [terminate, Buffer.putTerminator, Buffer.truncate_putWord _ hlast,
    Buffer.truncate_putHalf _ hfirst]
  exact Buffer.bytes_truncate_reserve_le _ hn terminatorSize

theorem Undoable.data_isPrefix {w₀ : Writer} (hu : Undoable w₀ w) (word : Nat) :
    w₀.data.toList <+: (w.terminate word).data.toList := by
  have htruncate := (truncate_terminate hu.size_le word).trans hu.bytes
  generalize w.terminate word = v at htruncate ⊢
  rw [Buffer.truncate, Array.shrink_eq_take, Array.take_eq_extract] at htruncate
  rw [data, data, ← htruncate, Array.toList_extract, List.extract_eq_take_drop, List.drop_zero]
  exact List.take_prefix _ _

theorem GrownFrom.commit {w₀ : Writer} (hg : w.GrownFrom w₀) : w.commit.GrownFrom w₀ :=
  ⟨hg.base, hg.sharing, hg.data, hg.copied⟩

theorem Undoable.grownFrom_terminate {w₀ : Writer} (hu : Undoable w₀ w) (word : Nat)
    (hcopied : ∀ id stored : Nat, w₀.copied[id]? = some stored → w.copied[id]? = some stored) :
    (w.terminate word).GrownFrom w₀ := by
  have hdata := hu.data_isPrefix word
  rw [terminate] at hdata ⊢
  generalize Buffer.putTerminator (w.buffer.reserve terminatorSize) w.size word = b at hdata ⊢
  exact ⟨hu.base, hu.sharing, hdata, hcopied⟩

theorem AtRest.compact_of_error (hw : w.AtRest) {e : Obstacle}
    (he : (w.compact hash h root).2 = .error e) :
    ∃ capacity, (w.compact hash h root).1 = w.withCapacity capacity :=
  compact_eq_error hw (Prod.ext rfl he)

theorem AtRest.grownFrom_compact (hw : w.AtRest) (hash : ContentHash) (h : Heap) (root : Value) :
    (w.compact hash h root).1.GrownFrom w := by
  rcases compact_cases w hash h root with ⟨v, hv, hcompact⟩ | ⟨v, e, _, hcompact⟩
  · obtain ⟨_, _, _, rfl⟩ := writeRoot_eq_none hv
    have hu : Undoable w ((w.storeRoot hash h root).1.drain hash h).1 :=
      ((Undoable.refl hw).storeRoot root).drain
    rw [hcompact]
    apply (hu.grownFrom_terminate _ _).commit
    intro id stored hc
    exact getElem?_copied_drain _ hash h (getElem?_copied_storeRoot hc)
  · obtain ⟨capacity, hcapacity⟩ := compact_eq_error hw hcompact
    rw [hcompact, hcapacity]
    exact ⟨rfl, rfl, List.prefix_rfl, fun _ _ hc => hc⟩

/-- The image of a writer is append-only, and a stored reference stays, whatever happens. -/
theorem AtRest.grownFrom_calls (hw : w.AtRest) (hash : ContentHash) (calls : List (Heap × Value)) :
    (w.calls hash calls).1.GrownFrom w := by
  induction calls generalizing w with
  | nil => exact .refl w
  | cons call rest ih =>
    obtain ⟨h, root⟩ := call
    exact (ih (hw.compact hash h root)).trans (hw.grownFrom_compact hash h root)

theorem AtRest.calls (hw : w.AtRest) (hash : ContentHash) (calls : List (Heap × Value)) :
    (w.calls hash calls).1.AtRest := by
  induction calls generalizing w with
  | nil => exact hw
  | cons call rest ih => exact ih (hw.compact hash call.1 call.2)

theorem calls_append (w : Writer) (hash : ContentHash) (earlier later : List (Heap × Value)) :
    w.calls hash (earlier ++ later) =
      (((w.calls hash earlier).1.calls hash later).1,
        (w.calls hash earlier).2 ++ ((w.calls hash earlier).1.calls hash later).2) := by
  induction earlier generalizing w with
  | nil => rfl
  | cons call rest ih =>
    obtain ⟨h, root⟩ := call
    rw [List.cons_append, Writer.calls, ih]
    rfl

theorem AtRest.grownFrom_calls_append (hw : w.AtRest) (hash : ContentHash)
    (earlier later : List (Heap × Value)) :
    (w.calls hash (earlier ++ later)).1.GrownFrom (w.calls hash earlier).1 := by
  rw [calls_append]
  exact (hw.calls hash earlier).grownFrom_calls hash later

end Growth

/-- The roots of the calls that succeed, each with the size of the image right after its call. -/
def accepted (w : Writer) (hash : ContentHash) : List (Heap × Value) → List (Value × Nat)
  | [] => []
  | (h, root) :: rest =>
    let next := w.compact hash h root
    match next.2 with
    | .ok () => (root, next.1.size) :: next.1.accepted hash rest
    | .error _ => next.1.accepted hash rest

/-- The objects as a call takes them: those that were copied before as they were then, and the
others as they are in the heap. -/
def view (w : Writer) (orig : Nat → Object Value) (h : Heap) (id : Nat) : Object Value :=
  if w.copied.contains id then orig id else h.object id

/-- What each object was when it was copied; of those that were copied before, `orig` says it. -/
def originals (w : Writer) (hash : ContentHash) (orig : Nat → Object Value) :
    List (Heap × Value) → Nat → Object Value
  | [] => orig
  | (h, root) :: rest => (w.compact hash h root).1.originals hash (w.view orig h) rest

section Views
variable {w : Writer} {orig : Nat → Object Value} {h : Heap} {id word : Nat}

theorem view_of_copied (hc : w.copied[id]? = some word) : w.view orig h id = orig id := by
  rw [view, if_pos]
  rw [Std.ExtTreeMap.contains_eq_isSome_getElem?, hc]
  rfl

theorem view_of_new (hc : w.copied[id]? = none) : w.view orig h id = h.object id := by
  rw [view, if_neg]
  rw [Std.ExtTreeMap.contains_eq_isSome_getElem?, hc]
  nofun

theorem supplies_view (hh : h.WellFormed) (w : Writer) (orig : Nat → Object Value) :
    h.Supplies w.copied (w.view orig h) :=
  ⟨hh, fun _ _ hnew => (view_of_new hnew).symm⟩

end Views

section Records
variable {w : Writer} {hash : ContentHash} {h : Heap} {root : Value} {orig : Nat → Object Value}
variable {rest earlier later : List (Heap × Value)}

theorem accepted_cons_of_ok (hok : (w.compact hash h root).2 = .ok ()) :
    w.accepted hash ((h, root) :: rest) = (root, (w.compact hash h root).1.size) ::
      (w.compact hash h root).1.accepted hash rest := by
  rw [accepted, hok]

theorem accepted_cons_of_error {e : Obstacle} (he : (w.compact hash h root).2 = .error e) :
    w.accepted hash ((h, root) :: rest) = (w.compact hash h root).1.accepted hash rest := by
  rw [accepted, he]

theorem accepted_ne_nil_iff {calls : List (Heap × Value)} :
    w.accepted hash calls ≠ [] ↔ .ok () ∈ (w.calls hash calls).2 := by
  induction calls generalizing w with
  | nil => simp [accepted, Writer.calls]
  | cons call rest ih =>
    obtain ⟨h, root⟩ := call
    rw [Writer.calls, List.mem_cons]
    cases hresult : (w.compact hash h root).2 with
    | ok => simp [accepted_cons_of_ok hresult]
    | error e =>
      rw [accepted_cons_of_error hresult, ih]
      simp

theorem exists_of_getElem?_accepted {calls : List (Heap × Value)} {k size : Nat}
    (hk : (w.accepted hash calls)[k]? = some (root, size)) :
    ∃ earlier h later, calls = earlier ++ (h, root) :: later ∧
      (w.accepted hash (earlier ++ [(h, root)])).length = k + 1 ∧
      (w.calls hash (earlier ++ [(h, root)])).1.size = size := by
  induction calls generalizing w k with
  | nil => cases hk
  | cons call rest ih =>
    obtain ⟨h, first⟩ := call
    cases hresult : (w.compact hash h first).2 with
    | error e =>
      rw [accepted_cons_of_error hresult] at hk
      obtain ⟨earlier, h', later, rfl, hlength, hsize⟩ := ih hk
      refine ⟨(h, first) :: earlier, h', later, rfl, ?_, hsize⟩
      rw [List.cons_append, accepted_cons_of_error hresult]
      exact hlength
    | ok =>
      rw [accepted_cons_of_ok hresult] at hk
      cases k with
      | zero =>
        obtain ⟨rfl, rfl⟩ := Prod.mk.inj (Option.some.inj hk)
        refine ⟨[], h, rest, rfl, ?_, rfl⟩
        rw [List.nil_append, accepted_cons_of_ok hresult]
        rfl
      | succ k =>
        obtain ⟨earlier, h', later, rfl, hlength, hsize⟩ := ih hk
        refine ⟨(h, first) :: earlier, h', later, rfl, ?_, hsize⟩
        rw [List.cons_append, accepted_cons_of_ok hresult, List.length_cons, hlength]

theorem le_size_of_mem_accepted (hw : w.AtRest) {calls : List (Heap × Value)} {last : Nat}
    (hmem : (root, last) ∈ w.accepted hash calls) : last ≤ (w.calls hash calls).1.size := by
  obtain ⟨k, hk⟩ := List.mem_iff_getElem?.mp hmem
  obtain ⟨earlier, h, later, rfl, _, rfl⟩ := exists_of_getElem?_accepted hk
  have hgrown := hw.grownFrom_calls_append hash (earlier ++ [(h, root)]) later
  rw [← List.append_cons] at hgrown
  exact hgrown.data.length_le

theorem originals_append : w.originals hash orig (earlier ++ later) =
    (w.calls hash earlier).1.originals hash (w.originals hash orig earlier) later := by
  induction earlier generalizing w orig with
  | nil => rfl
  | cons call rest ih =>
    rw [List.cons_append, originals, ih]
    rfl

/-- Later calls do not matter to what was copied before. -/
theorem originals_of_copied (hw : w.AtRest) (calls : List (Heap × Value)) {id word : Nat}
    (hc : w.copied[id]? = some word) : w.originals hash orig calls id = orig id := by
  induction calls generalizing w orig with
  | nil => rfl
  | cons call rest ih =>
    obtain ⟨h, root⟩ := call
    have hnext := (hw.grownFrom_compact hash h root).copied id word hc
    rw [originals, ih (hw.compact hash h root) hnext, view_of_copied hc]

/-- What counts is the object that the first call to copy it has met. -/
theorem originals_of_new (hw : w.AtRest) {id word : Nat}
    (hnew : (w.calls hash earlier).1.copied[id]? = none)
    (hc : (w.calls hash (earlier ++ [(h, root)])).1.copied[id]? = some word) :
    w.originals hash orig (earlier ++ (h, root) :: later) id = h.object id := by
  rw [calls_append] at hc
  have hrest := (hw.calls hash earlier).compact hash h root
  rw [originals_append, originals, originals_of_copied hrest later hc, view_of_new hnew]

end Records

end Writer

/-- Where the roots of a layout end. -/
def endsFrom (pos : Nat) (layout : List Entry) : List Nat :=
  (placed pos layout).filterMap fun p =>
    match p.2 with
    | .object .. => none
    | .terminator _ => some (p.1 + terminatorSize)

section Ends
variable {pos : Nat} {layout rest : List Entry}

theorem endsFrom_append : endsFrom pos (layout ++ rest) =
    endsFrom pos layout ++ endsFrom (pos + totalSize layout) rest := by
  rw [endsFrom, placed_append, List.filterMap_append]
  rfl

theorem endsFrom_terminator {root : Value} : endsFrom pos (.terminator root :: rest) =
    (pos + terminatorSize) :: endsFrom (pos + terminatorSize) rest := rfl

theorem endsFrom_of_rootsOf (h : rootsOf layout = []) : endsFrom pos layout = [] := by
  induction layout generalizing pos with
  | nil => rfl
  | cons e rest ih =>
    cases e with
    | object id o => exact ih h
    | terminator root => cases h

theorem mem_endsFrom {last : Nat} : last ∈ endsFrom pos layout ↔
    ∃ off root, (off, .terminator root) ∈ placed pos layout ∧ last = off + terminatorSize := by
  rw [endsFrom, List.mem_filterMap]
  constructor
  · rintro ⟨⟨off, e⟩, hmem, hlast⟩
    cases e with
    | object id o => cases hlast
    | terminator root => exact ⟨off, root, hmem, (Option.some.inj hlast).symm⟩
  · rintro ⟨off, root, hmem, rfl⟩
    exact ⟨_, hmem, rfl⟩

end Ends

namespace Writer
variable {w : Writer} {hash : ContentHash} {orig : Nat → Object Value} {layout : List Entry}
variable {f : Nat → Nat} {h : Heap} {roots : List Value} {root : Value}

theorem Holding.compact_of_error (hw : Holding w hash orig roots layout f) (hrest : w.AtRest)
    {e : Obstacle} (he : (w.compact hash h root).2 = .error e) :
    Holding (w.compact hash h root).1 hash orig roots layout f := by
  obtain ⟨capacity, hcapacity⟩ := hrest.compact_of_error he
  generalize (w.compact hash h root).1 = v at hcapacity ⊢
  subst hcapacity
  exact ⟨hw.laid.of_eq rfl rfl rfl rfl rfl rfl, hw.todo, hw.roots_eq, hw.closed⟩

/-- Of objects that are not copied yet nothing is said. -/
theorem Holding.view (hw : Holding w hash orig roots layout f) (h : Heap) :
    Holding w hash (w.view orig h) roots layout f :=
  { hw with laid := hw.laid.congr_orig fun _ _ hc => view_of_copied hc }

/-- What a writer holds after any calls: the roots that were accepted, and each object as it was
when it was copied. -/
theorem Holding.history (hw : Holding w hash orig roots layout f) (hrest : w.AtRest)
    {calls : List (Heap × Value)}
    (hcalls : ∀ call ∈ calls, call.1.WellFormed ∧ call.2.In call.1) :
    ∃ added g, Holding (w.calls hash calls).1 hash (w.originals hash orig calls)
        (roots ++ (w.accepted hash calls).map Prod.fst) (layout ++ added) g ∧
      endsFrom (headerSize + totalSize layout) added =
        (w.accepted hash calls).map Prod.snd := by
  -- Before each call the objects are taken as they are by then, which leaves what is held.
  induction calls generalizing w orig roots layout f with
  | nil =>
    refine ⟨[], f, ?_, rfl⟩
    rw [accepted, List.map_nil, List.append_nil, List.append_nil]
    exact hw
  | cons call rest ih =>
    obtain ⟨h, root⟩ := call
    obtain ⟨⟨hh, hroot⟩, hlater⟩ := List.forall_mem_cons.mp hcalls
    have hview := hw.view h
    have hnext := hrest.compact hash h root
    rw [Writer.calls, originals]
    cases hresult : (w.compact hash h root).2 with
    | error e =>
      rw [accepted_cons_of_error hresult]
      exact ih (hview.compact_of_error hrest hresult) hnext hlater
    | ok =>
      obtain ⟨needed, f₁, hneeded, hcompact⟩ :=
        hview.compact (supplies_view hh w orig) hroot hresult
      obtain ⟨added, g, hdone, hends⟩ := ih hcompact hnext hlater
      have hsize := hcompact.laid.size_eq
      rw [← hsize] at hends
      have hlast : headerSize + totalSize layout + totalSize needed + terminatorSize =
          (w.compact hash h root).1.size := by
        rw [totalSize_append, totalSize_append, totalSize_cons, totalSize_nil] at hsize
        simp only [Entry.size, terminatorSize] at hsize ⊢
        omega
      refine ⟨needed ++ .terminator root :: added, g, ?_, ?_⟩
      · rw [accepted_cons_of_ok hresult]
        simpa only [List.append_assoc, List.cons_append, List.nil_append, List.map_cons] using hdone
      · rw [accepted_cons_of_ok hresult, endsFrom_append, endsFrom_of_rootsOf hneeded,
          List.nil_append, endsFrom_terminator, hlast, hends]
        rfl

end Writer
end HeapImage
