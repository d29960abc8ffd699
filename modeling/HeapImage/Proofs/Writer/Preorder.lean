import HeapImage.Proofs.Heap.Preorder
import HeapImage.Proofs.RoundTrip
import HeapImage.Proofs.Writer.History

/-!
# The order of writing

A call that has room does what the recursive walk does. The list of references to be filled in is
what the walk has still to visit, so the objects are copied in preorder, each adds its entry unless
it is a leaf that can be shared, and the call ends where the walk ends.
-/

namespace HeapImage
set_option autoImplicit false

namespace Object
variable {o : Object Value} {hasRoom : Nat → Bool}

theorem pending?_of_obstacle? {e : Obstacle} (he : o.obstacle? hasRoom = some e)
    (hroom : e ≠ .tooLarge) : o.pending? = some e := by
  unfold obstacle? at he
  split at he
  · exact he
  · exact he
  · exact he
  · split at he
    · split at he
      · cases he
      · exact absurd (Option.some.inj he).symm hroom
    · exact absurd (Option.some.inj he).symm hroom

theorem pending?_of_no_obstacle? (hnone : o.obstacle? hasRoom = none) : o.pending? = none :=
  pending?_eq_none_iff.mpr (settled_of_obstacle? hnone)

theorem map_child_holes (o : Object Value) (pos : Nat) :
    (o.holes pos).map Hole.child = o.children.filterMap Value.id? := by
  have hmap : ∀ (children : List Value) (f : Nat → Nat),
      ((children.mapIdx fun i child => (f i, child)).filterMap
        fun slot => slot.2.id?.map (Hole.mk slot.1)).map Hole.child =
      children.filterMap Value.id? := by
    intro children
    induction children with
    | nil => exact fun _ => rfl
    | cons child rest ih =>
      intro f
      have hrest := ih fun i => f (i + 1)
      cases child <;> simpa [List.mapIdx_cons, List.filterMap_cons] using hrest
  exact hmap o.children fun i => pos + o.slotsAt + 8 * i

end Object

namespace Writer

section Copies
variable {w v : Writer} {hash : ContentHash} {h : Heap} {id : Nat}

theorem newCopies_unifyLeaf (w : Writer) (hash : ContentHash) (pos contentsAt : Nat) :
    (w.unifyLeaf hash pos contentsAt).1.newCopies = w.newCopies := by
  rcases w.unifyLeaf_cases hash pos contentsAt with ⟨_, h⟩ | ⟨_, _, _, h⟩ | ⟨_, _, h⟩ <;>
    rw [h] <;> rfl

theorem newCopies_copyObject (w : Writer) (hash : ContentHash) (id : Nat) (o : Object Value) :
    (w.copyObject hash id o).1.newCopies = id :: w.newCopies := by
  cases ho : o.isLeaf with
  | false =>
    rw [copyObject_of_not_isLeaf ho]
    rfl
  | true =>
    rw [copyObject_of_isLeaf ho]
    exact congrArg (id :: ·) (newCopies_unifyLeaf _ _ _ _)

theorem newCopies_store (w : Writer) (hash : ContentHash) (h : Heap) (id : Nat) :
    (w.store hash h id).1.newCopies =
      if w.copied.contains id then w.newCopies else id :: w.newCopies := by
  rw [Std.ExtTreeMap.contains_eq_isSome_getElem?]
  cases hc : w.copied[id]? with
  | some stored => rw [store_of_copied hc, Option.isSome_some, if_pos rfl]
  | none =>
    rw [store_of_new hc, newCopies_copyObject, Option.isSome_none, if_neg Bool.false_ne_true]

theorem newCopies_advance (w : Writer) (hash : ContentHash) (h : Heap) (next : Hole)
    (rest : List Hole) : (w.advance hash h next rest).newCopies =
      if w.copied.contains next.child then w.newCopies else next.child :: w.newCopies := by
  rw [advance, fill, newCopies_store]

theorem copies_of_eq (hcopied : v.copied = w.copied) : v.copies = w.copies := by
  rw [copies, hcopied, copies]

theorem not_mem_copies (hc : w.copied[id]? = none) : id ∉ w.copies := by
  rw [mem_copies, hc]
  nofun

theorem copies_insert {word : Nat} (hcopied : v.copied = w.copied.insert id word) :
    v.copies = insert id w.copies := by
  ext other
  rw [Finset.mem_insert, mem_copies, mem_copies, hcopied]
  by_cases heq : id = other
  · subst heq
    simp
  · simp [Std.ExtTreeMap.getElem?_insert, heq, Ne.symm heq]

end Copies

/-- What the call will have copied, the latest first, and what it will have ended at, if it goes on
as the walk over the given objects does. -/
def forecast (w : Writer) (h : Heap) (ids : List Nat) : List Nat × Option Obstacle :=
  ((h.walk w.copies ids).met.reverse ++ w.newCopies, (h.walk w.copies ids).stop)

section Forecasts
variable {w v : Writer} {hash : ContentHash} {h : Heap} {id : Nat} {rest : List Nat}

theorem forecast_of_eq (hcopied : v.copied = w.copied) (hnew : v.newCopies = w.newCopies)
    (ids : List Nat) : v.forecast h ids = w.forecast h ids := by
  rw [forecast, copies_of_eq hcopied, hnew, forecast]

theorem forecast_nil (w : Writer) (h : Heap) : w.forecast h [] = (w.newCopies, none) := by
  rw [forecast, h.walk_nil]
  rfl

theorem forecast_of_obstacle {e : Obstacle} (he : w.obstacle? h id = some e)
    (hroom : e ≠ .tooLarge) : w.forecast h (id :: rest) = (w.newCopies, some e) := by
  rw [obstacle?, Std.ExtTreeMap.contains_eq_isSome_getElem?] at he
  cases hc : w.copied[id]? with
  | some stored =>
    rw [hc] at he
    cases he
  | none =>
    rw [hc] at he
    rw [forecast, Heap.walk_of_pending (not_mem_copies hc) (Object.pending?_of_obstacle? he hroom)]
    rfl

/-- Storing an object puts in front of the list what the walk has to visit next. -/
theorem forecast_store (hash : ContentHash) (hnone : w.obstacle? h id = none) : ∃ new,
    (w.store hash h id).1.todo = new ++ w.todo ∧ ∀ rest,
      w.forecast h (id :: rest) = (w.store hash h id).1.forecast h (new.map Hole.child ++ rest) := by
  rcases obstacle?_eq_none_iff.mp hnone with ⟨stored, hc⟩ | ⟨hc, hobject⟩
  · rw [store_of_copied hc]
    refine ⟨[], rfl, fun rest => ?_⟩
    rw [forecast, Heap.walk_of_seen (mem_copies.mpr ⟨stored, hc⟩)]
    rfl
  · rw [store_of_new hc]
    refine ⟨_, todo_copyObject w hash id _, fun rest => ?_⟩
    have hpending := Object.pending?_of_no_obstacle? hobject
    rw [forecast, Heap.walk_of_new (not_mem_copies hc) hpending, forecast,
      Object.map_child_holes, newCopies_copyObject, copies_insert (copied_copyObject w hash id _),
      List.append_cons]
    exact congrArg (fun met => (met ++ w.newCopies, _)) List.reverse_cons

theorem forecast_advance {next : Hole} {left : List Hole} (htodo : w.todo = next :: left)
    (hnone : w.obstacle? h next.child = none) :
    w.forecast h (w.todo.map Hole.child) = (w.advance hash h next left).forecast h
      ((w.advance hash h next left).todo.map Hole.child) := by
  obtain ⟨new, hnew, hforecast⟩ := forecast_store (w := { w with todo := left }) hash hnone
  have hpop : { w with todo := left }.forecast h (next.child :: left.map Hole.child) =
      w.forecast h (next.child :: left.map Hole.child) := forecast_of_eq rfl rfl _
  -- Filling the hole changes nothing that a forecast depends on.
  rw [htodo, List.map_cons, ← hpop, hforecast, ← List.map_append, advance, todo_fill, hnew]
  exact (forecast_of_eq (copied_fill _ _ _) rfl _).symm

/-- If there is room, the call goes on as was forecast. -/
theorem drain_eq_forecast (hroom : (w.drain hash h).2 ≠ some .tooLarge) :
    ((w.drain hash h).1.newCopies, (w.drain hash h).2) =
      w.forecast h (w.todo.map Hole.child) := by
  fun_induction drain w hash h with
  | case1 w htodo => rw [htodo, List.map_nil, forecast_nil]
  | case2 w next rest htodo e he =>
    rw [htodo, List.map_cons, forecast_of_obstacle he fun heq => hroom (congrArg some heq)]
  | case3 w next rest htodo hnone ih => rw [forecast_advance htodo hnone, ih hroom]

end Forecasts

end Writer

/-- The layout after some objects were copied, one after the other. -/
def layoutAfter (h : Heap) (sharing : Bool) (layout : List Entry) (order : List Nat) : List Entry :=
  order.foldl (fun layout id => layout ++ additions sharing layout id (h.object id)) layout

theorem layoutAfter_concat (h : Heap) (sharing : Bool) (layout : List Entry) (order : List Nat)
    (id : Nat) : layoutAfter h sharing layout (order ++ [id]) =
      layoutAfter h sharing layout order ++
        additions sharing (layoutAfter h sharing layout order) id (h.object id) := by
  rw [layoutAfter, List.foldl_append]
  rfl

namespace Writer
variable {w : Writer} {hash : ContentHash} {orig : Nat → Object Value} {layout : List Entry}
variable {f : Nat → Nat} {h : Heap} {roots : List Value} {root : Value}

/-- During a call the layout is that before the call with what was copied since. -/
structure Extends (w : Writer) (hash : ContentHash) (orig : Nat → Object Value) (h : Heap)
    (sharing : Bool) (layout : List Entry) : Prop where
  sharing_eq : w.sharing = sharing
  calling : ∃ g, Calling w hash orig h (layoutAfter h sharing layout w.newCopies.reverse) g

theorem layoutAfter_added (h : Heap) (layout : List Entry) {v : Writer} {id : Nat}
    (hv : v.newCopies = if w.copied.contains id then w.newCopies else id :: w.newCopies) :
    layoutAfter h w.sharing layout w.newCopies.reverse ++
        w.added h (layoutAfter h w.sharing layout w.newCopies.reverse) id =
      layoutAfter h w.sharing layout v.newCopies.reverse := by
  rw [hv, added]
  split
  · exact List.append_nil _
  · rw [List.reverse_cons, layoutAfter_concat]

theorem Extends.advance {sharing : Bool} (hw : w.Extends hash orig h sharing layout) {next : Hole}
    {rest : List Hole} (htodo : w.todo = next :: rest) (hnone : w.obstacle? h next.child = none) :
    (w.advance hash h next rest).Extends hash orig h sharing layout := by
  obtain ⟨rfl, g, hcalling⟩ := hw
  obtain ⟨g', hadvance⟩ := hcalling.advance htodo hnone
  rw [layoutAfter_added h layout (newCopies_advance w hash h next rest)] at hadvance
  exact ⟨sharing_advance w hash h next rest, g', hadvance⟩

theorem Extends.drain {sharing : Bool} (hw : w.Extends hash orig h sharing layout) :
    (w.drain hash h).1.Extends hash orig h sharing layout :=
  drain_invariant w hash h (motive := (Extends · hash orig h sharing layout))
    (fun _ _ _ htodo hnone hw => hw.advance htodo hnone) hw

theorem Laid.extends_storeRoot (hl : Laid w hash orig layout f []) (hrest : w.AtRest)
    (hh : h.Supplies w.copied orig) (hroot : root.In h)
    (hnone : root.id?.bind (w.obstacle? h) = none) :
    (w.storeRoot hash h root).1.Extends hash orig h w.sharing layout := by
  obtain ⟨⟨g, hcalling⟩, _⟩ := hl.storeRoot hrest.todo hh hroot hnone
  have hbegin : layoutAfter h w.sharing layout w.newCopies.reverse = layout := by
    rw [hrest.newCopies]
    rfl
  cases root with
  | scalar payload =>
    refine ⟨rfl, g, ?_⟩
    rw [Writer.storeRoot, hbegin, ← List.append_nil layout]
    exact hcalling
  | object id =>
    have hlayout := layoutAfter_added h layout (newCopies_store w hash h id)
    rw [hbegin] at hlayout
    exact ⟨sharing_store w hash h id, g, hlayout ▸ hcalling⟩

/-- What a call that begins now will have copied, and what it will have ended at. -/
theorem drain_storeRoot (hrest : w.AtRest) (hnone : root.id?.bind (w.obstacle? h) = none)
    (hroom : ((w.storeRoot hash h root).1.drain hash h).2 ≠ some .tooLarge) :
    ((w.storeRoot hash h root).1.drain hash h).1.newCopies =
        (h.walk w.copies root.id?.toList).met.reverse ∧
      ((w.storeRoot hash h root).1.drain hash h).2 = (h.walk w.copies root.id?.toList).stop := by
  have hbegin : w.forecast h root.id?.toList =
      ((h.walk w.copies root.id?.toList).met.reverse,
        (h.walk w.copies root.id?.toList).stop) := by
    rw [forecast, hrest.newCopies, List.append_nil]
  have hstored : (w.storeRoot hash h root).1.forecast h
      ((w.storeRoot hash h root).1.todo.map Hole.child) = w.forecast h root.id?.toList := by
    cases root with
    | scalar payload =>
      rw [Writer.storeRoot, hrest.todo]
      rfl
    | object id =>
      obtain ⟨new, hnew, hforecast⟩ := forecast_store hash hnone
      have hroot := hforecast []
      rw [List.append_nil] at hroot
      rw [Writer.storeRoot, hnew, hrest.todo, List.append_nil]
      exact hroot.symm
  exact Prod.ext_iff.mp ((drain_eq_forecast hroom).trans (hstored.trans hbegin))

theorem writeRoot_walk (hrest : w.AtRest) (hroom : (w.writeRoot hash h root).2 ≠ some .tooLarge) :
    (w.writeRoot hash h root).2 = (h.walk w.copies root.id?.toList).stop := by
  cases hobstacle : root.id?.bind (w.obstacle? h) with
  | some e =>
    rw [writeRoot_of_obstacle hobstacle] at hroom ⊢
    obtain ⟨id, hid, he⟩ := Option.bind_eq_some_iff.mp hobstacle
    have hforecast : w.forecast h [id] = (w.newCopies, some e) :=
      forecast_of_obstacle he fun heq => hroom (congrArg some heq)
    rw [hid]
    exact (congrArg Prod.snd hforecast).symm
  | none =>
    cases hdrain : ((w.storeRoot hash h root).1.drain hash h).2 with
    | some e =>
      rw [writeRoot_of_stuck hobstacle hdrain] at hroom ⊢
      exact hdrain.symm.trans (drain_storeRoot hrest hobstacle (hdrain ▸ hroom)).2
    | none =>
      have hstop := (drain_storeRoot hrest hobstacle fun heq => nomatch hdrain.symm.trans heq).2
      rw [writeRoot_of_done hobstacle hdrain] at hroom ⊢
      split
      · exact hdrain.symm.trans hstop
      · rename_i hfull
        exact absurd (congrArg Prod.snd (if_neg hfull)) hroom

/-- A call that succeeds adds the objects that the walk meets, in that order, and a terminator. -/
theorem Holding.compact_walk (hw : Holding w hash orig roots layout f) (hrest : w.AtRest)
    (hh : h.Supplies w.copied orig) (hroot : root.In h)
    (hok : (w.compact hash h root).2 = .ok ()) :
    ∃ g, Laid (w.compact hash h root).1 hash orig
      (layoutAfter h w.sharing layout (h.walk w.copies root.id?.toList).met ++
        [.terminator root]) g [] := by
  rcases compact_cases w hash h root with ⟨v, hv, hcompact⟩ | ⟨v, e, _, hcompact⟩
  · obtain ⟨hobstacle, hdone, hroom, rfl⟩ := writeRoot_eq_none hv
    obtain ⟨_, g, hcalling⟩ := (hw.laid.extends_storeRoot hrest hh hroot hobstacle).drain
    have hstored := ((hw.laid.storeRoot hrest.todo hh hroot hobstacle).2).drain hash h
    have hmet := (drain_storeRoot hrest hobstacle fun heq => nomatch hdone.symm.trans heq).1
    have htodo := todo_drain _ hash h hdone
    rw [hcompact]
    generalize ((w.storeRoot hash h root).1.drain hash h).1 = u at hcalling hstored hmet htodo hroom
    have hl := hcalling.laid
    rw [htodo, hmet, List.reverse_reverse] at hl
    have hterminated := hl.terminate hstored hroom
    generalize u.terminate (w.storeRoot hash h root).2 = v at hterminated
    exact ⟨_, hterminated.of_eq rfl rfl rfl rfl rfl rfl⟩
  · rw [hcompact] at hok
    cases hok

/-- A call that has room succeeds if the walk comes to its end, and fails as the walk does. -/
theorem compact_walk (hrest : w.AtRest) (hroom : (w.compact hash h root).2 ≠ .error .tooLarge) :
    (w.compact hash h root).2 =
      match (h.walk w.copies root.id?.toList).stop with
      | some e => .error e
      | none => .ok () := by
  rcases compact_cases w hash h root with ⟨v, hv, hcompact⟩ | ⟨v, e, hv, hcompact⟩
  · have hnot : (w.writeRoot hash h root).2 ≠ some .tooLarge := by
      rw [hv]
      nofun
    have hstop := writeRoot_walk hrest hnot
    rw [hv] at hstop
    rw [hcompact, ← hstop]
  · rw [hcompact] at hroom
    have hnot : (w.writeRoot hash h root).2 ≠ some .tooLarge := by
      rw [hv]
      intro heq
      exact hroom (congrArg Except.error (Option.some.inj heq))
    have hstop := writeRoot_walk hrest hnot
    rw [hv] at hstop
    rw [hcompact, ← hstop]

/-- The image of a writer has the entries of a layout, each where the stored references to its
object say, and every reference stands as what is stored for its value. -/
structure WrittenAs (w : Writer) (layout : List Entry) : Prop where
  valid : ∀ e ∈ layout, e.Valid
  bytes : ∃ f, w.data.toList = imageBytes w.base.toNat f layout ∧
    ∀ slot v, (slot, v) ∈ slotsFrom headerSize layout → w.Stores (f slot) v
  owned : ∀ off owner o, (off, .object owner o) ∈ placed headerSize layout →
    w.copied[owner]? = some (w.base.toNat + off)

theorem Laid.writtenAs (hl : Laid w hash orig layout f []) : w.WrittenAs layout := by
  refine ⟨hl.valid, ⟨f, hl.data_eq, fun slot v hv => ?_⟩, hl.owned⟩
  have hfilled := hl.filled slot v hv
  cases v with
  | scalar payload => exact hfilled
  | object id => exact hfilled.resolve_left List.not_mem_nil

/-- Unless there is no room, writing a root does what the recursive walk over its objects does,
where those that were copied before are seen: it fails as the walk does, or adds what the walk
meets, in that order, and a terminator. It succeeds if and only if the walk finds settled objects
only. -/
theorem compact_preorder {c : WriterConfig} {w₀ : Writer} (hcreate : create? c = .ok w₀)
    (hash : ContentHash) {calls : List (Heap × Value)}
    (hcalls : ∀ call ∈ calls, call.1.WellFormed ∧ call.2.In call.1)
    (hw : (w₀.calls hash calls).1 = w) (hh : h.WellFormed) (hroot : root.In h)
    (hroom : (w.compact hash h root).2 ≠ .error .tooLarge) :
    ((w.compact hash h root).2 = .ok () ↔
      ∀ id, h.ReachesNew w.copies root id → (h.object id).Settled) ∧
    match h.walk w.copies root.id?.toList with
    | ⟨_, some e⟩ => (w.compact hash h root).2 = .error e
    | ⟨met, none⟩ => (w.compact hash h root).2 = .ok () ∧ ∃ layout, w.WrittenAs layout ∧
        (w.compact hash h root).1.WrittenAs
          (layoutAfter h w.sharing layout met ++ [.terminator root]) := by
  have hrest : w.AtRest := hw ▸ (atRest_of_create? hcreate).calls hash calls
  have hresult := compact_walk hrest hroom
  rw [← Heap.walk_stop_eq_none_iff]
  cases hwalk : h.walk w.copies root.id?.toList with
  | mk met stop =>
    rw [hwalk] at hresult
    cases stop with
    | some e =>
      rw [hresult]
      exact ⟨iff_of_false nofun nofun, rfl⟩
    | none =>
      refine ⟨iff_of_true hresult rfl, hresult, ?_⟩
      obtain ⟨layout, f, hbefore, _⟩ := (holding_of_create? hcreate hash h.object).history
        (atRest_of_create? hcreate) hcalls
      rw [hw, List.nil_append] at hbefore
      have hview := hbefore.view h
      obtain ⟨g, hafter⟩ := hview.compact_walk hrest (supplies_view hh w _) hroot hresult
      rw [hwalk] at hafter
      exact ⟨_, hview.laid.writtenAs, hafter.writtenAs⟩

end Writer

theorem walk_twinHeap : twinHeap.walk ∅ [2] = ⟨[2, 0, 1], none⟩ := by
  have hroot : twinHeap.objectChildren 2 = [2, 0, 1] := by decide
  have hleft : twinHeap.objectChildren 0 = [] := by decide
  have hright : twinHeap.objectChildren 1 = [] := by decide
  rw [Heap.walk_of_new (by decide) rfl, hroot, List.append_nil, Heap.walk_of_seen (by decide),
    Heap.walk_of_new (by decide) rfl, hleft, List.nil_append,
    Heap.walk_of_new (by decide) rfl, hright, List.append_nil, Heap.walk_nil]
  rfl

/-- The constructor is written before the strings, of which the second is left out. -/
theorem twin_written_in_order : ∃ layout, (Writer.start { base := 4096 }).WrittenAs layout ∧
    ((Writer.start { base := 4096 }).compact fingerprint twinHeap (.object 2)).1.WrittenAs
      (layoutAfter twinHeap true layout [2, 0, 1] ++ [.terminator (.object 2)]) := by
  have hroot : (Value.object 2).In twinHeap := show 2 < twinHeap.size by decide
  have hok : ((Writer.start { base := 4096 }).compact fingerprint twinHeap (.object 2)).2 =
      .ok () := (List.cons.inj calls_twin).1
  have hroom : ((Writer.start { base := 4096 }).compact fingerprint twinHeap (.object 2)).2 ≠
      .error .tooLarge := by
    rw [hok]
    intro herror
    cases herror
  have hseen : (Writer.start { base := 4096 }).copies = ∅ := by
    ext id
    rw [Writer.mem_copies, Writer.start]
    simp
  have hwalk : twinHeap.walk (Writer.start { base := 4096 }).copies (Value.object 2).id?.toList =
      ⟨[2, 0, 1], none⟩ := by
    rw [hseen]
    exact walk_twinHeap
  have hfresh : ((Writer.start { base := 4096 }).calls fingerprint []).1 =
      Writer.start { base := 4096 } := rfl
  obtain ⟨_, hwritten⟩ := Writer.compact_preorder (c := { base := 4096 }) rfl fingerprint
    (List.forall_mem_nil _) hfresh wellFormed_twinHeap hroot hroom
  rw [hwalk] at hwritten
  exact hwritten.2

end HeapImage
