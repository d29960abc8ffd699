import HeapImage.Proofs.Writer.Laid

/-!
# The traversal of a root

A call copies what it needs from a heap in which the objects are as the layout has them. It keeps
the invariant of the writer at each step, and ends with a layout that has no reference left to fill
in and one more root.
-/

namespace HeapImage
set_option autoImplicit false

/-- The objects of a heap are as they are taken to be, have well-formed data and do not refer out of
the heap. -/
structure Heap.Shows (h : Heap) (orig : Nat → Object Value) : Prop where
  object_eq : ∀ id, id < h.size → h.object id = orig id
  wellFormed : ∀ id, id < h.size → (orig id).WellFormed
  closed : h.Closed

/-- The same of those objects only that are not copied yet. What has become of the others does not
matter. -/
structure Heap.Supplies (h : Heap) (copied : Std.ExtTreeMap Nat Nat) (orig : Nat → Object Value) :
    Prop where
  wellFormed : h.WellFormed
  object_eq : ∀ id, id < h.size → copied[id]? = none → h.object id = orig id

namespace Heap
variable {h : Heap} {copied copied' : Std.ExtTreeMap Nat Nat} {orig : Nat → Object Value}

theorem Shows.supplies (hh : h.Shows orig) (copied : Std.ExtTreeMap Nat Nat) :
    h.Supplies copied orig := by
  refine ⟨⟨fun id hid => ?_, hh.closed⟩, fun id hid _ => hh.object_eq id hid⟩
  rw [hh.object_eq id hid]
  exact hh.wellFormed id hid

theorem Supplies.of_le (hh : h.Supplies copied orig)
    (hle : ∀ id : Nat, ∀ word, copied[id]? = some word → copied'[id]? = some word) :
    h.Supplies copied' orig := by
  refine ⟨hh.wellFormed, fun id hid hnone => hh.object_eq id hid ?_⟩
  cases hc : copied[id]? with
  | none => rfl
  | some word => rw [hle id word hc] at hnone; cases hnone

end Heap

/-- What is added for an object that is copied: its entry, unless leaves are shared and an equal one
has an entry. -/
def additions (sharing : Bool) (layout : List Entry) (id : Nat) (o : Object Value) : List Entry :=
  if sharing = true ∧ o.isLeaf = true ∧ o ∈ objectsOf layout then [] else [.object id o]

theorem rootsOf_additions (sharing : Bool) (layout : List Entry) (id : Nat) (o : Object Value) :
    rootsOf (additions sharing layout id o) = [] := by
  rw [additions]
  split <;> rfl

namespace Writer

/-- What is added for a reference to an object: nothing if the object was copied before. -/
def added (w : Writer) (h : Heap) (layout : List Entry) (id : Nat) : List Entry :=
  if w.copied.contains id then [] else additions w.sharing layout id (h.object id)

theorem added_of_copied {w : Writer} {h : Heap} {layout : List Entry} {id stored : Nat}
    (hc : w.copied[id]? = some stored) : w.added h layout id = [] := by
  rw [added, if_pos]
  rw [Std.ExtTreeMap.contains_eq_isSome_getElem?, hc]
  rfl

theorem added_of_new {w : Writer} {h : Heap} {layout : List Entry} {id : Nat}
    (hc : w.copied[id]? = none) :
    w.added h layout id = additions w.sharing layout id (h.object id) := by
  rw [added, if_neg]
  rw [Std.ExtTreeMap.contains_eq_isSome_getElem?, hc]
  nofun

theorem rootsOf_added (w : Writer) (h : Heap) (layout : List Entry) (id : Nat) :
    rootsOf (w.added h layout id) = [] := by
  rw [added]
  split
  · rfl
  · exact rootsOf_additions _ _ _ _

/-- The state of a call: the references on the list are those to be filled in, all to objects of the
heap. -/
structure Calling (w : Writer) (hash : ContentHash) (orig : Nat → Object Value) (h : Heap)
    (layout : List Entry) (f : Nat → Nat) : Prop where
  laid : Laid w hash orig layout f w.todo
  supplies : h.Supplies w.copied orig
  todo_lt : ∀ hole ∈ w.todo, hole.child < h.size

section Steps
variable {w : Writer} {hash : ContentHash} {orig : Nat → Object Value} {layout : List Entry}
variable {f : Nat → Nat} {holes : List Hole} {id : Nat} {h : Heap}

theorem mem_objectChildren_of_mem_holes {pos : Nat} {hole : Hole}
    (hhole : hole ∈ (h.object id).holes pos) : hole.child ∈ h.objectChildren id := by
  have hslot := Object.mem_holes.mp hhole
  obtain ⟨i, hchild, _⟩ := (Entry.mem_slots (e := .object id (h.object id))).mp hslot
  exact Heap.mem_objectChildren.mpr (List.mem_of_getElem? hchild)

/-- The two ways in which copying may end are one in terms of what is added. -/
theorem Laid.copyObject (hl : Laid w hash orig layout f holes) (hc : w.copied[id]? = none)
    (ho : (orig id).obstacle? w.hasRoom = none) (hw : (orig id).WellFormed) :
    ∃ g, Laid (w.copyObject hash id (orig id)).1 hash orig
      (layout ++ additions w.sharing layout id (orig id)) g ((orig id).holes w.size ++ holes) := by
  rcases hl.copyObject_cases hc ho hw with
    ⟨g, hnew, hcopy, _⟩ | ⟨off, owner, hs, hleaf, hplaced, hcopy, _⟩
  · refine ⟨g, ?_⟩
    rw [additions, if_neg]
    · exact hcopy
    · rintro ⟨hs, hleaf, hmem⟩
      obtain ⟨off, owner, hplaced⟩ := (mem_objectsOf headerSize).mp hmem
      exact hnew hs hleaf off owner hplaced
  · have hmem := (mem_objectsOf headerSize).mpr ⟨off, owner, hplaced⟩
    refine ⟨f, ?_⟩
    rwa [additions, if_pos ⟨hs, hleaf, hmem⟩, List.append_nil, Object.holes_of_isLeaf hleaf,
      List.nil_append]

theorem Laid.store (hl : Laid w hash orig layout f holes) (hh : h.Supplies w.copied orig)
    (hid : id < h.size) (ho : w.obstacle? h id = none) :
    ∃ g new, Laid (w.store hash h id).1 hash orig (layout ++ w.added h layout id) g
        (new ++ holes) ∧
      (w.store hash h id).1.todo = new ++ w.todo ∧ ∀ hole ∈ new, hole.child < h.size := by
  rcases obstacle?_eq_none_iff.mp ho with ⟨stored, hc⟩ | ⟨hc, hobject⟩
  · rw [store_of_copied hc, added_of_copied hc]
    refine ⟨f, [], ?_, rfl, nofun⟩
    rwa [List.append_nil]
  · have horig := hh.object_eq id hid hc
    have hw := hh.wellFormed.data id hid
    have hlt : ∀ hole ∈ (h.object id).holes w.size, hole.child < h.size := fun hole hhole =>
      hh.wellFormed.closed id hid _ (mem_objectChildren_of_mem_holes hhole)
    have htodo := todo_copyObject w hash id (h.object id)
    rw [store_of_new hc, added_of_new hc]
    rw [horig] at hobject hw hlt htodo ⊢
    obtain ⟨g, hcopy⟩ := hl.copyObject hc hobject hw
    exact ⟨g, _, hcopy, htodo, hlt⟩

theorem copied_advance {next : Hole} {rest : List Hole} :
    (w.advance hash h next rest).copied =
      ({ w with todo := rest }.store hash h next.child).1.copied :=
  copied_fill _ _ _

theorem getElem?_copied_advance {next : Hole} {rest : List Hole} {other stored : Nat}
    (hc : w.copied[other]? = some stored) :
    (w.advance hash h next rest).copied[other]? = some stored := by
  rw [copied_advance]
  exact getElem?_copied_store (w := { w with todo := rest }) hc

theorem Calling.advance (hc : Calling w hash orig h layout f) {next : Hole} {rest : List Hole}
    (htodo : w.todo = next :: rest) (ho : w.obstacle? h next.child = none) :
    ∃ g, Calling (w.advance hash h next rest) hash orig h
      (layout ++ w.added h layout next.child) g := by
  have hl := hc.laid
  rw [htodo] at hl
  have hpop : Laid { w with todo := rest } hash orig layout f (next :: rest) :=
    hl.of_eq rfl rfl rfl rfl rfl rfl
  have hnext := hc.todo_lt next (htodo ▸ List.mem_cons_self)
  have hsupplies : h.Supplies (w.advance hash h next rest).copied orig :=
    hc.supplies.of_le fun _ _ hword => getElem?_copied_advance hword
  obtain ⟨g, new, hstore, htodo', hlt⟩ := hpop.store hc.supplies hnext ho
  have hcopied : ({ w with todo := rest }.store hash h next.child).1.copied[next.child]? =
      some ({ w with todo := rest }.store hash h next.child).2 := getElem?_copied_store_self
  rw [Writer.advance] at hsupplies ⊢
  generalize { w with todo := rest }.store hash h next.child = copy
    at hstore htodo' hcopied hsupplies ⊢
  have hleft : ∀ hole ∈ new ++ rest, hole ∈ new ++ next :: rest :=
    fun hole hmem => List.perm_middle.mem_iff.mpr (List.mem_cons_of_mem _ hmem)
  have hrest : ∀ hole ∈ new ++ next :: rest, hole = next ∨ hole ∈ new ++ rest :=
    fun hole hmem => List.mem_cons.mp (List.perm_middle.mem_iff.mp hmem)
  have hfill := hstore.fill (List.mem_append_right _ List.mem_cons_self) hcopied hleft hrest
  have hleftTodo : (copy.1.fill next.slot copy.2).todo = new ++ rest := by rw [todo_fill, htodo']
  refine ⟨_, hleftTodo ▸ hfill, hsupplies, ?_⟩
  intro hole hmem
  rw [hleftTodo] at hmem
  rcases List.mem_append.mp hmem with hmem | hmem
  · exact hlt hole hmem
  · exact hc.todo_lt hole (htodo ▸ List.mem_cons_of_mem _ hmem)

theorem Calling.drain (hc : Calling w hash orig h layout f) :
    ∃ added g, rootsOf added = [] ∧
      Calling (w.drain hash h).1 hash orig h (layout ++ added) g := by
  refine drain_invariant w hash h (motive := fun w => ∃ added g, rootsOf added = [] ∧
    Calling w hash orig h (layout ++ added) g) ?_ ⟨[], f, rfl, by rwa [List.append_nil]⟩
  intro w next rest htodo ho hinv
  obtain ⟨added, f, hadded, hc⟩ := hinv
  obtain ⟨g, hnext⟩ := hc.advance htodo ho
  refine ⟨_, g, ?_, by rwa [List.append_assoc] at hnext⟩
  rw [rootsOf_append, hadded, rootsOf_added, List.append_nil]

end Steps

/-- A writer between two calls, which holds the given roots. -/
structure Holding (w : Writer) (hash : ContentHash) (orig : Nat → Object Value)
    (roots : List Value) (layout : List Entry) (f : Nat → Nat) : Prop where
  laid : Laid w hash orig layout f []
  todo : w.todo = []
  roots_eq : rootsOf layout = roots
  closed : roots ≠ [] → ∃ root, layout.getLast? = some (.terminator root)

section Calls
variable {w : Writer} {hash : ContentHash} {orig : Nat → Object Value} {layout : List Entry}
variable {f : Nat → Nat} {h : Heap} {roots : List Value} {root : Value}

theorem Laid.storeRoot (hl : Laid w hash orig layout f []) (htodo : w.todo = [])
    (hh : h.Supplies w.copied orig) (hroot : root.In h)
    (ho : root.id?.bind (w.obstacle? h) = none) :
    (∃ g, Calling (w.storeRoot hash h root).1 hash orig h
        (layout ++ root.id?.elim [] (w.added h layout)) g) ∧
      (w.storeRoot hash h root).1.Stores (w.storeRoot hash h root).2 root := by
  have hnil : ∀ hole ∈ w.todo, hole.child < h.size := by
    rw [htodo]
    nofun
  cases root with
  | scalar payload =>
    have hcalling : Calling w hash orig h (layout ++ []) f := by
      rw [List.append_nil]
      exact ⟨htodo ▸ hl, hh, hnil⟩
    exact ⟨⟨f, hcalling⟩, rfl⟩
  | object id =>
    obtain ⟨g, new, hstore, htodo', hlt⟩ := hl.store hh hroot ho
    have hsupplies : h.Supplies (w.store hash h id).1.copied orig :=
      hh.of_le fun _ _ hword => getElem?_copied_store hword
    rw [Writer.storeRoot]
    rw [htodo, List.append_nil] at htodo'
    rw [List.append_nil] at hstore
    exact ⟨⟨g, htodo' ▸ hstore, hsupplies, htodo' ▸ hlt⟩, getElem?_copied_store_self⟩

theorem Stores.drain {word : Nat} (hs : w.Stores word root) (hash : ContentHash) (h : Heap) :
    (w.drain hash h).1.Stores word root := by
  cases root with
  | scalar payload => exact hs
  | object id => exact getElem?_copied_drain w hash h hs

/-- A call that succeeds adds its root, and before it what the root needs. -/
theorem Holding.compact (hw : Holding w hash orig roots layout f) (hh : h.Supplies w.copied orig)
    (hroot : root.In h) (hok : (w.compact hash h root).2 = .ok ()) :
    ∃ added g, rootsOf added = [] ∧ Holding (w.compact hash h root).1 hash orig (roots ++ [root])
      (layout ++ added ++ [.terminator root]) g := by
  rcases compact_cases w hash h root with ⟨v, hv, hcompact⟩ | ⟨v, e, _, hcompact⟩
  · obtain ⟨hobstacle, hdone, hroom, rfl⟩ := writeRoot_eq_none hv
    obtain ⟨⟨f₁, hcalling⟩, hstores⟩ := hw.laid.storeRoot hw.todo hh hroot hobstacle
    obtain ⟨added₂, f₂, hadded₂, hdrained⟩ := hcalling.drain
    have hadded₁ : rootsOf (root.id?.elim [] (w.added h layout)) = [] := by
      cases root with
      | scalar payload => rfl
      | object id => exact rootsOf_added w h layout id
    generalize root.id?.elim [] (w.added h layout) = added₁ at hadded₁ hcalling hdrained
    have htodo := todo_drain _ hash h hdone
    have hstored := hstores.drain hash h
    have hadded : rootsOf (added₁ ++ added₂) = [] := by
      rw [rootsOf_append, hadded₁, hadded₂, List.append_nil]
    rw [hcompact]
    generalize ((w.storeRoot hash h root).1.drain hash h).1 = u at hdrained htodo hroom hstored
    have hl := hdrained.laid
    rw [htodo, List.append_assoc] at hl
    have hterminated := hl.terminate hstored hroom
    have htodo' : (u.terminate (w.storeRoot hash h root).2).todo = [] := by
      rw [todo_terminate, htodo]
    generalize u.terminate (w.storeRoot hash h root).2 = v at hterminated htodo'
    refine ⟨added₁ ++ added₂, _, hadded, hterminated.of_eq rfl rfl rfl rfl rfl rfl, htodo', ?_, ?_⟩
    · rw [rootsOf_append, rootsOf_append, hadded, List.append_nil, hw.roots_eq]
      rfl
    · intro _
      exact ⟨root, List.getLast?_concat⟩
  · rw [hcompact] at hok
    cases hok

theorem Holding.calls (hw : Holding w hash orig roots layout f) {calls : List (Heap × Value)}
    (hcalls : ∀ call ∈ calls, call.1.Shows orig ∧ call.2.In call.1)
    (hok : ∀ result ∈ (w.calls hash calls).2, result = .ok ()) :
    ∃ layout' g,
      Holding (w.calls hash calls).1 hash orig (roots ++ calls.map Prod.snd) layout' g := by
  induction calls generalizing w roots layout f with
  | nil =>
    refine ⟨layout, f, ?_⟩
    rw [List.map_nil, List.append_nil]
    exact hw
  | cons call rest ih =>
    obtain ⟨h, root⟩ := call
    obtain ⟨⟨hh, hroot⟩, hrest⟩ := List.forall_mem_cons.mp hcalls
    obtain ⟨hfirst, hlater⟩ := List.forall_mem_cons.mp hok
    obtain ⟨_, f₁, _, hcompact⟩ := hw.compact (hh.supplies _) hroot hfirst
    obtain ⟨layout₂, f₂, hdone⟩ := ih hcompact hrest hlater
    refine ⟨layout₂, f₂, ?_⟩
    rwa [List.append_assoc] at hdone

theorem toList_start (c : WriterConfig) :
    (start c).buffer.bytes.toList = imageBytes c.base.toNat (fun _ => 0) [] := by
  have hempty := Buffer.written_reserve (.empty (max c.initialCapacity headerSize)) headerSize
  have hmagic := hempty.putWord rfl (by decide) magic
  have hbase := hmagic.putWord (show 8 = _ from rfl) (by decide) c.base.toNat
  apply Eq.trans hbase
  simp [imageBytes, Buffer.empty, headerSize]

theorem holding_of_create? {c : WriterConfig} (hw : create? c = .ok w) (hash : ContentHash)
    (orig : Nat → Object Value) : Holding w hash orig [] [] (fun _ => 0) := by
  unfold create? at hw
  split at hw
  · cases hw
  · split at hw
    · cases hw
    · rename_i hmod _
      have hbytes := toList_start c
      have hstart : start c =
          ⟨(start c).buffer, c.base, c.sharing, ∅, ∅, [], [], [], {}⟩ := by
        rw [start]
      rw [← Except.ok.inj hw, hstart]
      generalize (start c).buffer = b at hbytes
      refine ⟨⟨Decidable.not_not.mp hmod, hbytes, fun h => absurd rfl h, ?_, ?_, ?_, ?_, ?_, ?_,
        ?_, rfl, rfl, ?_⟩, rfl, rfl, fun h => absurd rfl h⟩
      · intro e he
        cases he
      · intro slot v hv
        cases hv
      · intro hole hh
        cases hh
      · intro id word hc
        simp at hc
      · intro off owner o hmem
        cases hmem
      · intro _ key leaf
        simp [placed]
      · intro _ off off' owner owner' o hmem
        cases hmem
      · exact Std.ExtTreeMap.size_empty

end Calls

end Writer
end HeapImage
