import HeapImage.Proofs.RoundTrip
import HeapImage.Proofs.Writer.Lockstep

/-!
# Renamed heaps

The image depends on the graph only. If the objects of the heaps are numbered in another way, and
leaves are found by another hash, then every call has the same result as before, and the bytes are
the same.
-/

namespace HeapImage
set_option autoImplicit false

namespace Object
variable {o : Object Value}

theorem wellFormed_of_not_settled (ho : ¬o.Settled) : o.WellFormed := by
  cases o with
  | byteArray | bigInteger => exact absurd trivial ho
  | _ => trivial

theorem children_of_not_settled (ho : ¬o.Settled) : o.children = [] := by
  cases o with
  | thunk state =>
    cases state with
    | waiting closure => rfl
    | forced value => exact absurd trivial ho
  | task result | promise result =>
    cases result with
    | none => rfl
    | some value => exact absurd trivial ho
  | _ => exact absurd trivial ho

end Object

/-- The permutation takes the objects of one heap to those of the other, with the same kind and
data, settled or not as they were, and with corresponding children. -/
structure Heap.RenamedBy (h h' : Heap) (e : Equiv.Perm Nat) : Prop where
  lt_size_iff : ∀ id, e id < h'.size ↔ id < h.size
  object : ∀ id, id < h.size → (h.object id).Renamed e (h'.object (e id))

theorem Heap.RenamedBy.wellFormed {h h' : Heap} {e : Equiv.Perm Nat} (hr : h.RenamedBy h' e)
    (hh : h.WellFormed) : h'.WellFormed := by
  have hobject : ∀ id', id' < h'.size → ∃ id, id < h.size ∧ e id = id' ∧
      (h.object id).Renamed e (h'.object id') := by
    intro id' hid'
    obtain ⟨id, rfl⟩ := e.surjective id'
    have hid := (hr.lt_size_iff id).mp hid'
    exact ⟨id, hid, rfl, hr.object id hid⟩
  -- Objects that are not settled need not correspond, but nothing in them could be ill-formed.
  refine ⟨fun id' hid' => ?_, fun id' hid' child' hchild' => ?_⟩
  · obtain ⟨id, hid, _, hrenamed⟩ := hobject id' hid'
    by_cases ho : (h.object id).Settled
    · rw [hrenamed.eq_map ho]
      exact Object.wellFormed_map _ (hh.data id hid)
    · exact Object.wellFormed_of_not_settled fun ho' => ho (hrenamed.settled_iff.mp ho')
  · obtain ⟨id, hid, _, hrenamed⟩ := hobject id' hid'
    rw [mem_objectChildren] at hchild'
    by_cases ho : (h.object id).Settled
    · rw [hrenamed.eq_map ho, Object.children_map] at hchild'
      obtain ⟨v, hv, heq⟩ := List.mem_map.mp hchild'
      cases v with
      | scalar payload => cases heq
      | object child =>
        obtain rfl : e child = child' := Value.object.inj heq
        exact (hr.lt_size_iff child).mpr (hh.closed id hid child (mem_objectChildren.mpr hv))
    · rw [Object.children_of_not_settled fun ho' => ho (hrenamed.settled_iff.mp ho')] at hchild'
      cases hchild'

structure RenamedCall (e : Equiv.Perm Nat) (call call' : Heap × Value) : Prop where
  wellFormed : call.1.WellFormed
  root_in : call.2.In call.1
  heap : call.1.RenamedBy call'.1 e
  root : call'.2 = call.2.mapId e

namespace Writer
variable {e : Equiv.Perm Nat} {hash hash' : ContentHash} {orig orig' : Nat → Object Value}
variable {w w' : Writer} {h h' : Heap} {root : Value}

theorem matched_of_renamedBy (hh : h.WellFormed) (hr : h.RenamedBy h' e) (w w' : Writer)
    (orig orig' : Nat → Object Value) :
    h.Matched e (fun _ => True) w.sharing h' (w.view orig h) (w'.view orig' h') w.copied
      w'.copied where
  left := supplies_view hh w orig
  right := supplies_view (hr.wellFormed hh) w' orig'
  lt_size := fun id _ hid => (hr.lt_size_iff id).mpr hid
  renamed := fun id _ hid _ => hr.object id hid
  closed := fun _ _ _ _ _ _ => trivial
  merged := fun _ _ _ _ heq => .inl (e.injective heq)

theorem writeRoot_ne_tooLarge (h : Heap) (hroom : (w.compact hash h root).2 ≠ .error .tooLarge) :
    (w.writeRoot hash h root).2 ≠ some .tooLarge := by
  intro hlarge
  rcases compact_cases w hash h root with ⟨v, hv, _⟩ | ⟨v, e, hv, hcompact⟩
  · rw [hv] at hlarge
    cases hlarge
  · rw [hv] at hlarge
    cases hlarge
    rw [hcompact] at hroom
    exact hroom rfl

/-- One call has the same result on either side, if both have the same room or there is enough. -/
theorem Abreast.compact_renamed (hab : Abreast e (fun _ => True) hash hash' orig orig' w w')
    (hroom : w'.base = w.base ∨ (w.compact hash h root).2 ≠ .error .tooLarge)
    (hh : h.WellFormed) (hr : h.RenamedBy h' e) (hroot : root.In h) :
    (w'.compact hash' h' (root.mapId e)).2 = (w.compact hash h root).2 ∧
      Abreast e (fun _ => True) hash hash' (w.view orig h) (w'.view orig' h')
        (w.compact hash h root).1 (w'.compact hash' h' (root.mapId e)).1 :=
  ((hab.view_left h).view_right h').compact (matched_of_renamedBy hh hr w w' orig orig') hroot
    (fun _ _ => trivial) (.inr ⟨e.injective, hroom.imp_right (writeRoot_ne_tooLarge h)⟩)

theorem Abreast.calls_renamed {list list' : List (Heap × Value)}
    (hab : Abreast e (fun _ => True) hash hash' orig orig' w w')
    (hroom : w'.base = w.base ∨ ∀ result ∈ (w.calls hash list).2, result ≠ .error .tooLarge)
    (hcalls : List.Forall₂ (RenamedCall e) list list') :
    (w'.calls hash' list').2 = (w.calls hash list).2 ∧ ∃ orig₁ orig₁',
      Abreast e (fun _ => True) hash hash' orig₁ orig₁' (w.calls hash list).1
        (w'.calls hash' list').1 := by
  induction hcalls generalizing w w' orig orig' with
  | nil => exact ⟨rfl, orig, orig', hab⟩
  | @cons call call' rest rest' hcall _ ih =>
    obtain ⟨h, root⟩ := call
    obtain ⟨h', root'⟩ := call'
    obtain ⟨hh, hroot, hr, hroots⟩ := hcall
    obtain rfl : root' = root.mapId e := hroots
    rw [Writer.calls, List.forall_mem_cons] at hroom
    obtain ⟨hsame, hnext⟩ := hab.compact_renamed (hroom.imp_right And.left) hh hr hroot
    have hbase := (hab.left.grownFrom_compact hash h root).base
    have hbase' := (hab.right.grownFrom_compact hash' h' (root.mapId e)).base
    rw [← hbase, ← hbase'] at hroom
    obtain ⟨hresults, hlast⟩ := ih hnext (hroom.imp_right And.right)
    refine ⟨?_, hlast⟩
    rw [Writer.calls, Writer.calls, hsame, hresults]

end Writer

/-- The results, the bytes and the counts depend on the graph only, neither on how its objects are
numbered nor on how leaves are hashed. -/
theorem calls_of_renamed {c : WriterConfig} {w : Writer} (hcreate : Writer.create? c = .ok w)
    (hash hash' : ContentHash) (e : Equiv.Perm Nat) {calls calls' : List (Heap × Value)}
    (hcalls : List.Forall₂ (RenamedCall e) calls calls') :
    (w.calls hash calls).2 = (w.calls hash' calls').2 ∧
      (w.calls hash calls).1.data = (w.calls hash' calls').1.data ∧
      (w.calls hash calls).1.stats = (w.calls hash' calls').1.stats := by
  have hrest := Writer.atRest_of_create? hcreate
  have hstart := Writer.holding_of_create? hcreate hash fun _ => .array #[]
  have hstart' := Writer.holding_of_create? hcreate hash' fun _ => .array #[]
  have hbefore : Writer.Abreast e (fun _ => True) hash hash' _ _ w w :=
    hstart.abreast hstart' hrest hrest (UInt64.le_refl _) rfl
  obtain ⟨hresults, _, _, _, _, layout, ha⟩ := hbefore.calls_renamed (.inl rfl) hcalls
  have hbase := (hrest.grownFrom_calls hash calls).base
  have hbase' := (hrest.grownFrom_calls hash' calls').base
  refine ⟨hresults.symm, (ha.data_eq (hbase'.trans hbase.symm)).symm, ?_⟩
  exact (Stats.ext ha.roots_eq ha.objects_eq (ha.shared_eq e.injective)).symm

def turnedTwinHeap : Heap :=
  ⟨#[⟨.constructor 7 #[.object 0, .object 2, .object 1] #[], false⟩, ⟨.string #[104], false⟩,
    ⟨.string #[104], false⟩]⟩

def turnedTwinCalls : List (Heap × Value) :=
  [(turnedTwinHeap, .object 0), (turnedTwinHeap, .scalar ⟨5, five_lt_scalarLimit⟩)]

theorem twinHeap_renamedBy : twinHeap.RenamedBy turnedTwinHeap (Equiv.swap 0 2) := by
  have hsize : twinHeap.size = 3 := rfl
  have hsize' : turnedTwinHeap.size = 3 := rfl
  refine ⟨fun id => ?_, fun id hid => ?_⟩
  · rw [hsize, hsize', Equiv.swap_apply_def]
    split_ifs <;> omega
  · have hcases : id = 0 ∨ id = 1 ∨ id = 2 := by omega
    rcases hcases with rfl | rfl | rfl
    · exact Object.renamed_map _ _
    · exact Object.renamed_map _ _
    · have hturned : turnedTwinHeap.object (Equiv.swap 0 2 2) =
          (twinHeap.object 2).map (Value.mapId (Equiv.swap 0 2)) := by decide +kernel
      exact hturned ▸ Object.renamed_map _ _

/-- The constructor comes first or last, and leaves are hashed well or all alike: the image is the
same. -/
theorem twin_turned : List.Forall₂ (RenamedCall (Equiv.swap 0 2)) twinCalls turnedTwinCalls ∧
    ((Writer.start { base := 4096 }).calls (fun _ => 0) turnedTwinCalls).2 = [.ok (), .ok ()] ∧
    ((Writer.start { base := 4096 }).calls fingerprint twinCalls).1.data =
      ((Writer.start { base := 4096 }).calls (fun _ => 0) turnedTwinCalls).1.data ∧
    ((Writer.start { base := 4096 }).calls fingerprint twinCalls).1.stats =
      ((Writer.start { base := 4096 }).calls (fun _ => 0) turnedTwinCalls).1.stats := by
  have hrenamed : List.Forall₂ (RenamedCall (Equiv.swap 0 2)) twinCalls turnedTwinCalls :=
    .cons ⟨wellFormed_twinHeap, show 2 < twinHeap.size by decide, twinHeap_renamedBy, by decide⟩
      (.cons ⟨wellFormed_twinHeap, trivial, twinHeap_renamedBy, rfl⟩ .nil)
  obtain ⟨hresults, hdata, hstats⟩ := calls_of_renamed (c := { base := 4096 }) rfl fingerprint
    (fun _ => 0) (Equiv.swap 0 2) hrenamed
  exact ⟨hrenamed, hresults.symm.trans calls_twin, hdata, hstats⟩

end HeapImage
