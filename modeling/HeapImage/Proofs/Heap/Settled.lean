import HeapImage.Proofs.Heap.Made
import HeapImage.Proofs.Image.Renumbering

/-!
# Contents that stay

Compacted objects keep their contents, and a cell keeps what it was settled with first. The reader
accepts no cell that is not settled, so that nothing is left to settle in a loaded image. Whatever
an update does, it does to one object.
-/

namespace HeapImage
set_option autoImplicit false

/-- What a thunk, a task or a promise was settled with. -/
def Object.result? {ρ : Type} : Object ρ → Option ρ
  | .thunk (.forced value) => some value
  | .task result | .promise result => result
  | _ => none

def Kind.IsCell : Kind → Prop
  | .thunk | .task | .promise => True
  | _ => False

theorem Object.result?_ne_none_of_settled {ρ : Type} {o : Object ρ} (ho : o.Settled)
    (hkind : o.kind.IsCell) : o.result? ≠ none := by
  cases o with
  | thunk state =>
    cases state with
    | waiting closure => exact ho.elim
    | forced value => exact Option.some_ne_none value
  | task result | promise result =>
    cases result with
    | none => exact ho.elim
    | some value => exact Option.some_ne_none value
  | _ => exact hkind.elim

namespace Heap

def Update.target? : Update → Option Nat
  | .force v _ | .resolveTask v _ | .resolvePromise v _ | .setRef v _ | .setField v _ _ => v.id?
  | .build _ | .bigInteger .. | .load .. => none

/-- The value with which an update is to settle the object, if that is a cell of the given kind. -/
def Update.offer? (kind : Kind) (id : Nat) : Update → Option Value
  | .force v x => if kind = .thunk ∧ v = .object id then some x else none
  | .resolveTask v x => if kind = .task ∧ v = .object id then some x else none
  | .resolvePromise v x => if kind = .promise ∧ v = .object id then some x else none
  | _ => none

/-- What the object that an update is applied to becomes, and what it must be for that. -/
inductive Puts (h : Heap) : Update → Nat → Object Value → Prop where
  | force {id : Nat} {closure x : Value} : h.object id = .thunk (.waiting closure) →
      Puts h (.force (.object id) x) id (.thunk (.forced x))
  | resolveTask {id : Nat} {x : Value} : h.object id = .task none →
      Puts h (.resolveTask (.object id) x) id (.task (some x))
  | resolvePromise {id : Nat} {x : Value} : h.object id = .promise none →
      Puts h (.resolvePromise (.object id) x) id (.promise (some x))
  | setRef {id : Nat} {old x : Value} : h.object id = .mutableRef old →
      h.isCompacted (.object id) = false → Puts h (.setRef (.object id) x) id (.mutableRef x)
  | setField {id index : Nat} {x : Value} {tag : UInt16} {fields : Array Value} {scalars : Bytes}
      (hi : index < fields.size) : h.object id = .constructor tag fields scalars →
      h.isCompacted (.object id) = false →
      Puts h (.setField (.object id) index x) id (.constructor tag (fields.set index x) scalars)

def updates (h : Heap) (us : List Update) : Heap := us.foldl update h

/-- What an operation that settles a cell has answered. -/
def settlement? (h : Heap) : Update → Option Settlement
  | .force v x => (h.force v x).toOption.map Prod.snd
  | .resolveTask v x => (h.resolveTask v x).toOption.map Prod.snd
  | .resolvePromise v x => (h.resolvePromise v x).toOption.map Prod.snd
  | _ => none

section Updates
variable {h : Heap} {u : Update} {id : Nat} {o : Object Value}

theorem entry_append_of_lt (added : Array Entry) (hid : id < h.size) :
    (Heap.mk (h.entries ++ added)).entry id = h.entry id := by
  rw [entry, entry, Array.getD_eq_getD_getElem?, Array.getD_eq_getD_getElem?,
    Array.getElem?_append_left hid]

theorem exists_adopt_of_load {ε : Type} {h' : Heap} {bytes : Bytes} {declared : UInt64}
    {aligned mapped : Bool} {release : ε} {region : Region ε} {effects : List ε}
    (hload : Region.load h bytes declared aligned mapped release = (.ok (h', region), effects)) :
    ∃ g, bytes.load declared aligned h.size = .ok g ∧ h' = h.adopt g.objects := by
  unfold Region.load at hload
  dsimp only at hload
  split at hload
  · cases hload
  · rename_i g hg
    cases hload
    exact ⟨g, hg, rfl⟩

theorem update_load (h : Heap) (bytes : Bytes) (declared : UInt64) (aligned : Bool) :
    h.update (.load bytes declared aligned) =
      match bytes.load declared aligned h.size with
      | .ok g => h.adopt g.objects
      | .error _ => h := by
  rw [update, Region.load]
  cases bytes.load declared aligned h.size <;> rfl

/-- The objects of an image are settled, as no word that a cell of an image holds is zero. -/
theorem settled_of_mem_load {bytes : Bytes} {declared : UInt64} {aligned : Bool} {first : Nat}
    {g : ImageGraph} (hload : bytes.load declared aligned first = .ok g)
    (ho : o ∈ g.objects) : o.Settled := by
  obtain ⟨records, himage, rfl⟩ := isImage_of_load hload
  obtain ⟨number, hnumber⟩ := Array.mem_iff_getElem?.mp ho
  rw [getElem?_objects_imageGraph, Option.bind_eq_some_iff] at hnumber
  obtain ⟨r, hr, hobject⟩ := hnumber
  obtain ⟨raw, hraw, rfl⟩ := Option.map_eq_some_iff.mp hobject
  obtain ⟨hmem, _⟩ := mem_objectRecords.mp (List.mem_of_getElem? hr)
  exact (Object.settled_map _ raw).mpr (Record.settled_of_object? (himage.filled hmem) hraw)

/-- Of added objects, those that are compacted are settled. -/
def Adds (h : Heap) (added : Array Entry) (h' : Heap) : Prop :=
  h' = ⟨h.entries ++ added⟩ ∧ ∀ e ∈ added, e.compacted = true → e.object.Settled

theorem adds_nothing (h : Heap) : h.Adds #[] h :=
  ⟨by rw [Array.append_empty], fun _ he => absurd he (Array.not_mem_empty _)⟩

theorem adds_alloc (h : Heap) (o : Object Value) : h.Adds #[⟨o, false⟩] (h.alloc o).1 := by
  refine ⟨by rw [alloc, Array.push_eq_append], fun e he hc => ?_⟩
  rw [List.mem_singleton.mp (Array.mem_toList_iff.mpr he)] at hc
  cases hc

theorem adds_adopt {bytes : Bytes} {declared : UInt64} {aligned : Bool} {first : Nat}
    {g : ImageGraph} (hload : bytes.load declared aligned first = .ok g) :
    h.Adds (g.objects.map fun o => ⟨o, true⟩) (h.adopt g.objects) := by
  refine ⟨rfl, fun e he _ => ?_⟩
  obtain ⟨o, ho, rfl⟩ := Array.mem_map.mp he
  exact settled_of_mem_load hload ho

/-- All that an update can do: it adds objects, possibly none, or it replaces the object that it is
applied to. -/
theorem update_cases (h : Heap) (u : Update) :
    (∃ added, h.Adds added (h.update u)) ∨ ∃ id o, h.Puts u id o ∧ h.update u = h.put id o := by
  have hsame : ∃ added, h.Adds added h := ⟨#[], h.adds_nothing⟩
  cases u with
  | build o =>
    left
    rw [update, build]
    split
    · exact hsame
    · exact ⟨_, h.adds_alloc o⟩
  | bigInteger negative limbs => exact .inl ⟨_, h.adds_alloc _⟩
  | load bytes declared aligned =>
    left
    rw [update_load]
    split
    · rename_i g hg
      exact ⟨_, adds_adopt hg⟩
    · exact hsame
  | force v x =>
    rw [update, Heap.force]
    split
    · rename_i id closure hv
      obtain ⟨rfl, hobject⟩ := object?_eq_some hv
      exact .inr ⟨id, _, .force hobject, rfl⟩
    · exact .inl hsame
    · exact .inl hsame
  | resolveTask v x =>
    rw [update, Heap.resolveTask]
    split
    · rename_i id hv
      obtain ⟨rfl, hobject⟩ := object?_eq_some hv
      exact .inr ⟨id, _, .resolveTask hobject, rfl⟩
    · exact .inl hsame
    · exact .inl hsame
  | resolvePromise v x =>
    rw [update, Heap.resolvePromise]
    split
    · rename_i id hv
      obtain ⟨rfl, hobject⟩ := object?_eq_some hv
      exact .inr ⟨id, _, .resolvePromise hobject, rfl⟩
    · exact .inl hsame
    · exact .inl hsame
  | setRef v x =>
    rw [update, Heap.setRef]
    split
    · rename_i id contents hv
      obtain ⟨rfl, hobject⟩ := object?_eq_some hv
      split
      · exact .inl hsame
      · rename_i hlive
        exact .inr ⟨id, _, .setRef hobject (Bool.eq_false_iff.mpr hlive), rfl⟩
    · exact .inl hsame
  | setField v index x =>
    rw [update, Heap.setField]
    split
    · rename_i id tag fields scalars hv
      obtain ⟨rfl, hobject⟩ := object?_eq_some hv
      split
      · exact .inl hsame
      · rename_i hlive
        split
        · rename_i hi
          exact .inr ⟨id, _, .setField hi hobject (Bool.eq_false_iff.mpr hlive), rfl⟩
        · exact .inl hsame
    · exact .inl hsame

namespace Puts

theorem target (hp : h.Puts u id o) : u.target? = some id := by
  cases hp <;> rfl

theorem kind_eq (hp : h.Puts u id o) : o.kind = (h.object id).kind := by
  cases hp with
  | force hobject | resolveTask hobject | resolvePromise hobject => rw [hobject]; rfl
  | setRef hobject _ | setField _ hobject _ => rw [hobject]; rfl

/-- What is replaced is live, or a cell that was not settled. -/
theorem not_settled_of_compacted (hp : h.Puts u id o)
    (hcompacted : h.isCompacted (.object id) = true) : ¬(h.object id).Settled := by
  intro hsettled
  cases hp with
  | force hobject | resolveTask hobject | resolvePromise hobject =>
    rw [hobject] at hsettled
    exact hsettled
  | setRef _ hlive | setField _ _ hlive =>
    rw [hlive] at hcompacted
    cases hcompacted

end Puts

theorem size_le_update (h : Heap) (u : Update) : h.size ≤ (h.update u).size := by
  rcases h.update_cases u with ⟨added, heq, _⟩ | ⟨id, o, _, heq⟩
  · rw [heq, size, size, Array.size_append]
    exact Nat.le_add_right _ _
  · rw [heq, size_put]

theorem entry_update_of_ne (hid : id < h.size) (hne : u.target? ≠ some id) :
    (h.update u).entry id = h.entry id := by
  rcases h.update_cases u with ⟨added, heq, _⟩ | ⟨other, o, hp, heq⟩
  · rw [heq, entry_append_of_lt added hid]
  · rw [heq, entry_put_ne]
    rintro rfl
    exact hne hp.target

theorem kind_update (hid : id < h.size) (u : Update) :
    (h.update u).kind (.object id) = h.kind (.object id) := by
  rcases h.update_cases u with ⟨added, heq, _⟩ | ⟨other, o, hp, heq⟩
  · rw [heq, kind, object, entry_append_of_lt added hid]
    rfl
  · by_cases hother : other = id
    · subst hother
      rw [heq, kind, object, entry_put_self hid]
      exact hp.kind_eq
    · rw [heq, kind, object, entry_put_ne hother]
      rfl

theorem lt_size_of_isCompacted (hc : h.isCompacted (.object id) = true) : id < h.size := by
  by_contra hid
  rw [isCompacted, entry_of_size_le (Nat.not_lt.mp hid)] at hc
  cases hc

end Updates

section Compacted
variable {h : Heap} {id : Nat}

@[simp] theorem isCompacted_put (h : Heap) (id : Nat) (o : Object Value) (v : Value) :
    (h.put id o).isCompacted v = h.isCompacted v := by
  cases v with
  | scalar payload => rfl
  | object other =>
    rw [isCompacted, isCompacted]
    by_cases hne : id = other
    · subst hne
      by_cases hid : id < h.size
      · rw [entry_put_self hid]
      · have hsize : h.size ≤ id := Nat.not_lt.mp hid
        rw [entry_of_size_le hsize, entry_of_size_le (by rwa [size_put])]
    · rw [entry_put_ne hne]

/-- Nothing is left to settle in compacted objects. -/
def CompactedSettled (h : Heap) : Prop :=
  ∀ id, h.isCompacted (.object id) = true → (h.object id).Settled

theorem CompactedSettled.entry_update (hs : h.CompactedSettled) (u : Update)
    (hc : h.isCompacted (.object id) = true) : (h.update u).entry id = h.entry id := by
  rcases h.update_cases u with ⟨added, heq, _⟩ | ⟨other, o, hp, heq⟩
  · rw [heq, entry_append_of_lt added (lt_size_of_isCompacted hc)]
  · rw [heq, entry_put_ne]
    rintro rfl
    exact hp.not_settled_of_compacted hc (hs _ hc)

theorem CompactedSettled.update (hs : h.CompactedSettled) (u : Update) :
    (h.update u).CompactedSettled := by
  intro id hc
  by_cases hold : h.isCompacted (.object id) = true
  · rw [object, hs.entry_update u hold]
    exact hs id hold
  rcases h.update_cases u with ⟨added, heq, hadded⟩ | ⟨other, o, _, heq⟩
  · have hid : ¬id < h.size := by
      intro hid
      rw [heq, isCompacted, entry_append_of_lt added hid] at hc
      exact hold hc
    have hlt := lt_size_of_isCompacted hc
    rw [heq, size, Array.size_append] at hlt
    have hentry : (h.update u).entry id ∈ added := by
      rw [size] at hid
      rw [heq, entry, Array.getD_eq_getD_getElem?, Array.getElem?_append_right (by omega),
        Array.getElem?_eq_getElem (by omega), Option.getD_some]
      exact Array.getElem_mem _
    exact hadded _ hentry hc
  · rw [heq, isCompacted_put] at hc
    exact absurd hc hold

/-- Heaps made by the operations have compacted objects from images only. -/
theorem Made.compactedSettled (hm : h.Made) : h.CompactedSettled := by
  induction hm with
  | empty => exact fun id hc => absurd (lt_size_of_isCompacted hc) (Nat.not_lt_zero id)
  | build _ _ _ ih => exact ih.update (.build _)
  | bigInteger negative limbs _ ih => exact ih.update (.bigInteger negative limbs)
  | @force h h' v x s _ _ hf ih =>
    have hupdate := ih.update (.force v x)
    rwa [Heap.update, hf] at hupdate
  | @resolveTask h h' v x s _ _ hr ih =>
    have hupdate := ih.update (.resolveTask v x)
    rwa [Heap.update, hr] at hupdate
  | @resolvePromise h h' v x s _ _ hr ih =>
    have hupdate := ih.update (.resolvePromise v x)
    rwa [Heap.update, hr] at hupdate
  | @setRef h h' v x old _ _ hs ih =>
    have hupdate := ih.update (.setRef v x)
    rwa [Heap.update, hs] at hupdate
  | @setField h h' v x old index _ _ hs ih =>
    have hupdate := ih.update (.setField v index x)
    rwa [Heap.update, hs] at hupdate
  | @load _ h h' bytes declared aligned _ _ _ _ _ hload ih =>
    obtain ⟨g, hg, rfl⟩ := exists_adopt_of_load hload
    have hupdate := ih.update (.load bytes declared aligned)
    rwa [update_load, hg] at hupdate

theorem CompactedSettled.updates (hs : h.CompactedSettled) (us : List Update) :
    (h.updates us).CompactedSettled := by
  induction us generalizing h with
  | nil => exact hs
  | cons u rest ih => exact ih (hs.update u)

theorem CompactedSettled.entry_updates (hs : h.CompactedSettled) (us : List Update)
    (hc : h.isCompacted (.object id) = true) : (h.updates us).entry id = h.entry id := by
  induction us generalizing h with
  | nil => rfl
  | cons u rest ih =>
    have hentry := hs.entry_update u hc
    exact (ih (hs.update u) (by rwa [isCompacted, hentry])).trans hentry

end Compacted

section Cells
variable {h : Heap} {u : Update} {id : Nat} {o : Object Value}

theorem force_eq (hkind : h.kind (.object id) = .thunk) (x : Value) :
    h.force (.object id) x = .ok (if (h.object id).result? = none then
      (h.put id (.thunk (.forced x)), .settled) else (h, .handedBack x)) := by
  rw [kind] at hkind
  rw [Heap.force, object?]
  cases ho : h.object id <;> rw [ho] at hkind <;> cases hkind
  rename_i state
  cases state <;> rfl

theorem resolveTask_eq (hkind : h.kind (.object id) = .task) (x : Value) :
    h.resolveTask (.object id) x = .ok (if (h.object id).result? = none then
      (h.put id (.task (some x)), .settled) else (h, .handedBack x)) := by
  rw [kind] at hkind
  rw [Heap.resolveTask, object?]
  cases ho : h.object id <;> rw [ho] at hkind <;> cases hkind
  rename_i result
  cases result <;> rfl

theorem resolvePromise_eq (hkind : h.kind (.object id) = .promise) (x : Value) :
    h.resolvePromise (.object id) x = .ok (if (h.object id).result? = none then
      (h.put id (.promise (some x)), .settled) else (h, .handedBack x)) := by
  rw [kind] at hkind
  rw [Heap.resolvePromise, object?]
  cases ho : h.object id <;> rw [ho] at hkind <;> cases hkind
  rename_i result
  cases result <;> rfl

theorem closure?_eq_ok_none_iff (hkind : h.kind (.object id) = .thunk) :
    h.closure? (.object id) = .ok none ↔ (h.object id).result? ≠ none := by
  rw [kind] at hkind
  rw [Heap.closure?, object?]
  cases ho : h.object id <;> rw [ho] at hkind <;> cases hkind
  rename_i state
  cases state <;> simp [Object.result?]

/-- A compacted object hands back what it is to be settled with, and refuses every other change. -/
structure Frozen (h : Heap) (id : Nat) : Prop where
  force : h.kind (.object id) = .thunk → ∀ x, h.force (.object id) x = .ok (h, .handedBack x)
  resolveTask : h.kind (.object id) = .task →
    ∀ x, h.resolveTask (.object id) x = .ok (h, .handedBack x)
  resolvePromise : h.kind (.object id) = .promise →
    ∀ x, h.resolvePromise (.object id) x = .ok (h, .handedBack x)
  setRef : h.kind (.object id) = .mutableRef → ∀ x, h.setRef (.object id) x = .error (.frozen x)
  setField : ∀ index x, h.setField (.object id) index x = .error .notLiveConstructor

theorem CompactedSettled.frozen (hs : h.CompactedSettled)
    (hc : h.isCompacted (.object id) = true) : h.Frozen id := by
  have hresult : (h.kind (.object id)).IsCell → (h.object id).result? ≠ none :=
    Object.result?_ne_none_of_settled (hs id hc)
  refine ⟨?_, ?_, ?_, ?_, ?_⟩
  · intro hkind x
    rw [force_eq hkind, if_neg (hresult (hkind ▸ trivial))]
  · intro hkind x
    rw [resolveTask_eq hkind, if_neg (hresult (hkind ▸ trivial))]
  · intro hkind x
    rw [resolvePromise_eq hkind, if_neg (hresult (hkind ▸ trivial))]
  · intro hkind x
    rw [kind] at hkind
    rw [Heap.setRef, object?, hc]
    cases ho : h.object id <;> rw [ho] at hkind <;> cases hkind
    rfl
  · intro index x
    rw [Heap.setField, object?, hc]
    cases h.object id <;> rfl

theorem lt_size_of_kind (hkind : h.kind (.object id) ≠ .array) : id < h.size := by
  by_contra hid
  rw [kind, object_of_size_le (Nat.not_lt.mp hid)] at hkind
  exact hkind rfl

/-- The answer of an operation that settles a cell, and what the cell holds after it. -/
theorem settle_cell {x : Value} {result : Except Misuse (Heap × Settlement)} (hid : id < h.size)
    (ho : o.result? = some x)
    (hresult : result = .ok (if (h.object id).result? = none then (h.put id o, .settled)
      else (h, .handedBack x))) :
    result.toOption.map Prod.snd =
        some (if (h.object id).result? = none then .settled else .handedBack x) ∧
      ((h.after result).object id).result? = (h.object id).result?.or (some x) := by
  subst hresult
  cases hbefore : (h.object id).result? with
  | none =>
    refine ⟨rfl, ?_⟩
    rw [if_pos rfl, Option.none_or, after, object, entry_put_self hid, ho]
  | some y =>
    refine ⟨rfl, ?_⟩
    rw [if_neg (Option.some_ne_none y), Option.some_or, after, hbefore]

/-- An update that is to settle a cell does so, or hands back its value. -/
theorem settlement?_eq {x : Value} (hoffer : u.offer? (h.kind (.object id)) id = some x) :
    h.settlement? u = some (if (h.object id).result? = none then .settled else .handedBack x) ∧
      ((h.update u).object id).result? = (h.object id).result?.or (some x) := by
  cases u with
  | force v y =>
    obtain ⟨⟨hkind, rfl⟩, hx⟩ := Option.ite_none_right_eq_some.mp hoffer
    obtain rfl : y = x := Option.some.inj hx
    exact settle_cell (lt_size_of_kind (by rw [hkind]; nofun)) rfl (force_eq hkind y)
  | resolveTask v y =>
    obtain ⟨⟨hkind, rfl⟩, hx⟩ := Option.ite_none_right_eq_some.mp hoffer
    obtain rfl : y = x := Option.some.inj hx
    exact settle_cell (lt_size_of_kind (by rw [hkind]; nofun)) rfl (resolveTask_eq hkind y)
  | resolvePromise v y =>
    obtain ⟨⟨hkind, rfl⟩, hx⟩ := Option.ite_none_right_eq_some.mp hoffer
    obtain rfl : y = x := Option.some.inj hx
    exact settle_cell (lt_size_of_kind (by rw [hkind]; nofun)) rfl (resolvePromise_eq hkind y)
  | _ => cases hoffer

/-- Only what is offered to a cell can become its contents. -/
theorem result?_update (hid : id < h.size) (u : Update) :
    ((h.update u).object id).result? =
      (h.object id).result?.or (u.offer? (h.kind (.object id)) id) := by
  cases hoffer : u.offer? (h.kind (.object id)) id with
  | some x => exact (settlement?_eq hoffer).2
  | none =>
    rw [Option.or_none]
    rcases h.update_cases u with ⟨added, heq, _⟩ | ⟨other, o, hp, heq⟩
    · rw [heq, object, entry_append_of_lt added hid]
      rfl
    · by_cases hne : other = id
      · subst hne
        rw [heq, object, entry_put_self hid]
        rw [kind] at hoffer
        cases hp with
        | force hobject | resolveTask hobject | resolvePromise hobject =>
          rw [hobject] at hoffer
          cases (if_pos ⟨rfl, rfl⟩).symm.trans hoffer
        | setRef hobject _ | setField _ hobject _ =>
          rw [hobject]
          rfl
      · rw [heq, object, entry_put_ne hne]
        rfl

theorem kind_updates (hid : id < h.size) (us : List Update) :
    (h.updates us).kind (.object id) = h.kind (.object id) := by
  induction us generalizing h with
  | nil => rfl
  | cons u rest ih => exact (ih (hid.trans_le (h.size_le_update u))).trans (kind_update hid u)

/-- A cell holds what it was settled with at first, else the first value that it was offered. -/
theorem result?_updates (hid : id < h.size) (us : List Update) :
    ((h.updates us).object id).result? =
      (h.object id).result?.or (us.findSome? (Update.offer? (h.kind (.object id)) id)) := by
  induction us generalizing h with
  | nil => rw [List.findSome?_nil, Option.or_none, updates, List.foldl_nil]
  | cons u rest ih =>
    have hrest := ih (hid.trans_le (h.size_le_update u))
    rw [kind_update hid, result?_update hid] at hrest
    rw [updates, List.foldl_cons]
    apply hrest.trans
    rw [Option.or_assoc, List.findSome?_cons]
    cases u.offer? (h.kind (.object id)) id <;> rfl

/-- Of the updates that are to settle a cell the first one does, unless the cell is settled by
then, and all others get back what they were given. The cell keeps what it was settled with. -/
structure SettledOnce (h : Heap) (us : List Update) (id : Nat) : Prop where
  answer : ∀ earlier u later x, us = earlier ++ u :: later →
    u.offer? (h.kind (.object id)) id = some x → (h.updates earlier).settlement? u =
      some (if (h.object id).result? = none ∧
          ∀ other ∈ earlier, other.offer? (h.kind (.object id)) id = none
        then .settled else .handedBack x)
  contents : ((h.updates us).object id).result? =
    (h.object id).result?.or (us.findSome? (Update.offer? (h.kind (.object id)) id))
  closure : h.kind (.object id) = .thunk →
    ((h.updates us).closure? (.object id) = .ok none ↔ ((h.updates us).object id).result? ≠ none)

theorem settledOnce (hid : id < h.size) (us : List Update) : h.SettledOnce us id := by
  refine ⟨?_, result?_updates hid us, ?_⟩
  · intro earlier u later x _ hoffer
    rw [← kind_updates hid earlier] at hoffer
    rw [(settlement?_eq hoffer).1, result?_updates hid earlier]
    simp only [Option.or_eq_none_iff, List.findSome?_eq_none_iff]
  · intro hkind
    exact closure?_eq_ok_none_iff ((kind_updates hid us).trans hkind)

end Cells

theorem updates_append (h : Heap) (earlier later : List Update) :
    h.updates (earlier ++ later) = (h.updates earlier).updates later :=
  List.foldl_append

theorem isCompacted_of_load {h : Heap} {bytes : Bytes} {declared : UInt64} {aligned : Bool}
    {id : Nat} (hnew : h.size ≤ id)
    (hid : id < (h.update (.load bytes declared aligned)).size) :
    (h.update (.load bytes declared aligned)).isCompacted (.object id) = true := by
  rw [update_load] at hid ⊢
  cases hload : bytes.load declared aligned h.size with
  | error e =>
    rw [hload] at hid
    exact absurd hid (Nat.not_lt.mpr hnew)
  | ok g =>
    rw [hload] at hid
    obtain ⟨number, rfl⟩ := Nat.exists_eq_add_of_le hnew
    have hlt : number < g.objects.size := by
      rw [size_adopt] at hid
      exact Nat.lt_of_add_lt_add_left hid
    rw [isCompacted, entry_adopt_add (Array.getElem?_eq_getElem hlt)]

/-- Whatever a program does to its heap: what a load has added, like everything else that is
compacted, stays as it is; a cell is settled once; and an update changes nothing but the object that
it is applied to. -/
theorem Made.contents_kept {h : Heap} (hm : h.Made) (us : List Update) :
    (∀ earlier later, us = earlier ++ later → ∀ id,
      (h.updates earlier).isCompacted (.object id) = true →
        (h.updates us).entry id = (h.updates earlier).entry id ∧ (h.updates us).Frozen id) ∧
    (∀ earlier bytes declared aligned, ∀ id, (h.updates earlier).size ≤ id →
      id < (h.updates (earlier ++ [.load bytes declared aligned])).size →
        (h.updates (earlier ++ [.load bytes declared aligned])).isCompacted (.object id) = true) ∧
    (∀ id, id < h.size → h.SettledOnce us id) ∧
    ∀ u id, id < (h.updates us).size → u.target? ≠ some id →
      ((h.updates us).update u).entry id = (h.updates us).entry id := by
  refine ⟨?_, ?_, fun id hid => settledOnce hid us, fun u id => entry_update_of_ne⟩
  · intro earlier later hsplit id hc
    have hentry := (hm.compactedSettled.updates earlier).entry_updates later hc
    rw [← updates_append, ← hsplit] at hentry
    refine ⟨hentry, (hm.compactedSettled.updates us).frozen ?_⟩
    rwa [isCompacted, hentry]
  · intro earlier bytes declared aligned id hnew hid
    rw [updates_append] at hid ⊢
    exact isCompacted_of_load hnew hid

def lazyHeap : Heap := ⟨#[⟨.thunk (.waiting (.scalar ⟨3, by decide⟩)), false⟩]⟩

/-- An image of a thunk that holds a constructor, whose fields are a task and a promise; the task
holds the scalar five, and the promise holds the thunk. -/
def cells : Bytes :=
  (leBytes 8 magic ++ leBytes 8 4096 ++
    (leBytes 4 0 ++ leBytes 4 4 ++ leBytes 8 (4096 + 72) ++ leBytes 8 0) ++
    (leBytes 4 0 ++ leBytes 4 5 ++ leBytes 8 (2 * 5 + 1)) ++
    (leBytes 4 0 ++ leBytes 4 6 ++ leBytes 8 (4096 + 16)) ++
    (leBytes 4 0 ++ leBytes 4 (16 * 7) ++ leBytes 8 2 ++ leBytes 8 0 ++ leBytes 8 (4096 + 40) ++
      leBytes 8 (4096 + 56)) ++
    (leBytes 4 0 ++ leBytes 4 15 ++ leBytes 8 (4096 + 72))).toArray

/-- The image is loaded, the live thunk is forced twice, and then everything that was loaded is to
be changed. -/
def lazyUpdates : List Update :=
  [.load cells 4096 true, .force (.object 0) (.object 1), .force (.object 0) (.object 2),
    .force (.object 1) (.object 0), .resolveTask (.object 2) (.object 0),
    .resolvePromise (.object 3) (.object 0), .setField (.object 4) 0 (.object 0)]

theorem made_lazyHeap : lazyHeap.Made :=
  Made.empty.build (o := .thunk (.waiting (.scalar ⟨3, by decide⟩))) nofun nofun

set_option maxRecDepth 4096 in
theorem updates_lazy : lazyHeap.updates (lazyUpdates.take 1) =
    ⟨#[⟨.thunk (.waiting (.scalar ⟨3, by decide⟩)), false⟩, ⟨.thunk (.forced (.object 4)), true⟩,
      ⟨.task (some (.scalar ⟨5, by decide⟩)), true⟩, ⟨.promise (some (.object 1)), true⟩,
      ⟨.constructor 7 #[.object 2, .object 3] #[], true⟩]⟩ := by
  cbv

/-- The live thunk keeps the first value. What was loaded keeps its contents, and the loaded cells
hand back whatever they are to be settled with. -/
theorem lazy_kept :
    lazyHeap.Made ∧
    ((lazyHeap.updates lazyUpdates).object 0).result? = some (.object 1) ∧
    (lazyHeap.updates (lazyUpdates.take 2)).settlement? (.force (.object 0) (.object 2)) =
      some (.handedBack (.object 2)) ∧
    (∀ id, 1 ≤ id → id ≤ 4 → (lazyHeap.updates lazyUpdates).entry id =
      (lazyHeap.updates (lazyUpdates.take 1)).entry id) ∧
    ∀ x, (lazyHeap.updates lazyUpdates).force (.object 1) x =
        .ok (lazyHeap.updates lazyUpdates, .handedBack x) ∧
      (lazyHeap.updates lazyUpdates).resolveTask (.object 2) x =
        .ok (lazyHeap.updates lazyUpdates, .handedBack x) ∧
      (lazyHeap.updates lazyUpdates).resolvePromise (.object 3) x =
        .ok (lazyHeap.updates lazyUpdates, .handedBack x) := by
  obtain ⟨hcompacted, hload, honce, _⟩ := made_lazyHeap.contents_kept lazyUpdates
  have hcell := honce 0 (by decide)
  have hsize : (lazyHeap.updates ([] ++ [.load cells 4096 true])).size = 5 :=
    congrArg Heap.size updates_lazy
  have hloaded : ∀ id, 1 ≤ id → id ≤ 4 →
      (lazyHeap.updates lazyUpdates).entry id = (lazyHeap.updates (lazyUpdates.take 1)).entry id ∧
        (lazyHeap.updates lazyUpdates).Frozen id := by
    intro id hle hlt
    apply hcompacted (lazyUpdates.take 1) (lazyUpdates.drop 1) rfl
    exact hload [] cells 4096 true id hle (by omega)
  have hkind : ∀ id, 1 ≤ id → id ≤ 4 → (lazyHeap.updates lazyUpdates).kind (.object id) =
      ((lazyHeap.updates (lazyUpdates.take 1)).entry id).object.kind := by
    intro id hle hlt
    rw [kind, object, (hloaded id hle hlt).1]
  rw [updates_lazy] at hkind
  refine ⟨made_lazyHeap, hcell.contents, ?_, fun id hle hlt => (hloaded id hle hlt).1,
    fun x => ⟨?_, ?_, ?_⟩⟩
  · exact hcell.answer (lazyUpdates.take 2) _ (lazyUpdates.drop 3) _ rfl rfl
  · exact (hloaded 1 (by decide) (by decide)).2.force (hkind 1 (by decide) (by decide)) x
  · exact (hloaded 2 (by decide) (by decide)).2.resolveTask (hkind 2 (by decide) (by decide)) x
  · exact (hloaded 3 (by decide) (by decide)).2.resolvePromise (hkind 3 (by decide) (by decide)) x

end Heap
end HeapImage
