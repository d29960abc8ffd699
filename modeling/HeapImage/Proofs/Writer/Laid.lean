import HeapImage.Proofs.Image.Decoding
import HeapImage.Proofs.Writer.LeafKey
import HeapImage.Proofs.Writer.Written

/-!
# The invariant of a writer

At every moment of a call the bytes of a writer are those of a layout. Its references are filled in
or on the list of what is to be done, every object that was copied has its entry, and the table of
leaves has every leaf. One step adds an entry, or shares an old one, or fills in a reference.
-/

namespace HeapImage
set_option autoImplicit false

namespace Object
variable {o : Object Value} {hasRoom : Nat → Bool}

theorem settled_of_obstacle? (h : o.obstacle? hasRoom = none) : o.Settled := by
  cases o with
  | thunk state =>
    cases state with
    | waiting closure => cases h
    | forced value => trivial
  | task result | promise result =>
    cases result with
    | none => cases h
    | some value => trivial
  | _ => trivial

theorem obstacle?_of_settled (ho : o.Settled) : o.obstacle? hasRoom =
    o.recordSize?.elim (some .tooLarge) fun size =>
      if hasRoom size then none else some .tooLarge := by
  unfold obstacle?
  split
  · exact ho.elim
  · exact ho.elim
  · exact ho.elim
  · cases o.recordSize? <;> rfl

theorem obstacle?_eq_none_iff :
    o.obstacle? hasRoom = none ↔
      o.Settled ∧ ∃ size, o.recordSize? = some size ∧ hasRoom size = true := by
  have hroom : o.recordSize?.elim (some Obstacle.tooLarge) (fun size =>
      if hasRoom size then none else some .tooLarge) = none ↔
      ∃ size, o.recordSize? = some size ∧ hasRoom size = true := by
    cases o.recordSize? with
    | none => simp
    | some size => simp
  constructor
  · intro h
    have hsettled := settled_of_obstacle? h
    rw [obstacle?_of_settled hsettled] at h
    exact ⟨hsettled, hroom.mp h⟩
  · intro h
    rw [obstacle?_of_settled h.1]
    exact hroom.mpr h.2

theorem mem_holes {pos : Nat} {hole : Hole} :
    hole ∈ o.holes pos ↔ (hole.slot, .object hole.child) ∈ o.slots pos := by
  simp only [holes, List.mem_filterMap, Option.map_eq_some_iff]
  constructor
  · intro hsome
    obtain ⟨⟨slot, v⟩, hmem, id, hid, rfl⟩ := hsome
    cases v with
    | scalar payload => cases hid
    | object id' => exact Option.some.inj hid ▸ hmem
  · intro hmem
    exact ⟨_, hmem, hole.child, rfl, rfl⟩

theorem holes_of_isLeaf (ho : o.isLeaf = true) (pos : Nat) : o.holes pos = [] := by
  rw [holes, slots, children_eq_nil_of_isLeaf ho]
  rfl

end Object

namespace Writer

/-- The word of a reference stands for its value, unless it is still to be filled in. -/
def Filled (w : Writer) (f : Nat → Nat) (holes : List Hole) (slot : Nat) : Value → Prop
  | .scalar payload => f slot = scalarWord payload
  | .object id => ⟨slot, id⟩ ∈ holes ∨ w.copied[id]? = some (f slot)

/-- The word that is stored for a value. -/
def Stores (w : Writer) (word : Nat) : Value → Prop
  | .scalar payload => word = scalarWord payload
  | .object id => w.copied[id]? = some word

/-- The writer holds a layout, with the words `f` for its references, of which those in `holes` are
still to be filled in. Every object was as `orig` says when it was copied. -/
structure Laid (w : Writer) (hash : ContentHash) (orig : Nat → Object Value)
    (layout : List Entry) (f : Nat → Nat) (holes : List Hole) : Prop where
  base_mod : w.base.toNat % 8 = 0
  bytes : w.buffer.bytes.toList = imageBytes w.base.toNat f layout
  room : layout ≠ [] → w.size ≤ sizeLimit ∧ w.base.toNat + w.size < wordLimit
  valid : ∀ e ∈ layout, e.Valid
  filled : ∀ slot v, (slot, v) ∈ slotsFrom headerSize layout → w.Filled f holes slot v
  holes : ∀ hole ∈ holes, (hole.slot, .object hole.child) ∈ slotsFrom headerSize layout
  /-- An object refers to its own entry, or to that of an equal leaf. -/
  copied : ∀ id word, w.copied[id]? = some word → ∃ off owner, word = w.base.toNat + off ∧
    (off, .object owner (orig id)) ∈ placed headerSize layout ∧
    (owner = id ∨ w.sharing = true ∧ (orig id).isLeaf = true)
  owned : ∀ off owner o, (off, .object owner o) ∈ placed headerSize layout →
    w.copied[owner]? = some (w.base.toNat + off)
  leaves : w.sharing = true → ∀ (key : UInt64) leaf, leaf ∈ w.leaves.getD key [] ↔
    ∃ owner o, (leaf.offset, .object owner o) ∈ placed headerSize layout ∧ o.isLeaf = true ∧
      leaf.size = roundUp o.extent ∧ hash o.leafKey = key
  distinct : w.sharing = true → ∀ off off' owner owner' o,
    (off, .object owner o) ∈ placed headerSize layout →
    (off', .object owner' o) ∈ placed headerSize layout → o.isLeaf = true → off = off'
  roots : w.stats.roots = (rootsOf layout).length
  objects : w.stats.objects = (ownersOf layout).length
  /-- Objects that were copied without an entry of their own are counted as shared. -/
  counted : w.copied.size = w.stats.objects + w.stats.shared

theorem mem_keys_copied {w : Writer} {id : Nat} :
    id ∈ w.copied.keys ↔ ∃ word, w.copied[id]? = some word := by
  rw [Std.ExtTreeMap.mem_keys, Std.ExtTreeMap.mem_iff_isSome_getElem?, Option.isSome_iff_exists]

def copies (w : Writer) : Finset Nat := w.copied.keys.toFinset

theorem mem_copies {w : Writer} {id : Nat} :
    id ∈ w.copies ↔ ∃ word : Nat, w.copied[id]? = some word := by
  rw [copies, List.mem_toFinset, mem_keys_copied]

namespace Laid
variable {w w' : Writer} {hash : ContentHash} {orig : Nat → Object Value} {layout : List Entry}
variable {f g : Nat → Nat} {holes : List Hole} {id : Nat}

theorem size_eq (hl : Laid w hash orig layout f holes) :
    w.size = headerSize + totalSize layout :=
  Buffer.size_of_toList hl.bytes

theorem data_eq (hl : Laid w hash orig layout f holes) :
    w.data.toList = imageBytes w.base.toNat f layout :=
  hl.bytes

theorem limit (hl : Laid w hash orig layout f holes) (hne : layout ≠ []) :
    w.base.toNat + w.data.size < wordLimit :=
  (hl.room hne).2

theorem size_lt (hl : Laid w hash orig layout f holes) : w.data.size < wordLimit := by
  by_cases hne : layout = []
  · have hsize : w.data.size = headerSize + totalSize layout := hl.size_eq
    rw [hsize, hne]
    decide
  · exact Nat.lt_of_le_of_lt (Nat.le_add_left _ _) (hl.limit hne)

theorem tiling (hl : Laid w hash orig layout f holes) :
    Tiling w.data w.base.toNat headerSize (recordsOf headerSize layout) :=
  tiling_of_shows (shows_layout hl.data_eq) hl.size_eq.symm hl.size_lt hl.valid

theorem copied_of_nil (hl : Laid w hash orig [] f holes) (id : Nat) : w.copied[id]? = none := by
  cases hc : w.copied[id]? with
  | none => rfl
  | some word =>
    obtain ⟨_, _, _, hmem, _⟩ := hl.copied id word hc
    cases hmem

/-- What is on the list of things to do, or was noted to be undone, does not matter. -/
theorem of_eq (hl : Laid w hash orig layout f holes) (hbytes : w'.buffer.bytes = w.buffer.bytes)
    (hbase : w'.base = w.base) (hsharing : w'.sharing = w.sharing) (hcopied : w'.copied = w.copied)
    (hleaves : w'.leaves = w.leaves) (hstats : w'.stats = w.stats) :
    Laid w' hash orig layout f holes := by
  obtain ⟨⟨_, _⟩, _, _, _, _, _, _, _, _⟩ := w
  obtain ⟨⟨_, _⟩, _, _, _, _, _, _, _, _⟩ := w'
  cases hbytes
  cases hbase
  cases hsharing
  cases hcopied
  cases hleaves
  cases hstats
  exact ⟨hl.base_mod, hl.bytes, hl.room, hl.valid, hl.filled, hl.holes, hl.copied, hl.owned,
    hl.leaves, hl.distinct, hl.roots, hl.objects, hl.counted⟩

/-- Only what copied objects were matters. -/
theorem congr_orig {orig' : Nat → Object Value} (hl : Laid w hash orig layout f holes)
    (heq : ∀ id word, w.copied[id]? = some word → orig' id = orig id) :
    Laid w hash orig' layout f holes := by
  refine { hl with copied := ?_ }
  intro id word hc
  rw [heq id word hc]
  exact hl.copied id word hc

section Places
variable {e e' : Entry} {off slot : Nat} {v : Value} (hl : Laid w hash orig layout f holes)
include hl

theorem mem_placed_append : (off, e') ∈ placed headerSize (layout ++ [e]) ↔
    (off, e') ∈ placed headerSize layout ∨ off = w.size ∧ e' = e := by
  rw [mem_placed_concat, hl.size_eq]

theorem mem_slotsFrom_append : (slot, v) ∈ slotsFrom headerSize (layout ++ [e]) ↔
    (slot, v) ∈ slotsFrom headerSize layout ∨ (slot, v) ∈ e.slots w.size := by
  rw [mem_slotsFrom_concat, hl.size_eq]

/-- References of the layout stay as they are when something is added to the writer. -/
theorem filled_of_same {left : List Hole} (hsame : ∀ s, s < w.size → g s = f s)
    (hcopied : ∀ other word : Nat, w.copied[other]? = some word → w'.copied[other]? = some word)
    (hleft : ∀ hole ∈ holes, hole ∈ left) (hv : (slot, v) ∈ slotsFrom headerSize layout) :
    w'.Filled g left slot v := by
  have hfilled := hl.filled slot v hv
  have hbounds := bounds_of_mem_slotsFrom hv
  have hsize := hl.size_eq
  have heq := hsame slot (by omega)
  cases v with
  | scalar payload => exact heq.trans hfilled
  | object child =>
    rcases hfilled with hhole | hstored
    · exact .inl (hleft _ hhole)
    · exact .inr (by rw [heq]; exact hcopied child _ hstored)

end Places

theorem copied_of_insert {stored other word : Nat} (hcopied : w'.copied = w.copied.insert id stored)
    (hother : w'.copied[other]? = some word) :
    other = id ∧ word = stored ∨ w.copied[other]? = some word := by
  rw [hcopied] at hother
  by_cases heq : id = other
  · subst heq
    rw [Std.ExtTreeMap.getElem?_insert_self] at hother
    exact .inl ⟨rfl, (Option.some.inj hother).symm⟩
  · rw [Std.ExtTreeMap.getElem?_insert, if_neg (by simpa using heq)] at hother
    exact .inr hother

/-- The writer `w'` is `w` with a new entry at the end. -/
structure Entered (w w' : Writer) (hash : ContentHash) (layout : List Entry) (id : Nat)
    (o : Object Value) (f g : Nat → Nat) : Prop where
  base : w'.base = w.base
  sharing : w'.sharing = w.sharing
  copied : w'.copied = w.copied.insert id (w.base.toNat + w.size)
  bytes : w'.buffer.bytes.toList = imageBytes w.base.toNat g (layout ++ [.object id o])
  scalars : ∀ slot (payload : Fin scalarLimit), (slot, .scalar payload) ∈ o.slots w.size →
    g slot = scalarWord payload
  same : ∀ s, s < w.size → g s = f s
  leaves : w.sharing = true → ∀ (key : UInt64) leaf, leaf ∈ w'.leaves.getD key [] ↔
    leaf ∈ w.leaves.getD key [] ∨
      o.isLeaf = true ∧ leaf = ⟨w.size, roundUp o.extent⟩ ∧ hash o.leafKey = key
  new : w.sharing = true → o.isLeaf = true →
    ∀ off owner, (off, .object owner o) ∉ placed headerSize layout
  stats : w'.stats = { w.stats with objects := w.stats.objects + 1 }

section Entering
variable (hl : Laid w hash orig layout f holes)
variable (he : Entered w w' hash layout id (orig id) f g) (hc : w.copied[id]? = none)
include hl

theorem holes_entered : ∀ hole ∈ (orig id).holes w.size ++ holes,
    (hole.slot, .object hole.child) ∈ slotsFrom headerSize (layout ++ [.object id (orig id)]) := by
  intro hole hh
  rw [hl.mem_slotsFrom_append]
  rcases List.mem_append.mp hh with hh | hh
  · exact .inr (Object.mem_holes.mp hh)
  · exact .inl (hl.holes hole hh)

include he

theorem room_entered (ho : (orig id).obstacle? w.hasRoom = none) :
    w'.size ≤ sizeLimit ∧ w'.base.toNat + w'.size < wordLimit := by
  obtain ⟨_, size, hrecord, hroom⟩ := Object.obstacle?_eq_none_iff.mp ho
  obtain ⟨hextent, _⟩ := Object.recordSize?_eq_some_iff.mp hrecord
  rw [hasRoom, decide_eq_true_eq, hextent] at hroom
  have hsize : w'.size = w.size + roundUp (orig id).extent := by
    have hsize := Buffer.size_of_toList he.bytes
    rw [totalSize_append, totalSize_cons, totalSize_nil] at hsize
    rw [hl.size_eq, Nat.add_assoc]
    exact hsize
  rw [hsize, he.base]
  exact hroom

theorem leaves_entered (hs : w.sharing = true) (key : UInt64) (leaf : LeafRecord) :
    leaf ∈ w'.leaves.getD key [] ↔
      ∃ owner o, (leaf.offset, .object owner o) ∈
          placed headerSize (layout ++ [.object id (orig id)]) ∧
        o.isLeaf = true ∧ leaf.size = roundUp o.extent ∧ hash o.leafKey = key := by
  rw [he.leaves hs key leaf, hl.leaves hs key leaf]
  constructor
  · rintro (⟨owner, o, hmem, hrest⟩ | ⟨hleaf, rfl, hkey⟩)
    · exact ⟨owner, o, hl.mem_placed_append.mpr (.inl hmem), hrest⟩
    · exact ⟨id, orig id, hl.mem_placed_append.mpr (.inr ⟨rfl, rfl⟩), hleaf, rfl, hkey⟩
  · rintro ⟨owner, o, hmem, hleaf, hsize, hkey⟩
    rcases hl.mem_placed_append.mp hmem with hmem | ⟨hoff, heq⟩
    · exact .inl ⟨owner, o, hmem, hleaf, hsize, hkey⟩
    · cases heq
      refine .inr ⟨hleaf, ?_, hkey⟩
      rw [← hoff, ← hsize]

theorem distinct_entered (hs : w.sharing = true) {off off' owner owner' : Nat} {o : Object Value}
    (hmem : (off, .object owner o) ∈ placed headerSize (layout ++ [.object id (orig id)]))
    (hmem' : (off', .object owner' o) ∈ placed headerSize (layout ++ [.object id (orig id)]))
    (hleaf : o.isLeaf = true) : off = off' := by
  rcases hl.mem_placed_append.mp hmem with hmem | ⟨rfl, heq⟩ <;>
    rcases hl.mem_placed_append.mp hmem' with hmem' | ⟨rfl, heq'⟩
  · exact hl.distinct hs off off' owner owner' o hmem hmem' hleaf
  · cases heq'
    exact absurd hmem (he.new hs hleaf off owner)
  · cases heq
    exact absurd hmem' (he.new hs hleaf off' owner')
  · rfl

include hc

omit hl in
theorem getElem?_copied_entered (other word : Nat) (hother : w.copied[other]? = some word) :
    w'.copied[other]? = some word := by
  rw [he.copied]
  exact getElem?_insert_of_new hc hother

theorem filled_entered {slot : Nat} {v : Value}
    (hv : (slot, v) ∈ slotsFrom headerSize (layout ++ [.object id (orig id)])) :
    w'.Filled g ((orig id).holes w.size ++ holes) slot v := by
  rcases hl.mem_slotsFrom_append.mp hv with hv | hv
  · exact hl.filled_of_same he.same (getElem?_copied_entered he hc)
      (fun _ => List.mem_append_right _) hv
  · cases v with
    | scalar payload => exact he.scalars slot payload hv
    | object child => exact .inl (List.mem_append_left _ (Object.mem_holes.mpr hv))

theorem copied_entered {other word : Nat} (hother : w'.copied[other]? = some word) :
    ∃ off owner, word = w'.base.toNat + off ∧
      (off, .object owner (orig other)) ∈ placed headerSize (layout ++ [.object id (orig id)]) ∧
      (owner = other ∨ w'.sharing = true ∧ (orig other).isLeaf = true) := by
  rw [he.base, he.sharing]
  rcases copied_of_insert he.copied hother with ⟨rfl, rfl⟩ | hother
  · exact ⟨w.size, other, rfl, hl.mem_placed_append.mpr (.inr ⟨rfl, rfl⟩), .inl rfl⟩
  · obtain ⟨off, owner, hword, hmem, howner⟩ := hl.copied other word hother
    exact ⟨off, owner, hword, hl.mem_placed_append.mpr (.inl hmem), howner⟩

theorem owned_entered {off owner : Nat} {o : Object Value}
    (hmem : (off, .object owner o) ∈ placed headerSize (layout ++ [.object id (orig id)])) :
    w'.copied[owner]? = some (w'.base.toNat + off) := by
  rw [he.base]
  rcases hl.mem_placed_append.mp hmem with hmem | ⟨rfl, heq⟩
  · exact getElem?_copied_entered he hc owner _ (hl.owned off owner o hmem)
  · cases heq
    rw [he.copied, Std.ExtTreeMap.getElem?_insert_self]

/-- The references of the new entry to objects are to be filled in. -/
theorem append (ho : (orig id).obstacle? w.hasRoom = none) (hw : (orig id).WellFormed) :
    Laid w' hash orig (layout ++ [.object id (orig id)]) g ((orig id).holes w.size ++ holes) where
  base_mod := he.base ▸ hl.base_mod
  bytes := he.base ▸ he.bytes
  room _ := room_entered hl he ho
  valid := List.forall_mem_append.mpr
    ⟨hl.valid, List.forall_mem_singleton.mpr ⟨hw, (Object.obstacle?_eq_none_iff.mp ho).1⟩⟩
  filled _ _ := filled_entered hl he hc
  holes := hl.holes_entered
  copied _ _ := copied_entered hl he hc
  owned _ _ _ := owned_entered hl he hc
  leaves hs := leaves_entered hl he (he.sharing ▸ hs)
  distinct hs _ _ _ _ _ := distinct_entered hl he (he.sharing ▸ hs)
  roots := by
    rw [he.stats, rootsOf_append, hl.roots]
    exact congrArg List.length (List.append_nil _).symm
  objects := by
    rw [he.stats, ownersOf_append, List.length_append, hl.objects]
    rfl
  counted := by
    rw [he.copied, size_insert_of_new hc, he.stats, hl.counted]
    exact Nat.add_right_comm _ _ _

end Entering

theorem share (hl : Laid w hash orig layout f holes) (hc : w.copied[id]? = none)
    (hs : w.sharing = true) {off owner : Nat}
    (hmem : (off, .object owner (orig id)) ∈ placed headerSize layout)
    (hleaf : (orig id).isLeaf = true) (hbase : w'.base = w.base)
    (hsharing : w'.sharing = w.sharing)
    (hcopied : w'.copied = w.copied.insert id (w.base.toNat + off))
    (hbytes : w'.buffer.bytes.toList = imageBytes w.base.toNat f layout)
    (hleaves : w'.leaves = w.leaves)
    (hstats : w'.stats = { w.stats with shared := w.stats.shared + 1 }) :
    Laid w' hash orig layout f holes := by
  have hsize : w'.size = w.size := (Buffer.size_of_toList hbytes).trans hl.size_eq.symm
  have hold : ∀ other word : Nat, w.copied[other]? = some word →
      w'.copied[other]? = some word := by
    intro other word hother
    rw [hcopied]
    exact getElem?_insert_of_new hc hother
  refine ⟨hbase ▸ hl.base_mod, hbase ▸ hbytes, ?_, hl.valid, fun _ _ =>
    hl.filled_of_same (fun _ _ => rfl) hold (fun _ h => h), hl.holes, ?_, ?_, ?_, ?_, ?_, ?_, ?_⟩
  · rw [hsize, hbase]
    exact hl.room
  · intro other word hother
    rw [hbase, hsharing]
    rcases copied_of_insert hcopied hother with ⟨rfl, rfl⟩ | hother
    · exact ⟨off, owner, rfl, hmem, .inr ⟨hs, hleaf⟩⟩
    · exact hl.copied other word hother
  · intro off owner o hmem
    rw [hbase]
    exact hold owner _ (hl.owned off owner o hmem)
  · rw [hsharing, hleaves]
    exact hl.leaves
  · rw [hsharing]
    exact hl.distinct
  · rw [hstats]
    exact hl.roots
  · rw [hstats]
    exact hl.objects
  · rw [hcopied, size_insert_of_new hc, hstats, hl.counted]
    rfl

/-- Filling in a reference takes it off the list. -/
theorem fill {slot word : Nat} {left : List Hole} (hl : Laid w hash orig layout f holes)
    (hmem : ⟨slot, id⟩ ∈ holes) (hc : w.copied[id]? = some word)
    (hleft : ∀ hole ∈ left, hole ∈ holes)
    (hrest : ∀ hole ∈ holes, hole = ⟨slot, id⟩ ∨ hole ∈ left) :
    Laid (w.fill slot word) hash orig layout (fillIn f slot word) left := by
  have hslot := hl.holes _ hmem
  have hbytes := Buffer.toList_putWord hl.bytes hslot word
  rw [Writer.fill]
  generalize w.buffer.putWord slot word = b at hbytes
  have hsize : b.size = w.size := (Buffer.size_of_toList hbytes).trans hl.size_eq.symm
  refine ⟨hl.base_mod, hbytes, ?_, hl.valid, ?_, fun hole hh => hl.holes hole (hleft hole hh),
    hl.copied, hl.owned, hl.leaves, hl.distinct, hl.roots, hl.objects, hl.counted⟩
  · intro hne
    have hroom := hl.room hne
    rwa [← hsize] at hroom
  · intro s v hv
    by_cases heq : s = slot
    · subst heq
      obtain rfl := eq_of_mem_slotsFrom hslot hv
      exact .inr (by rw [fillIn_self]; exact hc)
    · have hfilled := hl.filled s v hv
      cases v with
      | scalar payload => exact (fillIn_of_ne heq).trans hfilled
      | object child =>
        rcases hfilled with hhole | hstored
        · rcases hrest _ hhole with hhole | hhole
          · exact absurd (congrArg Hole.slot hhole) heq
          · exact .inl hhole
        · exact .inr (by rw [fillIn_of_ne heq]; exact hstored)

theorem terminate (hl : Laid w hash orig layout f []) {root : Value} {word : Nat}
    (hroot : w.Stores word root) (hroom : w.hasRoom terminatorSize = true) :
    Laid (w.terminate word) hash orig (layout ++ [.terminator root])
      (fillIn f (w.size + 8) word) [] := by
  have hsize := hl.size_eq
  have hbytes := Buffer.toList_putTerminator hl.bytes root word
  have hsize' := size_terminate w word
  rw [hasRoom, decide_eq_true_eq] at hroom
  rw [Writer.terminate] at hsize' ⊢
  change (Buffer.putTerminator _ w.size word).bytes.toList =
    imageBytes _ (fillIn f (w.size + 8) word) _ at hbytes
  generalize Buffer.putTerminator (w.buffer.reserve terminatorSize) w.size word = b
    at hbytes hsize'
  have hobjects : ∀ {off owner : Nat} {o : Object Value},
      (off, .object owner o) ∈ placed headerSize (layout ++ [.terminator root]) ↔
        (off, .object owner o) ∈ placed headerSize layout := by
    intro off owner o
    rw [mem_placed_concat]
    simp
  refine ⟨hl.base_mod, hbytes, fun _ => ?_, ?_, ?_, ?_, ?_, ?_, ?_, ?_, ?_, ?_, hl.counted⟩
  · rw [hsize']
    exact hroom
  · exact List.forall_mem_append.mpr ⟨hl.valid, List.forall_mem_singleton.mpr trivial⟩
  · intro slot v hv
    rcases hl.mem_slotsFrom_append.mp hv with hv | hv
    · exact hl.filled_of_same (fun s hs => fillIn_of_ne (by omega)) (fun _ _ h => h)
        (fun _ h => h) hv
    · obtain ⟨hslot, rfl⟩ := Prod.mk.inj (List.mem_singleton.mp hv)
      have heq : fillIn f (w.size + 8) word slot = word := hslot ▸ fillIn_self f _ word
      cases v with
      | scalar payload => exact heq.trans hroot
      | object child => exact .inr (by rw [heq]; exact hroot)
  · intro hole hh
    cases hh
  · intro other stored hother
    obtain ⟨off, owner, hword, hmem, howner⟩ := hl.copied other stored hother
    exact ⟨off, owner, hword, hobjects.mpr hmem, howner⟩
  · intro off owner o hmem
    exact hl.owned off owner o (hobjects.mp hmem)
  · intro hs key leaf
    simp only [hobjects]
    exact hl.leaves hs key leaf
  · intro hs off off' owner owner' o hmem hmem'
    exact hl.distinct hs off off' owner owner' o (hobjects.mp hmem) (hobjects.mp hmem')
  · rw [rootsOf_append, List.length_append, ← hl.roots]
    rfl
  · rw [ownersOf_append, List.length_append, ← hl.objects]
    rfl

section Leaves
variable {u : Writer} {o : Object Value}

/-- The writer `u` is `w` after an object was appended. -/
structure Appended (w u : Writer) (layout : List Entry) (id : Nat) (o : Object Value)
    (f g : Nat → Nat) : Prop where
  base : u.base = w.base
  sharing : u.sharing = w.sharing
  copied : u.copied = w.copied
  leaves : u.leaves = w.leaves
  stats : u.stats = { w.stats with objects := w.stats.objects + 1 }
  bytes : u.buffer.bytes.toList = imageBytes w.base.toNat g (layout ++ [.object id o])
  scalars : ∀ slot (payload : Fin scalarLimit), (slot, .scalar payload) ∈ o.slots w.size →
    g slot = scalarWord payload
  same : ∀ s, s < w.size → g s = f s

theorem exists_appended (hl : Laid w hash orig layout f holes) (id : Nat)
    (ho : o.obstacle? w.hasRoom = none) :
    ∃ g, Appended w (w.appendObject o) layout id o f g := by
  obtain ⟨_, size, hrecord, _⟩ := Object.obstacle?_eq_none_iff.mp ho
  obtain ⟨hextent, _⟩ := Object.recordSize?_eq_some_iff.mp hrecord
  obtain ⟨g, hbytes, hscalars, hsame⟩ := Buffer.exists_append hl.bytes id o
  refine ⟨g, rfl, rfl, rfl, rfl, rfl, ?_, hscalars, hsame⟩
  rw [appendObject, hrecord, Option.getD_some, hextent]
  exact hbytes

theorem shows_appended (hu : Appended w u layout id o f g) {off owner : Nat} {o' : Object Value}
    (h : (off, .object owner o') ∈ placed headerSize (layout ++ [.object id o])) :
    u.buffer.bytes.Shows off ((Entry.object owner o').encode w.base.toNat g off) :=
  shows_of_mem_placed (shows_layout hu.bytes) h

variable (hl : Laid w hash orig layout f holes) (hu : Appended w u layout id o f g)
include hl hu

theorem size_appended : u.size = w.size + roundUp o.extent := by
  have hsize := Buffer.size_of_toList hu.bytes
  rw [totalSize_append, totalSize_cons, totalSize_nil] at hsize
  rw [hl.size_eq, Nat.add_assoc]
  exact hsize

theorem lastKey_appended (hleaf : o.isLeaf = true) : u.lastKey w.size o.contentsAt = o.leafKey := by
  have hmem : (w.size, .object id o) ∈ placed headerSize (layout ++ [.object id o]) :=
    mem_placed_concat.mpr (.inr ⟨hl.size_eq, rfl⟩)
  rw [lastKey, size_appended hl hu, Nat.add_sub_cancel_left]
  exact leafKey_eq (shows_appended hu hmem) hleaf

theorem placed_of_equalLeaf? (hs : w.sharing = true) (hleaf : o.isLeaf = true)
    (hw : o.WellFormed) (hlt : o.extent < 2 ^ 64) {leaf : LeafRecord}
    (hfound : u.equalLeaf? hash w.size o.contentsAt = some leaf) :
    ∃ owner, (leaf.offset, .object owner o) ∈ placed headerSize layout := by
  rw [equalLeaf?, lastKey_appended hl hu hleaf, size_appended hl hu, Nat.add_sub_cancel_left,
    hu.leaves] at hfound
  have hmem := List.mem_of_find?_eq_some hfound
  have hequal := List.find?_some hfound
  rw [Bool.and_eq_true, beq_iff_eq, beq_iff_eq] at hequal
  obtain ⟨owner, o', hplaced, hleaf', hsize, _⟩ := (hl.leaves hs _ leaf).mp hmem
  have hin := mem_of_mem_placed hplaced
  have hroom := hl.room (List.ne_nil_of_mem hin)
  have hbounds := bounds_of_mem_placed hplaced
  have hextent := le_roundUp o'.extent
  have hwsize := hl.size_eq
  simp only [Entry.size, sizeLimit] at hbounds hroom
  have heq := eq_of_leafKey_eq (shows_appended hu (mem_placed_concat.mpr (.inl hplaced))) hleaf'
    (hl.valid _ hin).1 hw (by omega) hlt (hsize.symm.trans hequal.1) hequal.2
  exact ⟨owner, heq ▸ hplaced⟩

theorem not_placed_of_equalLeaf? (hs : w.sharing = true) (hleaf : o.isLeaf = true)
    (hnone : u.equalLeaf? hash w.size o.contentsAt = none) (off owner : Nat) :
    (off, .object owner o) ∉ placed headerSize layout := by
  intro hplaced
  rw [equalLeaf?, lastKey_appended hl hu hleaf, size_appended hl hu, Nat.add_sub_cancel_left,
    hu.leaves, List.find?_eq_none] at hnone
  have hmem : (⟨off, roundUp o.extent⟩ : LeafRecord) ∈ w.leaves.getD (hash o.leafKey) [] :=
    (hl.leaves hs _ _).mpr ⟨owner, o, hplaced, hleaf, rfl, rfl⟩
  have hkey := leafKey_eq (shows_appended hu (mem_placed_concat.mpr (.inl hplaced))) hleaf
  apply hnone _ hmem
  rw [Bool.and_eq_true, beq_iff_eq, beq_iff_eq]
  exact ⟨rfl, hkey⟩

end Leaves

section Copies
variable {u : Writer} (hl : Laid w hash orig layout f holes)
variable (hu : Appended w u layout id (orig id) f g) (hc : w.copied[id]? = none)
include hl hu hc

/-- What was appended stays, but cannot be shared. -/
theorem keep (ho : (orig id).obstacle? w.hasRoom = none) (hw : (orig id).WellFormed)
    (hoff : (orig id).isLeaf = true → w.sharing = false) :
    Laid (u.recordCopy id (u.refTo w.size)) hash orig (layout ++ [.object id (orig id)]) g
      ((orig id).holes w.size ++ holes) := by
  have hnot : w.sharing = true → (orig id).isLeaf = true → False := by
    intro hs hleaf
    rw [hoff hleaf] at hs
    cases hs
  refine hl.append ⟨hu.base, hu.sharing, ?_, hu.bytes,
    hu.scalars, hu.same, ?_, ?_, hu.stats⟩ hc ho hw
  · rw [recordCopy, refTo, hu.copied, hu.base]
  · intro hs key leaf
    rw [recordCopy, hu.leaves]
    exact ⟨.inl, fun h => h.resolve_right fun h => hnot hs h.1⟩
  · intro hs hleaf
    exact (hnot hs hleaf).elim

/-- What was appended stays, and later leaves may share it. -/
theorem record (ho : (orig id).obstacle? w.hasRoom = none) (hw : (orig id).WellFormed)
    (hleaf : (orig id).isLeaf = true)
    (hnew : ∀ off owner, (off, .object owner (orig id)) ∉ placed headerSize layout) :
    Laid ((u.recordLeaf (hash (orig id).leafKey) w.size).recordCopy id (u.refTo w.size)) hash orig
      (layout ++ [.object id (orig id)]) g ((orig id).holes w.size ++ holes) := by
  have hrecord : (⟨w.size, u.size - w.size⟩ : LeafRecord) =
      ⟨w.size, roundUp (orig id).extent⟩ := by
    rw [size_appended hl hu, Nat.add_sub_cancel_left]
  refine hl.append ⟨hu.base, hu.sharing, ?_, hu.bytes, hu.scalars, hu.same, ?_, fun _ _ => hnew,
    hu.stats⟩ hc ho hw
  · rw [recordCopy, recordLeaf, refTo, hu.copied, hu.base]
  · intro _ key other
    rw [recordCopy, recordLeaf]
    dsimp only
    rw [hrecord, hu.leaves, Std.ExtTreeMap.getD_insert]
    split
    · rename_i heq
      have hbucket : hash (orig id).leafKey = key := by simpa using heq
      rw [List.mem_append, List.mem_singleton, hbucket]
      exact ⟨Or.imp_right fun h => ⟨hleaf, h, rfl⟩, Or.imp_right fun h => h.2.1⟩
    · rename_i hne
      have hother : hash (orig id).leafKey ≠ key := by simpa using hne
      exact ⟨.inl, fun h => h.resolve_right fun h => hother h.2.2⟩

theorem drop (hs : w.sharing = true) (hleaf : (orig id).isLeaf = true) {off owner : Nat}
    (hplaced : (off, .object owner (orig id)) ∈ placed headerSize layout) :
    Laid ((u.dropLeaf w.size).recordCopy id (u.refTo off)) hash orig layout f holes := by
  have hsame : imageBytes w.base.toNat g layout = imageBytes w.base.toNat f layout := by
    apply imageBytes_congr
    intro slot v hv
    have hbounds := bounds_of_mem_slotsFrom hv
    exact hu.same slot (by rw [hl.size_eq]; omega)
  have hbytes := hu.bytes
  rw [imageBytes_concat] at hbytes
  have htruncate := Buffer.toList_truncate hbytes
  rw [length_imageBytes, ← hl.size_eq, hsame] at htruncate
  refine hl.share hc hs hplaced hleaf hu.base hu.sharing ?_ htruncate hu.leaves ?_
  · rw [recordCopy, dropLeaf, refTo, hu.copied, hu.base]
  · rw [recordCopy, dropLeaf, hu.stats]
    rfl

end Copies

/-- Copying an object adds its entry, unless leaves are shared and an equal one has an entry. -/
theorem copyObject_cases (hl : Laid w hash orig layout f holes) (hc : w.copied[id]? = none)
    (ho : (orig id).obstacle? w.hasRoom = none) (hw : (orig id).WellFormed) :
    (∃ g, (w.sharing = true → (orig id).isLeaf = true →
        ∀ off owner, (off, .object owner (orig id)) ∉ placed headerSize layout) ∧
      Laid (w.copyObject hash id (orig id)).1 hash orig (layout ++ [.object id (orig id)]) g
        ((orig id).holes w.size ++ holes) ∧
      (w.copyObject hash id (orig id)).2 = w.base.toNat + w.size) ∨
    ∃ off owner, w.sharing = true ∧ (orig id).isLeaf = true ∧
      (off, .object owner (orig id)) ∈ placed headerSize layout ∧
      Laid (w.copyObject hash id (orig id)).1 hash orig layout f holes ∧
      (w.copyObject hash id (orig id)).2 = w.base.toNat + off := by
  obtain ⟨g, hu⟩ := exists_appended hl id ho
  have hrefTo : ∀ off, (w.appendObject (orig id)).refTo off = w.base.toNat + off := by
    intro off
    rw [refTo, hu.base]
  cases hleaf : (orig id).isLeaf with
  | false =>
    have hkeep := keep hl hu hc ho hw (by rw [hleaf]; nofun)
    rw [hrefTo] at hkeep
    rw [copyObject_of_not_isLeaf hleaf]
    exact .inl ⟨g, nofun, hkeep, rfl⟩
  | true =>
    rw [copyObject_of_isLeaf hleaf]
    rcases (w.appendObject (orig id)).unifyLeaf_cases hash w.size (orig id).contentsAt with
      ⟨hs, hunify⟩ | ⟨leaf, hs, hfound, hunify⟩ | ⟨hs, hnone, hunify⟩
    · rw [hu.sharing] at hs
      rw [hunify]
      refine .inl ⟨g, ?_, keep hl hu hc ho hw fun _ => hs, hrefTo _⟩
      rw [hs]
      nofun
    · rw [hu.sharing] at hs
      obtain ⟨_, size, hrecord, _⟩ := Object.obstacle?_eq_none_iff.mp ho
      obtain ⟨hextent, hlt⟩ := Object.recordSize?_eq_some_iff.mp hrecord
      have hlimit : (orig id).extent < 2 ^ 64 := by
        have := le_roundUp (orig id).extent
        simp only [wordLimit] at hlt
        omega
      obtain ⟨owner, hplaced⟩ := placed_of_equalLeaf? hl hu hs hleaf hw hlimit hfound
      rw [hunify]
      exact .inr ⟨leaf.offset, owner, hs, rfl, hplaced, drop hl hu hc hs hleaf hplaced, hrefTo _⟩
    · rw [hu.sharing] at hs
      have hnew := not_placed_of_equalLeaf? hl hu hs hleaf hnone
      rw [hunify, lastKey_appended hl hu hleaf]
      exact .inl ⟨g, fun _ _ => hnew, record hl hu hc ho hw hleaf hnew, hrefTo _⟩

end Laid

end Writer
end HeapImage
