import HeapImage.Proofs.Image.Renumbering
import HeapImage.Proofs.Writer.History

/-!
# Writers in lockstep

Two writers copy objects that correspond under a map of their numbers. They take the same steps, and
their layouts are the same up to the numbers. The map may take different objects to one if these are
equal leaves: then the first writer shares where the second one has the object already.
-/

namespace HeapImage
set_option autoImplicit false

/-- The object is the same up to the numbers of its children. Objects that are not settled need not
have anything in common but their kind. -/
structure Object.Renamed (m : Nat → Nat) (o o' : Object Value) : Prop where
  kind_eq : o'.kind = o.kind
  settled_iff : o'.Settled ↔ o.Settled
  eq_map : o.Settled → o' = o.map (Value.mapId m)

namespace Object
variable {m : Nat → Nat} {o o' : Object Value} {room room' : Nat → Bool}

theorem renamed_map (m : Nat → Nat) (o : Object Value) : o.Renamed m (o.map (Value.mapId m)) :=
  ⟨kind_map _ o, settled_map _ o, fun _ => rfl⟩

theorem recordSize?_map (f : Value → Value) (o : Object Value) :
    (o.map f).recordSize? = o.recordSize? := by
  rw [recordSize?, payloadSize?_map, recordSize?]

/-- More room helps only where there was too little. -/
theorem obstacle?_mono (ho : o.Settled) (hle : ∀ size, room size = true → room' size = true)
    (hroom : room' = room ∨ o.obstacle? room ≠ some .tooLarge) :
    o.obstacle? room' = o.obstacle? room := by
  rcases hroom with rfl | hroom
  · rfl
  · rw [obstacle?_of_settled ho] at hroom ⊢
    rw [obstacle?_of_settled ho]
    cases hsize : o.recordSize? with
    | none => rfl
    | some size =>
      rw [hsize, Option.elim_some] at hroom
      have hfits : room size = true := by
        by_contra hnot
        exact hroom (if_neg hnot)
      rw [Option.elim_some, Option.elim_some, if_pos (hle size hfits), if_pos hfits]

theorem Renamed.obstacle?_eq (hr : o.Renamed m o')
    (hle : ∀ size, room size = true → room' size = true)
    (hroom : room' = room ∨ o.obstacle? room ≠ some .tooLarge) :
    o'.obstacle? room' = o.obstacle? room := by
  by_cases ho : o.Settled
  · have hmap : o'.obstacle? room' = o.obstacle? room' := by
      rw [hr.eq_map ho, obstacle?_of_settled ((settled_map _ o).mpr ho), recordSize?_map,
        obstacle?_of_settled ho]
    rw [hmap, obstacle?_mono ho hle hroom]
  · have ho' : ¬o'.Settled := fun h => ho (hr.settled_iff.mp h)
    have hkind := hr.kind_eq
    cases o with
    | thunk state =>
      cases o' <;> try cases hkind
      rename_i state'
      cases state with
      | forced value => exact absurd trivial ho
      | waiting closure =>
        cases state' with
        | forced value => exact absurd trivial ho'
        | waiting closure' => rfl
    | task result =>
      cases o' <;> try cases hkind
      rename_i result'
      cases result with
      | some value => exact absurd trivial ho
      | none =>
        cases result' with
        | some value => exact absurd trivial ho'
        | none => rfl
    | promise result =>
      cases o' <;> try cases hkind
      rename_i result'
      cases result with
      | some value => exact absurd trivial ho
      | none =>
        cases result' with
        | some value => exact absurd trivial ho'
        | none => rfl
    | _ => exact absurd trivial ho

end Object

/-- What a call can meet on the left has its counterpart on the right. Neither objects that are not
met nor those that were copied before matter. -/
structure Heap.Matched (m : Nat → Nat) (met : Nat → Prop) (sharing : Bool) (h h' : Heap)
    (orig orig' : Nat → Object Value) (copied copied' : Std.ExtTreeMap Nat Nat) : Prop where
  left : h.Supplies copied orig
  right : h'.Supplies copied' orig'
  lt_size : ∀ id, met id → id < h.size → m id < h'.size
  renamed : ∀ id, met id → id < h.size → copied[id]? = none →
    (h.object id).Renamed m (h'.object (m id))
  closed : ∀ id, met id → id < h.size → copied[id]? = none →
    ∀ child ∈ h.objectChildren id, met child
  merged : ∀ a b, met a → met b → m a = m b →
    a = b ∨ sharing = true ∧ (orig a).isLeaf = true ∧ orig a = orig b

theorem Heap.Matched.of_le {m : Nat → Nat} {met : Nat → Prop} {sharing : Bool} {h h' : Heap}
    {orig orig' : Nat → Object Value} {copied copied' more more' : Std.ExtTreeMap Nat Nat}
    (hm : h.Matched m met sharing h' orig orig' copied copied')
    (hle : ∀ id : Nat, ∀ word, copied[id]? = some word → more[id]? = some word)
    (hle' : ∀ id : Nat, ∀ word, copied'[id]? = some word → more'[id]? = some word) :
    h.Matched m met sharing h' orig orig' more more' := by
  have hnone : ∀ id : Nat, more[id]? = none → copied[id]? = none := by
    intro id hid
    cases hc : copied[id]? with
    | none => rfl
    | some word => rw [hle id word hc] at hid; cases hid
  exact ⟨hm.left.of_le hle, hm.right.of_le hle', hm.lt_size,
    fun id hid hlt hc => hm.renamed id hid hlt (hnone id hc),
    fun id hid hlt hc => hm.closed id hid hlt (hnone id hc), hm.merged⟩

namespace Writer

/-- The writers hold the same layout up to the numbers, and refer to the same offsets for what
corresponds. Only objects that are met were copied on the left, and only their counterparts on the
right. -/
structure Alike (m : Nat → Nat) (met : Nat → Prop) (hash hash' : ContentHash)
    (orig orig' : Nat → Object Value) (w w' : Writer) (layout : List Entry) (holes : List Hole) :
    Prop where
  left : ∃ f, Laid w hash orig layout f holes
  right : ∃ f, Laid w' hash' orig' (layout.map (Entry.mapId m)) f (holes.map (Hole.mapId m))
  base_le : w'.base ≤ w.base
  sharing : w'.sharing = w.sharing
  copied : ∀ id off : Nat, w.copied[id]? = some (w.base.toNat + off) →
    w'.copied[m id]? = some (w'.base.toNat + off)
  exists_copied : ∀ id' word' : Nat, w'.copied[id']? = some word' →
    ∃ id word, m id = id' ∧ w.copied[id]? = some word
  met : ∀ id word : Nat, w.copied[id]? = some word → met id

/-- Results that two writers must agree in: those without an obstacle, and all of them if different
objects stay different and there is the same room for either writer. -/
def Agreeing (m : Nat → Nat) (w w' : Writer) (result : Option Obstacle) : Prop :=
  result = none ∨ Function.Injective m ∧ (w'.base = w.base ∨ result ≠ some .tooLarge)

section Steps
variable {m : Nat → Nat} {met : Nat → Prop} {hash hash' : ContentHash}
variable {orig orig' : Nat → Object Value} {w w' : Writer} {layout : List Entry}
variable {holes : List Hole} {id : Nat} {h h' : Heap}

theorem Alike.size_eq (ha : Alike m met hash hash' orig orig' w w' layout holes) :
    w'.size = w.size := by
  obtain ⟨f, hl⟩ := ha.left
  obtain ⟨f', hl'⟩ := ha.right
  rw [hl'.size_eq, totalSize_mapId, hl.size_eq]

theorem Alike.hasRoom (ha : Alike m met hash hash' orig orig' w w' layout holes) (size : Nat)
    (hroom : w.hasRoom size = true) : w'.hasRoom size = true := by
  have hbase := UInt64.le_iff_toNat_le.mp ha.base_le
  rw [Writer.hasRoom, decide_eq_true_eq] at hroom ⊢
  rw [ha.size_eq]
  omega

theorem Alike.hasRoom_eq (ha : Alike m met hash hash' orig orig' w w' layout holes)
    (hbase : w'.base = w.base) : w'.hasRoom = w.hasRoom := by
  funext size
  rw [Writer.hasRoom, ha.size_eq, hbase, Writer.hasRoom]

theorem Alike.of_eq {v v' : Writer} {layout₁ : List Entry} {holes₁ : List Hole}
    (ha : Alike m met hash hash' orig orig' w w' layout holes)
    (hleft : ∃ f, Laid v hash orig layout₁ f holes₁)
    (hright : ∃ f, Laid v' hash' orig' (layout₁.map (Entry.mapId m)) f
      (holes₁.map (Hole.mapId m)))
    (hbase : v.base = w.base) (hbase' : v'.base = w'.base) (hsharing : v.sharing = w.sharing)
    (hsharing' : v'.sharing = w'.sharing) (hcopied : v.copied = w.copied)
    (hcopied' : v'.copied = w'.copied) :
    Alike m met hash hash' orig orig' v v' layout₁ holes₁ := by
  refine ⟨hleft, hright, ?_, ?_, ?_, ?_, ?_⟩
  · rw [hbase, hbase']
    exact ha.base_le
  · rw [hsharing, hsharing', ha.sharing]
  · rw [hbase, hbase', hcopied, hcopied']
    exact ha.copied
  · rw [hcopied, hcopied']
    exact ha.exists_copied
  · rw [hcopied]
    exact ha.met

theorem Alike.insert {v v' : Writer} {layout₁ : List Entry} {holes₁ : List Hole} {off : Nat}
    (ha : Alike m met hash hash' orig orig' w w' layout holes) (hc : w.copied[id]? = none)
    (hc' : w'.copied[m id]? = none) (hid : met id)
    (hleft : ∃ f, Laid v hash orig layout₁ f holes₁)
    (hright : ∃ f, Laid v' hash' orig' (layout₁.map (Entry.mapId m)) f
      (holes₁.map (Hole.mapId m)))
    (hbase : v.base = w.base) (hbase' : v'.base = w'.base) (hsharing : v.sharing = w.sharing)
    (hsharing' : v'.sharing = w'.sharing)
    (hcopied : v.copied = w.copied.insert id (w.base.toNat + off))
    (hcopied' : v'.copied = w'.copied.insert (m id) (w'.base.toNat + off)) :
    Alike m met hash hash' orig orig' v v' layout₁ holes₁ := by
  refine ⟨hleft, hright, ?_, ?_, ?_, ?_, ?_⟩
  · rw [hbase, hbase']
    exact ha.base_le
  · rw [hsharing, hsharing', ha.sharing]
  · intro other off₁ hother
    rw [hbase, hcopied] at hother
    rw [hbase', hcopied']
    rcases eq_or_of_getElem?_insert hother with ⟨rfl, hoff⟩ | hother
    · rw [Std.ExtTreeMap.getElem?_insert_self, Nat.add_left_cancel hoff]
    · exact getElem?_insert_of_new hc' (ha.copied other off₁ hother)
  · intro id' word' hid'
    rw [hcopied'] at hid'
    rcases eq_or_of_getElem?_insert hid' with ⟨rfl, _⟩ | hid'
    · exact ⟨id, _, rfl, by rw [hcopied, Std.ExtTreeMap.getElem?_insert_self]⟩
    · obtain ⟨other, word, hother, hword⟩ := ha.exists_copied id' word' hid'
      exact ⟨other, word, hother, by rw [hcopied]; exact getElem?_insert_of_new hc hword⟩
  · intro other word hother
    rw [hcopied] at hother
    rcases eq_or_of_getElem?_insert hother with ⟨rfl, _⟩ | hother
    · exact hid
    · exact ha.met other word hother

/-- Both copy an object that is new to them. -/
theorem Alike.insert_copyObject {layout₁ : List Entry} {holes₁ : List Hole} {off : Nat}
    (ha : Alike m met hash hash' orig orig' w w' layout holes) (hc : w.copied[id]? = none)
    (hc' : w'.copied[m id]? = none) (hid : met id)
    (hword : (w.copyObject hash id (orig id)).2 = w.base.toNat + off)
    (hword' : (w'.copyObject hash' (m id) (orig' (m id))).2 = w'.base.toNat + off)
    (hleft : ∃ f, Laid (w.copyObject hash id (orig id)).1 hash orig layout₁ f holes₁)
    (hright : ∃ f, Laid (w'.copyObject hash' (m id) (orig' (m id))).1 hash' orig'
      (layout₁.map (Entry.mapId m)) f (holes₁.map (Hole.mapId m))) :
    Alike m met hash hash' orig orig' (w.copyObject hash id (orig id)).1
      (w'.copyObject hash' (m id) (orig' (m id))).1 layout₁ holes₁ := by
  have hcopied : (w.copyObject hash id (orig id)).1.copied =
      w.copied.insert id (w.base.toNat + off) := by rw [copied_copyObject, hword]
  have hcopied' : (w'.copyObject hash' (m id) (orig' (m id))).1.copied =
      w'.copied.insert (m id) (w'.base.toNat + off) := by rw [copied_copyObject, hword']
  exact ha.insert hc hc' hid hleft hright (base_copyObject _ _ _ _) (base_copyObject _ _ _ _)
    (sharing_copyObject _ _ _ _) (sharing_copyObject _ _ _ _) hcopied hcopied'

/-- An object that is new to both is shared by both or by neither. -/
theorem Alike.copyObject (ha : Alike m met hash hash' orig orig' w w' layout holes)
    (hc : w.copied[id]? = none) (hc' : w'.copied[m id]? = none) (hid : met id)
    (ho : (orig id).obstacle? w.hasRoom = none) (hw : (orig id).WellFormed)
    (horig : orig' (m id) = (orig id).map (Value.mapId m)) :
    ∃ layout₁, Alike m met hash hash' orig orig' (w.copyObject hash id (orig id)).1
      (w'.copyObject hash' (m id) (orig' (m id))).1 layout₁ ((orig id).holes w.size ++ holes) := by
  obtain ⟨f, hl⟩ := ha.left
  obtain ⟨f', hl'⟩ := ha.right
  have ho' : (orig' (m id)).obstacle? w'.hasRoom = none := by
    have hrenamed := (orig id).renamed_map m
    rw [← horig] at hrenamed
    have hsame : (orig' (m id)).obstacle? w'.hasRoom = (orig id).obstacle? w.hasRoom :=
      hrenamed.obstacle?_eq ha.hasRoom (.inr (by rw [ho]; nofun))
    rw [hsame, ho]
  have hw' : (orig' (m id)).WellFormed := horig ▸ Object.wellFormed_map _ hw
  have hisLeaf : (orig' (m id)).isLeaf = (orig id).isLeaf := by rw [horig, Object.isLeaf_map]
  have hholes : (orig' (m id)).holes w'.size ++ holes.map (Hole.mapId m) =
      ((orig id).holes w.size ++ holes).map (Hole.mapId m) := by
    rw [horig, Object.holes_map, ha.size_eq, List.map_append]
  -- Either writer adds an entry or shares one. An equal leaf has an entry in both layouts or in
  -- neither, so that they cannot differ in this.
  rcases hl.copyObject_cases hc ho hw with
      ⟨g, hnew, hleft, hword⟩ | ⟨off, owner, hs, hleaf, hplaced, hleft, hword⟩ <;>
    rcases hl'.copyObject_cases hc' ho' hw' with
      ⟨g', hnew', hright, hword'⟩ | ⟨off', owner', hs', hleaf', hplaced', hright, hword'⟩
  · have hlayout : layout.map (Entry.mapId m) ++ [Entry.object (m id) (orig' (m id))] =
        (layout ++ [Entry.object id (orig id)]).map (Entry.mapId m) := by
      rw [List.map_append, horig]
      rfl
    rw [hlayout, hholes] at hright
    rw [ha.size_eq] at hword'
    exact ⟨_, ha.insert_copyObject hc hc' hid hword hword' ⟨g, hleft⟩ ⟨g', hright⟩⟩
  · rw [hisLeaf] at hleaf'
    rw [horig, Object.map_of_isLeaf _ hleaf'] at hplaced'
    obtain ⟨before, hbefore⟩ := exists_mem_placed_of_mapId hleaf' hplaced'
    exact absurd hbefore (hnew (ha.sharing ▸ hs') hleaf' off' before)
  · have hmapped := mem_placed_mapId (m := m) hplaced
    rw [← horig] at hmapped
    exact absurd hmapped (hnew' (ha.sharing.trans hs) (hisLeaf.trans hleaf) off (m owner))
  · have hmapped := mem_placed_mapId (m := m) hplaced
    rw [← horig] at hmapped
    obtain rfl := hl'.distinct hs' off off' _ _ _ hmapped hplaced' hleaf'
    rw [Object.holes_of_isLeaf hleaf, List.nil_append]
    exact ⟨layout, ha.insert_copyObject hc hc' hid hword hword' ⟨f, hleft⟩ ⟨f', hright⟩⟩

/-- If the right one has the object already, then the left one shares it. -/
theorem Alike.copyObject_left (ha : Alike m met hash hash' orig orig' w w' layout holes)
    (hc : w.copied[id]? = none) {word' : Nat} (hc' : w'.copied[m id]? = some word')
    (hid : met id) (ho : (orig id).obstacle? w.hasRoom = none) (hw : (orig id).WellFormed)
    (hmerged : ∀ a, met a → m a = m id →
      a = id ∨ w.sharing = true ∧ (orig a).isLeaf = true ∧ orig a = orig id) :
    (orig id).isLeaf = true ∧
      Alike m met hash hash' orig orig' (w.copyObject hash id (orig id)).1 w' layout holes := by
  obtain ⟨f, hl⟩ := ha.left
  obtain ⟨a, word, ham, hca⟩ := ha.exists_copied _ word' hc'
  have hne : a ≠ id := by
    rintro rfl
    rw [hc] at hca
    cases hca
  -- The right writer has it for another object of the left one, which is an equal leaf then.
  obtain ⟨hs, hleaf, heq⟩ := (hmerged a (ha.met a word hca) ham).resolve_left hne
  obtain ⟨offA, ownerA, rfl, hplacedA, _⟩ := hl.copied a word hca
  rw [heq] at hleaf hplacedA
  rcases hl.copyObject_cases hc ho hw with ⟨_, hnew, _⟩ | ⟨off, owner, _, _, hplaced, hleft, hword⟩
  · exact absurd hplacedA (hnew hs hleaf offA ownerA)
  · obtain rfl := hl.distinct hs off offA owner ownerA _ hplaced hplacedA hleaf
    have hcopied := copied_copyObject w hash id (orig id)
    have hbase := base_copyObject w hash id (orig id)
    have hsharing := sharing_copyObject w hash id (orig id)
    rw [hword] at hcopied
    generalize (w.copyObject hash id (orig id)).1 = v at hleft hcopied hbase hsharing ⊢
    refine ⟨hleaf, ⟨f, hleft⟩, ha.right, hbase ▸ ha.base_le, hsharing ▸ ha.sharing, ?_, ?_, ?_⟩
    · intro other off₁ hother
      rw [hbase, hcopied] at hother
      rcases eq_or_of_getElem?_insert hother with ⟨rfl, hoff⟩ | hother
      · rw [← ham, Nat.add_left_cancel hoff]
        exact ha.copied a off hca
      · exact ha.copied other off₁ hother
    · intro id' stored hstored
      obtain ⟨other, word, hother, hword⟩ := ha.exists_copied id' stored hstored
      exact ⟨other, word, hother, by rw [hcopied]; exact getElem?_insert_of_new hc hword⟩
    · intro other word hother
      rw [hcopied] at hother
      rcases eq_or_of_getElem?_insert hother with ⟨rfl, _⟩ | hother
      · exact hid
      · exact ha.met other word hother

/-- What keeps the one writer from storing an object keeps the other one from it too. -/
theorem Alike.obstacle?_eq (ha : Alike m met hash hash' orig orig' w w' layout holes)
    (hm : h.Matched m met w.sharing h' orig orig' w.copied w'.copied) (hid : met id)
    (hlt : id < h.size) (hagree : Agreeing m w w' (w.obstacle? h id)) :
    w'.obstacle? h' (m id) = w.obstacle? h id := by
  cases hc : w.copied[id]? with
  | some word =>
    obtain ⟨f, hl⟩ := ha.left
    obtain ⟨off, _, rfl, _⟩ := hl.copied id word hc
    rw [obstacle?_eq_none_iff.mpr (.inl ⟨_, hc⟩),
      obstacle?_eq_none_iff.mpr (.inl ⟨_, ha.copied id off hc⟩)]
  | none =>
    cases hc' : w'.copied[m id]? with
    | some word' =>
      have hnone' : w'.obstacle? h' (m id) = none :=
        obstacle?_eq_none_iff.mpr (.inl ⟨word', hc'⟩)
      -- If the left writer has not, then the map has taken two objects to one.
      rcases hagree with hnone | ⟨hinj, _⟩
      · rw [hnone, hnone']
      · obtain ⟨a, word, ham, hca⟩ := ha.exists_copied _ word' hc'
        rw [hinj ham, hc] at hca
        cases hca
    | none =>
      have hnew : ∀ {v : Writer} {g : Heap} {other : Nat}, v.copied[other]? = none →
          v.obstacle? g other = (g.object other).obstacle? v.hasRoom := by
        intro v g other hother
        rw [Writer.obstacle?, if_neg]
        rw [Std.ExtTreeMap.contains_eq_isSome_getElem?, hother]
        exact Bool.false_ne_true
      rw [hnew hc] at hagree ⊢
      rw [hnew hc']
      apply (hm.renamed id hid hlt hc).obstacle?_eq ha.hasRoom
      rcases hagree with hnone | ⟨_, hbase | hroom⟩
      · right
        rw [hnone]
        intro heq
        cases heq
      · exact .inl (ha.hasRoom_eq hbase)
      · exact .inr hroom

theorem Alike.store (ha : Alike m met hash hash' orig orig' w w' layout holes)
    (hm : h.Matched m met w.sharing h' orig orig' w.copied w'.copied) (hid : met id)
    (hlt : id < h.size) (ho : w.obstacle? h id = none) :
    ∃ layout₁ new,
      Alike m met hash hash' orig orig' (w.store hash h id).1 (w'.store hash' h' (m id)).1 layout₁
        (new ++ holes) ∧
      (w.store hash h id).1.todo = new ++ w.todo ∧
      (w'.store hash' h' (m id)).1.todo = new.map (Hole.mapId m) ++ w'.todo ∧
      ∀ hole ∈ new, hole.child < h.size ∧ met hole.child := by
  rcases obstacle?_eq_none_iff.mp ho with ⟨word, hc⟩ | ⟨hc, hobject⟩
  · obtain ⟨f, hl⟩ := ha.left
    obtain ⟨off, _, rfl, _⟩ := hl.copied id word hc
    rw [store_of_copied hc, store_of_copied (ha.copied id off hc)]
    exact ⟨layout, [], ha, rfl, rfl, nofun⟩
  · have horig := hm.left.object_eq id hlt hc
    have hw := hm.left.wellFormed.data id hlt
    have hmap := (hm.renamed id hid hlt hc).eq_map (Object.settled_of_obstacle? hobject)
    have hchildren : ∀ hole ∈ (h.object id).holes w.size, hole.child < h.size ∧ met hole.child := by
      intro hole hhole
      have hchild := mem_objectChildren_of_mem_holes hhole
      exact ⟨hm.left.wellFormed.closed id hlt _ hchild, hm.closed id hid hlt hc _ hchild⟩
    have htodo := todo_copyObject w hash id (h.object id)
    rw [store_of_new hc]
    rw [horig] at hobject hw hmap hchildren htodo ⊢
    -- What is new on the left may be known on the right, but not the other way round.
    cases hc' : w'.copied[m id]? with
    | some word' =>
      have hmerged : ∀ a, met a → m a = m id →
          a = id ∨ w.sharing = true ∧ (orig a).isLeaf = true ∧ orig a = orig id :=
        fun a hmet heq => hm.merged a id hmet hid heq
      obtain ⟨hleaf, hcopy⟩ := ha.copyObject_left hc hc' hid hobject hw hmerged
      rw [Object.holes_of_isLeaf hleaf, List.nil_append] at htodo
      rw [store_of_copied hc']
      exact ⟨layout, [], hcopy, htodo, rfl, nofun⟩
    | none =>
      have horig' := hm.right.object_eq (m id) (hm.lt_size id hid hlt) hc'
      have htodo' := todo_copyObject w' hash' (m id) (h'.object (m id))
      rw [hmap, Object.holes_map, ha.size_eq, ← hmap] at htodo'
      rw [store_of_new hc']
      rw [horig'] at hmap htodo' ⊢
      obtain ⟨layout₁, hcopy⟩ := ha.copyObject hc hc' hid hobject hw hmap
      exact ⟨layout₁, _, hcopy, htodo, htodo', hchildren⟩

theorem Alike.fill {slot word word' : Nat} {left : List Hole}
    (ha : Alike m met hash hash' orig orig' w w' layout holes) (hmem : ⟨slot, id⟩ ∈ holes)
    (hc : w.copied[id]? = some word) (hc' : w'.copied[m id]? = some word')
    (hleft : ∀ hole ∈ left, hole ∈ holes)
    (hrest : ∀ hole ∈ holes, hole = ⟨slot, id⟩ ∨ hole ∈ left) :
    Alike m met hash hash' orig orig' (w.fill slot word) (w'.fill slot word') layout left := by
  obtain ⟨f, hl⟩ := ha.left
  obtain ⟨f', hl'⟩ := ha.right
  have hmapped : ∀ hole ∈ left.map (Hole.mapId m), hole ∈ holes.map (Hole.mapId m) := by
    intro hole hhole
    obtain ⟨before, hbefore, rfl⟩ := List.mem_map.mp hhole
    exact List.mem_map_of_mem (hleft before hbefore)
  have hothers : ∀ hole ∈ holes.map (Hole.mapId m),
      hole = ⟨slot, m id⟩ ∨ hole ∈ left.map (Hole.mapId m) := by
    intro hole hhole
    obtain ⟨before, hbefore, rfl⟩ := List.mem_map.mp hhole
    rcases hrest before hbefore with rfl | hbefore
    · exact .inl rfl
    · exact .inr (List.mem_map_of_mem hbefore)
  have hmem' : (⟨slot, m id⟩ : Hole) ∈ holes.map (Hole.mapId m) := List.mem_map_of_mem hmem
  exact ha.of_eq ⟨_, hl.fill hmem hc hleft hrest⟩ ⟨_, hl'.fill hmem' hc' hmapped hothers⟩
    (base_fill _ _ _) (base_fill _ _ _) (sharing_fill _ _ _) (sharing_fill _ _ _)
    (copied_fill _ _ _) (copied_fill _ _ _)

end Steps

structure Lockstep (m : Nat → Nat) (met : Nat → Prop) (hash hash' : ContentHash)
    (orig orig' : Nat → Object Value) (h h' : Heap) (w w' : Writer) (layout : List Entry) :
    Prop where
  alike : Alike m met hash hash' orig orig' w w' layout w.todo
  matched : h.Matched m met w.sharing h' orig orig' w.copied w'.copied
  todo : w'.todo = w.todo.map (Hole.mapId m)
  met : ∀ hole ∈ w.todo, hole.child < h.size ∧ met hole.child

section Calls
variable {m : Nat → Nat} {met : Nat → Prop} {hash hash' : ContentHash}
variable {orig orig' : Nat → Object Value} {w w' : Writer} {layout : List Entry}
variable {h h' : Heap} {root : Value}

theorem Alike.setTodo {holes : List Hole}
    (ha : Alike m met hash hash' orig orig' w w' layout holes) (todo todo' : List Hole) :
    Alike m met hash hash' orig orig' { w with todo := todo } { w' with todo := todo' } layout
      holes := by
  obtain ⟨f, hl⟩ := ha.left
  obtain ⟨f', hl'⟩ := ha.right
  exact ha.of_eq ⟨f, hl.of_eq rfl rfl rfl rfl rfl rfl⟩ ⟨f', hl'.of_eq rfl rfl rfl rfl rfl rfl⟩
    rfl rfl rfl rfl rfl rfl

theorem Lockstep.advance (hl : Lockstep m met hash hash' orig orig' h h' w w' layout)
    {next : Hole} {rest : List Hole} (htodo : w.todo = next :: rest)
    (ho : w.obstacle? h next.child = none) :
    ∃ layout₁, Lockstep m met hash hash' orig orig' h h' (w.advance hash h next rest)
      (w'.advance hash' h' (next.mapId m) (rest.map (Hole.mapId m))) layout₁ := by
  have ha := hl.alike
  rw [htodo] at ha
  obtain ⟨hlt, hmet⟩ := hl.met next (htodo ▸ List.mem_cons_self)
  obtain ⟨layout₁, new, hstore, hnew, hnew', hchildren⟩ :=
    (ha.setTodo rest (rest.map (Hole.mapId m))).store hl.matched hmet hlt ho
  have hleft : ∀ hole ∈ new ++ rest, hole ∈ new ++ next :: rest :=
    fun hole hmem => List.perm_middle.mem_iff.mpr (List.mem_cons_of_mem _ hmem)
  have hrest : ∀ hole ∈ new ++ next :: rest, hole = next ∨ hole ∈ new ++ rest :=
    fun hole hmem => List.mem_cons.mp (List.perm_middle.mem_iff.mp hmem)
  have hmem : (⟨next.slot, next.child⟩ : Hole) ∈ new ++ next :: rest :=
    List.mem_append_right _ List.mem_cons_self
  have hfill := hstore.fill hmem getElem?_copied_store_self getElem?_copied_store_self hleft hrest
  have hmatched : h.Matched m met w.sharing h' orig orig' (w.advance hash h next rest).copied
      (w'.advance hash' h' (next.mapId m) (rest.map (Hole.mapId m))).copied :=
    hl.matched.of_le (fun _ _ => getElem?_copied_advance) fun _ _ => getElem?_copied_advance
  have htodo₁ : (w.advance hash h next rest).todo = new ++ rest := by
    rw [Writer.advance, todo_fill, hnew]
  have htodo₁' : (w'.advance hash' h' (next.mapId m) (rest.map (Hole.mapId m))).todo =
      (new ++ rest).map (Hole.mapId m) := by
    rw [Writer.advance, todo_fill, List.map_append]
    exact hnew'
  refine ⟨layout₁, ⟨?_, ?_, ?_, ?_⟩⟩
  · rw [htodo₁]
    exact hfill
  · rw [sharing_advance]
    exact hmatched
  · rw [htodo₁, htodo₁']
  · intro hole hmem
    rw [htodo₁] at hmem
    rcases List.mem_append.mp hmem with hmem | hmem
    · exact hchildren hole hmem
    · exact hl.met hole (htodo ▸ List.mem_cons_of_mem _ hmem)

theorem Lockstep.drain (hl : Lockstep m met hash hash' orig orig' h h' w w' layout)
    (hagree : Agreeing m w w' (w.drain hash h).2) :
    (w'.drain hash' h').2 = (w.drain hash h).2 ∧ ∃ layout₁,
      Lockstep m met hash hash' orig orig' h h' (w.drain hash h).1 (w'.drain hash' h').1
        layout₁ := by
  fun_induction Writer.drain w hash h generalizing w' layout with
  | case1 w htodo =>
    have htodo' : w'.todo = [] := by rw [hl.todo, htodo, List.map_nil]
    rw [drain_of_done htodo']
    exact ⟨rfl, layout, hl⟩
  | case2 w next rest htodo e he =>
    obtain ⟨hlt, hmet⟩ := hl.met next (htodo ▸ List.mem_cons_self)
    have htodo' : w'.todo = next.mapId m :: rest.map (Hole.mapId m) := by
      rw [hl.todo, htodo, List.map_cons]
    have he' : w'.obstacle? h' (next.mapId m).child = some e :=
      (hl.alike.obstacle?_eq hl.matched hmet hlt (he ▸ hagree)).trans he
    rw [drain_of_obstacle htodo' he']
    exact ⟨rfl, layout, hl⟩
  | case3 w next rest htodo hnone ih =>
    obtain ⟨hlt, hmet⟩ := hl.met next (htodo ▸ List.mem_cons_self)
    have htodo' : w'.todo = next.mapId m :: rest.map (Hole.mapId m) := by
      rw [hl.todo, htodo, List.map_cons]
    have hnone' : w'.obstacle? h' (next.mapId m).child = none :=
      (hl.alike.obstacle?_eq hl.matched hmet hlt (.inl hnone)).trans hnone
    obtain ⟨layout₁, hadvance⟩ := hl.advance htodo hnone
    rw [drain_of_next htodo' hnone']
    apply ih hadvance
    rw [Agreeing, base_advance, base_advance]
    exact hagree

theorem Alike.storeRoot (ha : Alike m met hash hash' orig orig' w w' layout [])
    (hm : h.Matched m met w.sharing h' orig orig' w.copied w'.copied) (htodo : w.todo = [])
    (htodo' : w'.todo = []) (hroot : root.In h) (hmet : ∀ id, root = .object id → met id)
    (ho : root.id?.bind (w.obstacle? h) = none) :
    (∃ layout₁, Lockstep m met hash hash' orig orig' h h' (w.storeRoot hash h root).1
      (w'.storeRoot hash' h' (root.mapId m)).1 layout₁) ∧
      (w.storeRoot hash h root).1.Stores (w.storeRoot hash h root).2 root ∧
      (w'.storeRoot hash' h' (root.mapId m)).1.Stores
        (w'.storeRoot hash' h' (root.mapId m)).2 (root.mapId m) := by
  cases root with
  | scalar payload =>
    have hnil : ∀ hole ∈ w.todo, hole.child < h.size ∧ met hole.child := by
      rw [htodo]
      nofun
    have hlock : Lockstep m met hash hash' orig orig' h h' w w' layout :=
      ⟨htodo ▸ ha, hm, by rw [htodo', htodo, List.map_nil], hnil⟩
    exact ⟨⟨layout, hlock⟩, rfl, rfl⟩
  | object id =>
    obtain ⟨layout₁, new, hstore, hnew, hnew', hchildren⟩ :=
      ha.store hm (hmet id rfl) hroot ho
    rw [htodo, List.append_nil] at hnew
    rw [htodo', List.append_nil] at hnew'
    rw [List.append_nil] at hstore
    have hmatched : h.Matched m met w.sharing h' orig orig' (w.store hash h id).1.copied
        (w'.store hash' h' (m id)).1.copied :=
      hm.of_le (fun _ _ => getElem?_copied_store) fun _ _ => getElem?_copied_store
    rw [Writer.storeRoot, Value.mapId, Writer.storeRoot]
    refine ⟨⟨layout₁, hnew ▸ hstore, ?_, by rw [hnew, hnew'], hnew ▸ hchildren⟩,
      getElem?_copied_store_self, getElem?_copied_store_self⟩
    rw [sharing_store]
    exact hmatched

theorem Alike.terminate {word word' : Nat}
    (ha : Alike m met hash hash' orig orig' w w' layout []) (hs : w.Stores word root)
    (hs' : w'.Stores word' (root.mapId m)) (hroom : w.hasRoom terminatorSize = true) :
    ∃ layout₁, Alike m met hash hash' orig orig' (w.terminate word) (w'.terminate word')
      layout₁ [] := by
  obtain ⟨f, hl⟩ := ha.left
  obtain ⟨f', hl'⟩ := ha.right
  have hright := hl'.terminate hs' (ha.hasRoom _ hroom)
  have hlayout : layout.map (Entry.mapId m) ++ [Entry.terminator (root.mapId m)] =
      (layout ++ [Entry.terminator root]).map (Entry.mapId m) := by
    rw [List.map_append]
    rfl
  rw [hlayout] at hright
  exact ⟨_, ha.of_eq ⟨_, hl.terminate hs hroom⟩ ⟨_, hright⟩ (base_terminate _ _)
    (base_terminate _ _) (sharing_terminate _ _) (sharing_terminate _ _) (copied_terminate _ _)
    (copied_terminate _ _)⟩

theorem Agreeing.of_base {v v' : Writer} {result : Option Obstacle}
    (hagree : Agreeing m w w' result) (hbase : v.base = w.base) (hbase' : v'.base = w'.base) :
    Agreeing m v v' result := by
  rw [Agreeing, hbase, hbase']
  exact hagree

theorem Alike.writeRoot (ha : Alike m met hash hash' orig orig' w w' layout [])
    (hm : h.Matched m met w.sharing h' orig orig' w.copied w'.copied) (htodo : w.todo = [])
    (htodo' : w'.todo = []) (hroot : root.In h) (hmet : ∀ id, root = .object id → met id)
    (hagree : Agreeing m w w' (w.writeRoot hash h root).2) :
    (w'.writeRoot hash' h' (root.mapId m)).2 = (w.writeRoot hash h root).2 ∧
      ((w.writeRoot hash h root).2 = none → ∃ layout₁,
        Alike m met hash hash' orig orig' (w.writeRoot hash h root).1
          (w'.writeRoot hash' h' (root.mapId m)).1 layout₁ []) := by
  have hobstacle : (root.mapId m).id?.bind (w'.obstacle? h') = root.id?.bind (w.obstacle? h) := by
    cases root with
    | scalar payload => rfl
    | object id =>
      apply ha.obstacle?_eq hm (hmet id rfl) hroot
      cases he : w.obstacle? h id with
      | none => exact .inl rfl
      | some e =>
        have hwrite : w.writeRoot hash h (.object id) = (w, some e) := writeRoot_of_obstacle he
        rw [hwrite] at hagree
        exact hagree
  cases ho : root.id?.bind (w.obstacle? h) with
  | some e =>
    rw [writeRoot_of_obstacle ho, writeRoot_of_obstacle (hobstacle.trans ho)]
    exact ⟨rfl, nofun⟩
  | none =>
    have ho' := hobstacle.trans ho
    obtain ⟨⟨layout₁, hlock⟩, hs, hs'⟩ := ha.storeRoot hm htodo htodo' hroot hmet ho
    have hdrain := hlock.drain
    have hstored := hs.drain hash h
    have hstored' := hs'.drain hash' h'
    have hbase := (base_drain _ hash h).trans (base_storeRoot w hash h root)
    have hbase' := (base_drain _ hash' h').trans (base_storeRoot w' hash' h' (root.mapId m))
    cases hd : ((w.storeRoot hash h root).1.drain hash h).2 with
    | some e =>
      rw [writeRoot_of_stuck ho hd] at hagree ⊢
      obtain ⟨hsame, _⟩ := hdrain
        (hd ▸ hagree.of_base (base_storeRoot _ _ _ _) (base_storeRoot _ _ _ _))
      rw [writeRoot_of_stuck ho' (hsame.trans hd)]
      exact ⟨rfl, nofun⟩
    | none =>
      obtain ⟨hsame, layout₂, hdrained⟩ := hdrain (.inl hd)
      have hleft := todo_drain _ hash h hd
      rw [writeRoot_of_done ho hd] at hagree ⊢
      rw [writeRoot_of_done ho' (hsame.trans hd)]
      have hlast := hdrained.alike
      rw [hleft] at hlast
      generalize ((w.storeRoot hash h root).1.drain hash h).1 = v
        at hagree hstored hbase hlast ⊢
      generalize ((w'.storeRoot hash' h' (root.mapId m)).1.drain hash' h').1 = v'
        at hstored' hbase' hlast ⊢
      by_cases hroom : v.hasRoom terminatorSize = true
      · rw [if_pos hroom, if_pos (hlast.hasRoom _ hroom)]
        exact ⟨rfl, fun _ => hlast.terminate hstored hstored' hroom⟩
      · rw [if_neg hroom] at hagree ⊢
        have hroom' : ¬v'.hasRoom terminatorSize = true := by
          rcases hagree with hnone | ⟨_, hsame | hne⟩
          · cases hnone
          · rwa [hlast.hasRoom_eq (by rw [hbase, hbase', hsame])]
          · exact absurd rfl hne
        rw [if_neg hroom']
        exact ⟨rfl, nofun⟩

end Calls

structure Abreast (m : Nat → Nat) (met : Nat → Prop) (hash hash' : ContentHash)
    (orig orig' : Nat → Object Value) (w w' : Writer) : Prop where
  left : w.AtRest
  right : w'.AtRest
  alike : ∃ layout, Alike m met hash hash' orig orig' w w' layout []

namespace Abreast
variable {m : Nat → Nat} {met met₁ : Nat → Prop} {hash hash' : ContentHash}
variable {orig orig' orig₁ orig₁' : Nat → Object Value} {w w' : Writer} {h h' : Heap}
variable {root : Value}

theorem congr (hab : Abreast m met hash hash' orig orig' w w')
    (horig : ∀ id word, w.copied[id]? = some word → orig₁ id = orig id)
    (horig' : ∀ id word, w'.copied[id]? = some word → orig₁' id = orig' id)
    (hmet : ∀ id word, w.copied[id]? = some word → met₁ id) :
    Abreast m met₁ hash hash' orig₁ orig₁' w w' := by
  obtain ⟨layout, ha⟩ := hab.alike
  obtain ⟨f, hl⟩ := ha.left
  obtain ⟨f', hl'⟩ := ha.right
  exact ⟨hab.left, hab.right, layout, ⟨f, hl.congr_orig horig⟩, ⟨f', hl'.congr_orig horig'⟩,
    ha.base_le, ha.sharing, ha.copied, ha.exists_copied, hmet⟩

theorem view_left (hab : Abreast m met hash hash' orig orig' w w') (h : Heap) :
    Abreast m met hash hash' (w.view orig h) orig' w w' := by
  obtain ⟨_, ha⟩ := hab.alike
  exact hab.congr (fun _ _ hc => view_of_copied hc) (fun _ _ _ => rfl) ha.met

theorem view_right (hab : Abreast m met hash hash' orig orig' w w') (h' : Heap) :
    Abreast m met hash hash' orig (w'.view orig' h') w w' := by
  obtain ⟨_, ha⟩ := hab.alike
  exact hab.congr (fun _ _ _ => rfl) (fun _ _ hc => view_of_copied hc) ha.met

theorem withCapacity (hab : Abreast m met hash hash' orig orig' w w') (n n' : Nat) :
    Abreast m met hash hash' orig orig' (w.withCapacity n) (w'.withCapacity n') := by
  obtain ⟨layout, ha⟩ := hab.alike
  obtain ⟨f, hl⟩ := ha.left
  obtain ⟨f', hl'⟩ := ha.right
  exact ⟨hab.left.withCapacity n, hab.right.withCapacity n', layout,
    ha.of_eq ⟨f, hl.of_eq rfl rfl rfl rfl rfl rfl⟩ ⟨f', hl'.of_eq rfl rfl rfl rfl rfl rfl⟩
      rfl rfl rfl rfl rfl rfl⟩

/-- A call of the left writer that fails does not part them. -/
theorem compact_of_error (hab : Abreast m met hash hash' orig orig' w w') {e : Obstacle}
    (he : (w.compact hash h root).2 = .error e) :
    Abreast m met hash hash' orig orig' (w.compact hash h root).1 w' := by
  obtain ⟨n, hn⟩ := hab.left.compact_of_error he
  rw [hn]
  exact hab.withCapacity n w'.buffer.capacity

/-- Calls for roots that correspond give the same result, and after them both writers are at rest
again, with what they hold alike. -/
theorem compact (hab : Abreast m met hash hash' orig orig' w w')
    (hm : h.Matched m met w.sharing h' orig orig' w.copied w'.copied) (hroot : root.In h)
    (hmet : ∀ id, root = .object id → met id)
    (hagree : Agreeing m w w' (w.writeRoot hash h root).2) :
    (w'.compact hash' h' (root.mapId m)).2 = (w.compact hash h root).2 ∧
      Abreast m met hash hash' orig orig' (w.compact hash h root).1
        (w'.compact hash' h' (root.mapId m)).1 := by
  obtain ⟨layout, ha⟩ := hab.alike
  obtain ⟨hsame, hdone⟩ :=
    ha.writeRoot hm hab.left.todo hab.right.todo hroot hmet hagree
  have hrest := hab.left.compact hash h root
  have hrest' := hab.right.compact hash' h' (root.mapId m)
  rcases compact_cases w hash h root with ⟨v, hv, hcompact⟩ | ⟨v, e, hv, hcompact⟩ <;>
    rcases compact_cases w' hash' h' (root.mapId m) with
      ⟨v', hv', hcompact'⟩ | ⟨v', e', hv', hcompact'⟩ <;>
    rw [hv, hv'] at hsame
  · obtain ⟨layout₁, hlast⟩ := hdone (by rw [hv])
    rw [hv, hv'] at hlast
    rw [hcompact] at hrest ⊢
    rw [hcompact'] at hrest' ⊢
    obtain ⟨f, hl⟩ := hlast.left
    obtain ⟨f', hl'⟩ := hlast.right
    exact ⟨rfl, hrest, hrest', layout₁, hlast.of_eq ⟨f, hl.of_eq rfl rfl rfl rfl rfl rfl⟩
      ⟨f', hl'.of_eq rfl rfl rfl rfl rfl rfl⟩ rfl rfl rfl rfl rfl rfl⟩
  · cases hsame
  · cases hsame
  · obtain rfl : e' = e := Option.some.inj hsame
    obtain ⟨n, hn⟩ := compact_eq_error hab.left hcompact
    obtain ⟨n', hn'⟩ := compact_eq_error hab.right hcompact'
    rw [hcompact, hcompact', hn, hn']
    exact ⟨rfl, hab.withCapacity n n'⟩

end Abreast

attribute [ext] Stats

section Results
variable {m : Nat → Nat} {met : Nat → Prop} {hash hash' : ContentHash}
variable {orig orig' : Nat → Object Value} {w w' : Writer} {layout : List Entry}
variable {f f' : Nat → Nat}

/-- Before the first call nothing is copied, so any map will do. -/
theorem Holding.abreast (hw : Holding w hash orig [] [] f) (hw' : Holding w' hash' orig' [] [] f')
    (hrest : w.AtRest) (hrest' : w'.AtRest) (hbase : w'.base ≤ w.base)
    (hsharing : w'.sharing = w.sharing) : Abreast m met hash hash' orig orig' w w' := by
  refine ⟨hrest, hrest', [], ⟨f, hw.laid⟩, ⟨f', hw'.laid⟩, hbase, hsharing, ?_, ?_, ?_⟩
  · exact fun id _ hc => nomatch (hw.laid.copied_of_nil id).symm.trans hc
  · exact fun id _ hc => nomatch (hw'.laid.copied_of_nil _).symm.trans hc
  · exact fun id _ hc => nomatch (hw.laid.copied_of_nil id).symm.trans hc

theorem Alike.data_eq (ha : Alike m met hash hash' orig orig' w w' layout [])
    (hbase : w'.base = w.base) : w'.data = w.data := by
  obtain ⟨f, hl⟩ := ha.left
  obtain ⟨f', hl'⟩ := ha.right
  have hwords : ∀ slot v, (slot, v) ∈ slotsFrom headerSize layout → f' slot = f slot := by
    intro slot v hv
    have hv' : (slot, v.mapId m) ∈ slotsFrom headerSize (layout.map (Entry.mapId m)) := by
      rw [slotsFrom_mapId]
      exact List.mem_map_of_mem (f := Prod.map id (Value.mapId m)) hv
    have hfilled := hl.filled slot v hv
    have hfilled' := hl'.filled slot _ hv'
    cases v with
    | scalar payload => exact Eq.trans hfilled' (Eq.symm hfilled)
    | object id =>
      have hc := hfilled.resolve_left nofun
      have hc' := hfilled'.resolve_left nofun
      obtain ⟨off, _, hword, _⟩ := hl.copied id _ hc
      rw [hword] at hc ⊢
      rw [ha.copied id off hc, hbase] at hc'
      exact (Option.some.inj hc').symm
  apply Array.toList_inj.mp
  apply Eq.trans hl'.bytes
  rw [imageBytes_mapId, imageBytes_congr hwords, hbase]
  exact hl.bytes.symm

theorem Alike.roots_eq {holes : List Hole}
    (ha : Alike m met hash hash' orig orig' w w' layout holes) :
    w'.stats.roots = w.stats.roots := by
  obtain ⟨f, hl⟩ := ha.left
  obtain ⟨f', hl'⟩ := ha.right
  rw [hl'.roots, length_rootsOf_mapId, hl.roots]

theorem Alike.objects_eq {holes : List Hole}
    (ha : Alike m met hash hash' orig orig' w w' layout holes) :
    w'.stats.objects = w.stats.objects := by
  obtain ⟨f, hl⟩ := ha.left
  obtain ⟨f', hl'⟩ := ha.right
  rw [hl'.objects, ownersOf_mapId, List.length_map, hl.objects]

/-- If different objects stay different, then as many are shared. -/
theorem Alike.shared_eq {holes : List Hole}
    (ha : Alike m met hash hash' orig orig' w w' layout holes) (hinj : Function.Injective m) :
    w'.stats.shared = w.stats.shared := by
  have hkeys : (w.copied.keys.map m).Perm w'.copied.keys := by
    apply (List.perm_ext_iff_of_nodup (Std.ExtTreeMap.nodup_keys.map hinj)
      Std.ExtTreeMap.nodup_keys).mpr
    intro id'
    rw [List.mem_map, mem_keys_copied]
    constructor
    · rintro ⟨id, hid, rfl⟩
      obtain ⟨word, hc⟩ := mem_keys_copied.mp hid
      obtain ⟨f, hl⟩ := ha.left
      obtain ⟨off, _, rfl, _⟩ := hl.copied id word hc
      exact ⟨_, ha.copied id off hc⟩
    · rintro ⟨word', hc'⟩
      obtain ⟨id, word, hid, hc⟩ := ha.exists_copied id' word' hc'
      exact ⟨id, mem_keys_copied.mpr ⟨word, hc⟩, hid⟩
  have hsize := hkeys.length_eq
  rw [List.length_map, Std.ExtTreeMap.length_keys, Std.ExtTreeMap.length_keys] at hsize
  obtain ⟨f, hl⟩ := ha.left
  obtain ⟨f', hl'⟩ := ha.right
  have hcounted := hl.counted
  have hcounted' := hl'.counted
  have hobjects := ha.objects_eq
  omega

/-- If what has one entry on the left is one object on the right, then nothing is shared there. -/
theorem Alike.shared_eq_zero {holes : List Hole}
    (ha : Alike m met hash hash' orig orig' w w' layout holes)
    (hsame : ∀ a b word : Nat, w.copied[a]? = some word → w.copied[b]? = some word → m a = m b) :
    w'.stats.shared = 0 := by
  obtain ⟨f, hl⟩ := ha.left
  obtain ⟨f', hl'⟩ := ha.right
  have hkeys : w'.copied.keys ⊆ ownersOf (layout.map (Entry.mapId m)) := by
    intro id' hid'
    obtain ⟨word', hc'⟩ := mem_keys_copied.mp hid'
    obtain ⟨id, _, rfl, hc⟩ := ha.exists_copied id' word' hc'
    obtain ⟨off, owner, rfl, hmem, _⟩ := hl.copied id _ hc
    rw [ownersOf_mapId, hsame id owner _ hc (hl.owned off owner _ hmem)]
    exact List.mem_map_of_mem (mem_ownersOf (mem_of_mem_placed hmem))
  have hle := (List.subperm_of_subset Std.ExtTreeMap.nodup_keys hkeys).length_le
  rw [Std.ExtTreeMap.length_keys, ← hl'.objects] at hle
  have hcounted := hl'.counted
  omega

end Results

end Writer
end HeapImage
