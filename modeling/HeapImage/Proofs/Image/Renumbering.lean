import HeapImage.Proofs.Image.Decoding

/-!
# Renumbered layouts

The numbers of the objects say in a layout which entry belongs to which object, and they are not
written. Layouts that differ in them only have the same sizes, references at the same offsets, and
the same bytes.
-/

namespace HeapImage
set_option autoImplicit false

section Objects
variable {ρ σ : Type} (f : ρ → σ) (o : Object ρ)

namespace Object

@[simp] theorem extent_map : (o.map f).extent = o.extent := by
  cases o with
  | thunk state => cases state <;> rfl
  | _ => simp [map, extent]

@[simp] theorem slotsAt_map : (o.map f).slotsAt = o.slotsAt := by
  cases o with
  | thunk state => cases state <;> rfl
  | _ => rfl

@[simp] theorem tailSize_map : (o.map f).tailSize = o.tailSize := by
  cases o with
  | thunk state => cases state <;> rfl
  | _ => rfl

@[simp] theorem isLeaf_map : (o.map f).isLeaf = o.isLeaf := by
  cases o with
  | thunk state => cases state <;> rfl
  | _ => rfl

@[simp] theorem payloadSize?_map : (o.map f).payloadSize? = o.payloadSize? := by
  cases o with
  | thunk state => cases state <;> rfl
  | _ => simp [map, payloadSize?]

theorem eq_of_map_eq {o o' : Object Value} {f : Value → Value} (ho : o.isLeaf = true)
    (h : o'.map f = o) : o' = o := by
  have hleaf : o'.isLeaf = true := by rw [← isLeaf_map f, h, ho]
  cases o' <;> first | exact h | cases hleaf

theorem map_of_isLeaf {o : Object Value} (f : Value → Value) (ho : o.isLeaf = true) :
    o.map f = o := by
  cases o <;> first | rfl | cases ho

end Object

end Objects

namespace Object
variable (m : Nat → Nat) (o : Object Value) (pos : Nat)

theorem tail_map (limbsAt : Nat) : (o.map (Value.mapId m)).tail limbsAt = o.tail limbsAt := by
  cases o with
  | thunk state => cases state <;> rfl
  | _ => rfl

theorem slots_map : (o.map (Value.mapId m)).slots pos =
    (o.slots pos).map (Prod.map id (Value.mapId m)) := by
  rw [slots, slots, children_map, slotsAt_map]
  apply List.ext_getElem (by simp)
  intro i _ _
  simp

end Object

/-- The reference is the same, to the renumbered object. -/
def Hole.mapId (m : Nat → Nat) (hole : Hole) : Hole := ⟨hole.slot, m hole.child⟩

theorem Object.holes_map (m : Nat → Nat) (o : Object Value) (pos : Nat) :
    (o.map (Value.mapId m)).holes pos = (o.holes pos).map (Hole.mapId m) := by
  rw [holes, holes, slots_map, List.filterMap_map, List.map_filterMap]
  apply List.filterMap_congr
  intro slot _
  obtain ⟨at', v⟩ := slot
  cases v <;> rfl

namespace Entry

def mapId (m : Nat → Nat) : Entry → Entry
  | object id o => .object (m id) (o.map (Value.mapId m))
  | terminator root => .terminator (root.mapId m)

variable (m : Nat → Nat) (e : Entry) (pos : Nat)

@[simp] theorem size_mapId : (e.mapId m).size = e.size := by
  cases e with
  | object id o => simp [mapId, size]
  | terminator root => rfl

theorem slots_mapId : (e.mapId m).slots pos = (e.slots pos).map (Prod.map id (Value.mapId m)) := by
  cases e with
  | object id o => exact o.slots_map m pos
  | terminator root => rfl

theorem header_mapId : (e.mapId m).header = e.header := by
  cases e with
  | object id o =>
    cases o with
    | thunk state => cases state <;> rfl
    | _ => simp [mapId, header, Object.map, Object.extra, Object.tagNumber, Object.counts]
  | terminator root => rfl

theorem encode_mapId (base : Nat) (f : Nat → Nat) :
    (e.mapId m).encode base f pos = e.encode base f pos := by
  cases e with
  | object id o =>
    rw [encode, header_mapId, encode]
    simp [mapId, refs, refsAt, tail, size, tailSize, o.tail_map]
  | terminator root => rfl

end Entry

section Layouts
variable (m : Nat → Nat) (layout : List Entry) (pos : Nat)

@[simp] theorem totalSize_mapId : totalSize (layout.map (Entry.mapId m)) = totalSize layout := by
  rw [totalSize, totalSize, List.map_map]
  congr 1
  apply List.map_congr_left
  intro e _
  exact e.size_mapId m

theorem placed_mapId : placed pos (layout.map (Entry.mapId m)) =
    (placed pos layout).map (Prod.map id (Entry.mapId m)) := by
  induction layout generalizing pos with
  | nil => rfl
  | cons e rest ih =>
    rw [List.map_cons, placed, placed, ih, Entry.size_mapId]
    rfl

theorem slotsFrom_mapId : slotsFrom pos (layout.map (Entry.mapId m)) =
    (slotsFrom pos layout).map (Prod.map id (Value.mapId m)) := by
  rw [slotsFrom, slotsFrom, placed_mapId, List.flatMap_map, List.map_flatMap]
  apply List.flatMap_congr
  intro p _
  exact p.2.slots_mapId m p.1

theorem imageBytes_mapId (base : Nat) (f : Nat → Nat) :
    imageBytes base f (layout.map (Entry.mapId m)) = imageBytes base f layout := by
  have hentries : encodeAll base f headerSize (layout.map (Entry.mapId m)) =
      encodeAll base f headerSize layout := by
    rw [encodeAll, encodeAll, placed_mapId, List.flatMap_map]
    apply List.flatMap_congr
    intro p _
    exact p.2.encode_mapId m p.1 base f
  rw [imageBytes, imageBytes, hentries]

theorem length_rootsOf_mapId :
    (rootsOf (layout.map (Entry.mapId m))).length = (rootsOf layout).length := by
  induction layout with
  | nil => rfl
  | cons e rest ih =>
    cases e with
    | object id o => exact ih
    | terminator root => exact congrArg (· + 1) ih

theorem ownersOf_mapId : ownersOf (layout.map (Entry.mapId m)) = (ownersOf layout).map m := by
  induction layout with
  | nil => rfl
  | cons e rest ih =>
    cases e with
    | object id o => exact congrArg (m id :: ·) ih
    | terminator root => exact ih

variable {m layout pos} {off owner : Nat} {o : Object Value}

theorem mem_placed_mapId (h : (off, .object owner o) ∈ placed pos layout) :
    (off, .object (m owner) (o.map (Value.mapId m))) ∈
      placed pos (layout.map (Entry.mapId m)) := by
  rw [placed_mapId]
  exact List.mem_map_of_mem h

/-- The entry of a leaf says what the leaf was before it was renumbered. -/
theorem exists_mem_placed_of_mapId (ho : o.isLeaf = true)
    (h : (off, .object owner o) ∈ placed pos (layout.map (Entry.mapId m))) :
    ∃ before, (off, .object before o) ∈ placed pos layout := by
  rw [placed_mapId] at h
  obtain ⟨⟨off', e⟩, hmem, heq⟩ := List.mem_map.mp h
  obtain ⟨rfl, hentry⟩ := Prod.mk.inj heq
  cases e with
  | terminator root => cases hentry
  | object before o' =>
    obtain ⟨_, hobject⟩ := Entry.object.inj hentry
    exact ⟨before, Object.eq_of_map_eq ho hobject ▸ hmem⟩

end Layouts
end HeapImage
