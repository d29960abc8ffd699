import HeapImage.Proofs.Image.Alone
import HeapImage.Proofs.Writer.Checked

/-!
# Writing a record by itself

The record of an object, and a terminator, can be written into a buffer that has just its size. With
every access checked this succeeds, and gives the bytes that the writer appends to an image, where
they stand behind others. What is compared of leaves lies in their records.
-/

namespace HeapImage
set_option autoImplicit false

theorem Bytes.cut_append (first second : Bytes) :
    Bytes.cut (first ++ second) first.size second.size = second := by
  simp [cut]

theorem Bytes.append_overwrite (first second : Bytes) (pos : Nat) (data : List UInt8) :
    Bytes.overwrite (first ++ second) (first.size + pos) data =
      first ++ second.overwrite pos data := by
  induction data generalizing second pos with
  | nil => rfl
  | cons byte rest ih =>
    have hfirst : (first ++ second).setIfInBounds (first.size + pos) byte =
        first ++ second.setIfInBounds pos byte := by
      rw [Array.setIfInBounds_append_right (Nat.le_add_right _ _), Nat.add_sub_cancel_left]
    rw [overwrite, hfirst, Nat.add_assoc, ih, overwrite]

namespace Buffer
variable {b own : Buffer} {first : Bytes} {pos : Nat}

/-- The bytes of the second buffer stand in the first one, behind the given bytes. -/
def EndsWith (b : Buffer) (first : Bytes) (own : Buffer) : Prop := b.bytes = first ++ own.bytes

namespace EndsWith

theorem overwrite (h : b.EndsWith first own) (pos : Nat) (data : List UInt8) :
    (b.overwrite (first.size + pos) data).EndsWith first (own.overwrite pos data) := by
  rw [EndsWith, Buffer.overwrite, h]
  exact Bytes.append_overwrite first own.bytes pos data

theorem putWord (h : b.EndsWith first own) (pos n : Nat) :
    (b.putWord (first.size + pos) n).EndsWith first (own.putWord pos n) :=
  h.overwrite pos _

theorem putHalf (h : b.EndsWith first own) (pos n : Nat) :
    (b.putHalf (first.size + pos) n).EndsWith first (own.putHalf pos n) :=
  h.overwrite pos _

theorem putObject (h : b.EndsWith first own) (base : Nat) (o : Object Value) :
    (b.putObject base first.size o).EndsWith first
      (own.putObject (base + first.size) 0 o) := by
  have hheader := h.putHalf 4 (16 * o.extra + o.tagNumber)
  unfold Buffer.putObject
  simp only [Nat.zero_add]
  cases o with
  | constructor tag fields scalars =>
    have hcounts := (hheader.putWord 8 fields.size).putWord 16 scalars.size
    have hscalars := hcounts.overwrite (24 + 8 * fields.size) scalars.toList
    rwa [← Nat.add_assoc] at hscalars
  | array elements => exact hheader.putWord 8 elements.size
  | byteArray elemSize bytes =>
    exact (hheader.putWord 8 (bytes.size / elemSize.toNat)).overwrite 16 bytes.toList
  | string bytes => exact (hheader.putWord 8 bytes.size).overwrite 16 bytes.toList
  | bigInteger value =>
    have hlimbs := (hheader.putWord 8 (base + (first.size + 24))).putWord 16 value.limbs.length
    have hall := hlimbs.overwrite 24 (value.limbs.flatMap fun limb => leBytes 8 limb.toNat)
    rwa [Nat.add_assoc]
  | thunk | task | promise | mutableRef => exact hheader

theorem putTerminator (h : b.EndsWith first own) (root : Nat) :
    (b.putTerminator first.size root).EndsWith first (own.putTerminator 0 root) :=
  (h.putHalf 4 terminatorTag).putWord 8 root

theorem putScalars (h : b.EndsWith first own) (slots : List (Nat × Value)) :
    (b.putScalars (slots.map fun slot => (first.size + slot.1, slot.2))).EndsWith first
      (own.putScalars slots) := by
  induction slots generalizing b own with
  | nil => exact h
  | cons slot rest ih =>
    obtain ⟨pos, v⟩ := slot
    simp only [Buffer.putScalars, List.map_cons, List.foldl_cons] at ih ⊢
    cases v with
    | scalar payload => exact ih (h.putWord pos (scalarWord payload))
    | object id => exact ih h

end EndsWith

/-- A terminator in a buffer that holds nothing else. -/
def terminator (root : Nat) : Buffer :=
  ((Buffer.empty 0).reserve terminatorSize).putTerminator 0 root

def terminator? (root : Nat) : Option Buffer := do
  let b ← (Buffer.empty 0).reserve? terminatorSize
  b.putTerminator? 0 root

theorem size_terminator (root : Nat) : (terminator root).size = terminatorSize := by
  rw [terminator, size_putTerminator, size_reserve, size_empty, Nat.zero_add]

theorem terminator?_eq {root : Nat} (hroot : root < wordLimit) :
    terminator? root = some (terminator root) := by
  have hsize : ((Buffer.empty 0).reserve terminatorSize).size = terminatorSize := by
    rw [size_reserve, size_empty, Nat.zero_add]
  have hreserve : (Buffer.empty 0).reserve? terminatorSize =
      some ((Buffer.empty 0).reserve terminatorSize) :=
    reserve?_eq (by decide) rfl rfl
  rw [terminator?, hreserve, Option.bind_eq_bind, Option.bind_some,
    putTerminator?_eq (hsize.trans_lt (by decide)) (Nat.le_of_eq hsize.symm)
      ((Buffer.empty 0).putHalf_reserve (by decide)) hroot]
  rfl

end Buffer

theorem Entry.isRecord_of_toList {bytes : Bytes} {e : Entry} {base : Nat} {f : Nat → Nat}
    (he : e.Valid) (h : bytes.toList = e.encode base f 0) (hlimit : e.size < 2 ^ 64) :
    IsRecord bytes base ⟨0, e.size, e.shape⟩ := by
  have hsize : bytes.size = e.size := by
    rw [← Array.length_toList, h, Entry.length_encode]
  have hlist : bytes.toList = [] ++ (e.encode base f 0 ++ []) := by
    rw [h, List.append_nil, List.nil_append]
  exact isRecord_record he (Bytes.shows_of_toList hlist) (by omega) (hsize.trans_lt hlimit)

theorem Bytes.recordAt_append {first own : Bytes} {base : Nat} {shape : Shape}
    (h : IsRecord own (base + first.size) ⟨0, own.size, shape⟩)
    (hlimit : first.size + own.size < wordLimit) :
    Bytes.recordAt (first ++ own) base first.size = .ok ⟨first.size, own.size, shape⟩ := by
  have hsize : (first ++ own).size = first.size + own.size := Array.size_append
  have hcut : IsRecord ((first ++ own).cut first.size own.size) (base + first.size)
      ⟨0, own.size, shape⟩ := by rwa [Bytes.cut_append]
  have hrecord : IsRecord (first ++ own) base ⟨first.size, own.size, shape⟩ :=
    (isRecord_cut_iff (Nat.le_of_eq hsize.symm)).mp hcut
  exact Bytes.recordAt_of_isRecord (by omega) hrecord

namespace Object
variable {o : Object Value} {address size : Nat}

/-- The record of an object in a buffer that holds nothing else. It is going to stand at the given
address. -/
def record (o : Object Value) (address : Nat) : Buffer :=
  (((Buffer.empty 0).reserve (o.recordSize?.getD 0)).putObject address 0 o).putScalars (o.slots 0)

def record? (o : Object Value) (address : Nat) : Option Buffer := do
  let b ← (Buffer.empty 0).reserve? (← o.recordSize?)
  let b ← b.putObject? address 0 o
  b.putScalars? (← o.slots? 0)

theorem slots_eq_map (o : Object Value) (pos : Nat) :
    o.slots pos = (o.slots 0).map fun slot => (pos + slot.1, slot.2) := by
  apply List.ext_getElem
  · simp [slots]
  · intro i _ _
    simp [slots, Nat.add_assoc]

theorem holes_eq_map (o : Object Value) (pos : Nat) :
    o.holes pos = (o.holes 0).map fun hole => ⟨pos + hole.slot, hole.child⟩ := by
  rw [holes, slots_eq_map, List.filterMap_map, holes, List.map_filterMap]
  simp [Function.comp_def]

theorem size_record (hrecord : o.recordSize? = some size) (address : Nat) :
    (o.record address).size = size := by
  rw [record, hrecord, Buffer.size_putScalars, Buffer.size_putObject, Buffer.size_reserve,
    Buffer.size_empty, Nat.zero_add, Option.getD_some]

/-- No access leaves a buffer of the size of the record. -/
theorem record?_eq (ho : o.WellFormed) (hrecord : o.recordSize? = some size)
    (haligned : address % 8 = 0) (haddress : address + size < wordLimit) :
    o.record? address = some (o.record address) := by
  have hempty : (Buffer.empty 0).size = 0 := rfl
  have hput := putRecord?_eq (b := Buffer.empty 0) ho hrecord haligned rfl
    (by rwa [hempty, Nat.zero_add])
  rw [hempty] at hput
  obtain ⟨hslots, hreserve, hobject, hscalars⟩ := hput
  simp only [record?, record, hrecord, hreserve, hobject, hslots, hscalars, Option.bind_eq_bind,
    Option.bind_some, Option.getD_some]

/-- References that are filled in leave the bytes those of the entry. -/
theorem exists_putScalars_encode {b : Buffer} {e : Entry} {f : Nat → Nat}
    {slots : List (Nat × Value)} (h : b.bytes.toList = e.encode address f 0)
    (hslots : ∀ s ∈ slots, s ∈ e.slots 0) :
    ∃ g, (b.putScalars slots).bytes.toList = e.encode address g 0 := by
  induction slots generalizing b f with
  | nil => exact ⟨f, h⟩
  | cons slot rest ih =>
    obtain ⟨hslot, hrest⟩ := List.forall_mem_cons.mp hslots
    obtain ⟨pos, v⟩ := slot
    cases v with
    | object id => exact ih h hrest
    | scalar payload =>
      obtain ⟨before, after, hlength, hold, hnew⟩ :=
        Entry.encode_fillIn address f hslot (scalarWord payload)
      have hwrite := Bytes.toList_overwrite (h.trans hold)
        (show _ = (leBytes 8 (scalarWord payload)).length by rw [length_leBytes, length_leBytes])
      rw [← hnew, ← Nat.zero_add before.length, hlength] at hwrite
      have hcons : b.putScalars ((pos, .scalar payload) :: rest) =
          (b.putWord pos (scalarWord payload)).putScalars rest := by
        simp only [Buffer.putScalars, List.foldl_cons]
      rw [hcons]
      exact ih hwrite hrest

theorem exists_toList_record (hrecord : o.recordSize? = some size) (address id : Nat) :
    ∃ f, (o.record address).bytes.toList = (Entry.object id o).encode address f 0 := by
  obtain ⟨hextent, _⟩ := Object.recordSize?_eq_some_iff.mp hrecord
  have hobject := (Buffer.empty 0).toList_putObject_reserve address id o
  rw [Buffer.size_empty] at hobject
  rw [record, hrecord, Option.getD_some, hextent]
  exact exists_putScalars_encode hobject fun s hs => hs

/-- The reader finds the shape of the object in its record, and the size that it was written with. -/
theorem isRecord_record (ho : o.WellFormed) (hsettled : o.Settled)
    (hrecord : o.recordSize? = some size) (address : Nat) :
    IsRecord (o.record address).bytes address ⟨0, size, o.shape⟩ := by
  obtain ⟨rfl, hlt⟩ := Object.recordSize?_eq_some_iff.mp hrecord
  obtain ⟨_, hbytes⟩ := exists_toList_record hrecord address 0
  exact Entry.isRecord_of_toList (e := .object 0 o) ⟨ho, hsettled⟩ hbytes hlt

end Object

namespace Writer
variable {w : Writer} {o : Object Value} {size : Nat}

/-- Appending an object puts its record, as it is by itself, behind the bytes that are there. -/
theorem data_appendObject (w : Writer) (o : Object Value) :
    (w.appendObject o).data = w.data ++ (o.record (w.base.toNat + w.size)).bytes := by
  have hreserve : (w.buffer.reserve (o.recordSize?.getD 0)).EndsWith w.data
      ((Buffer.empty 0).reserve (o.recordSize?.getD 0)) := by
    simp [Buffer.EndsWith, Buffer.reserve, Buffer.empty, data]
  have hscalars := (hreserve.putObject w.base.toNat o).putScalars (o.slots 0)
  rwa [← Object.slots_eq_map] at hscalars

theorem recordAt_appendObject (ho : o.WellFormed) (hsettled : o.Settled)
    (hrecord : o.recordSize? = some size) (hroom : w.hasRoom size = true) :
    (w.appendObject o).data.recordAt w.base.toNat w.size = .ok ⟨w.size, size, o.shape⟩ := by
  have halone := Object.isRecord_record ho hsettled hrecord (w.base.toNat + w.size)
  have hsize := Object.size_record hrecord (w.base.toNat + w.size)
  rw [hasRoom, decide_eq_true_eq] at hroom
  have hlimit : w.size + size < wordLimit := by omega
  rw [data_appendObject]
  subst hsize
  exact Bytes.recordAt_append halone hlimit

theorem data_terminate (w : Writer) (root : Nat) :
    (w.terminate root).data = w.data ++ (Buffer.terminator root).bytes := by
  have hreserve : (w.buffer.reserve terminatorSize).EndsWith w.data
      ((Buffer.empty 0).reserve terminatorSize) := by
    simp [Buffer.EndsWith, Buffer.reserve, Buffer.empty, data]
  exact hreserve.putTerminator root

theorem recordAt_terminate (root : Nat) (hroom : w.hasRoom terminatorSize = true) :
    (w.terminate root).data.recordAt w.base.toNat w.size =
      .ok ⟨w.size, terminatorSize, .terminator⟩ := by
  have hbytes := (Buffer.empty 0).toList_putTerminator_reserve (w.base.toNat + w.size)
    (.object 0) (f := fun _ => root) rfl
  have halone : IsRecord (Buffer.terminator root).bytes (w.base.toNat + w.size)
      ⟨0, terminatorSize, .terminator⟩ :=
    Entry.isRecord_of_toList (e := .terminator (.object 0)) trivial hbytes (by decide)
  rw [hasRoom, decide_eq_true_eq] at hroom
  have hlimit : w.size + terminatorSize < wordLimit := by omega
  rw [← Buffer.size_terminator root] at halone hlimit ⊢
  rw [data_terminate]
  exact Bytes.recordAt_append halone hlimit

end Writer

/-- What is compared of a record lies in it. -/
theorem Buffer.leafKey?_cut (b : Buffer) {pos contentsAt size : Nat} (hcontents : contentsAt ≤ size)
    (height : 8 ≤ size) (hsize : size < wordLimit) (h : pos + size ≤ b.size) :
    Buffer.leafKey? ⟨b.bytes.cut pos size, 0⟩ 0 contentsAt size =
      some (b.leafKey pos contentsAt size) := by
  have hcut : (Buffer.mk (b.bytes.cut pos size) 0).size = size := Bytes.size_cut h
  rw [Buffer.leafKey?_eq (by omega) hcontents height (by omega)]
  simp only [Buffer.leafKey, Nat.zero_add]
  rw [Bytes.extract_cut height, Bytes.extract_cut (Nat.le_refl size)]

end HeapImage
