import HeapImage.Proofs.Writer.InBounds
import HeapImage.Writer.Checked

/-!
# Nothing wraps, and nothing is out of bounds

No check of the writer ever fails. What has been written and recorded lies inside of the buffer, and
a record is appended only if the addresses of all its bytes are words. So with the checks the writer
does what it does without them.
-/

namespace HeapImage
set_option autoImplicit false

section Words
variable {a b base offset pos : Nat}

theorem add?_eq (h : a + b < wordLimit) : add? a b = some (a + b) := if_pos h

theorem mul?_eq (h : a * b < wordLimit) : mul? a b = some (a * b) := if_pos h

theorem sub?_eq (h : b ≤ a) : sub? a b = some (a - b) := if_pos h

/-- Records are aligned and stand behind the header, so that references to them are proper. -/
theorem reference?_eq (hbase : base % 8 = 0) (hoffset : offset % 8 = 0) (hpos : 0 < offset)
    (h : base + offset < wordLimit) : reference? base offset = some (base + offset) := by
  rw [reference?, add?_eq h, Option.bind_eq_bind, Option.bind_some, if_pos (by omega)]

end Words

namespace Buffer
variable {b : Buffer} {base pos n contentsAt size : Nat}

theorem overwrite_append (b : Buffer) (pos : Nat) (first second : List UInt8) :
    b.overwrite pos (first ++ second) =
      (b.overwrite pos first).overwrite (pos + first.length) second := by
  rw [overwrite, Bytes.overwrite_append]
  rfl

/-- The zero that begins a header is there already when the record was reserved. -/
theorem putHalf_reserve (b : Buffer) {count : Nat} (hcount : 4 ≤ count) :
    (b.reserve count).putHalf b.size 0 = b.reserve count := by
  have hzeros : leBytes 4 0 = List.replicate 4 0 := by decide
  have hshows : (b.reserve count).bytes.Shows b.size (leBytes 4 0) := by
    intro i hi
    rw [length_leBytes] at hi
    change (b.bytes ++ Array.replicate count 0)[b.bytes.size + i]? = _
    rw [hzeros, Array.getElem?_append_right (Nat.le_add_right _ _)]
    rw [Nat.add_sub_cancel_left, Array.getElem?_replicate, List.getElem?_replicate,
      if_pos (by omega), if_pos hi]
  rw [putHalf, overwrite, Bytes.overwrite_of_shows hshows]

theorem slice?_eq {stop : Nat} (hle : pos ≤ stop) (h : stop ≤ b.size) :
    b.slice? pos stop = some (b.bytes.extract pos stop) := if_pos ⟨hle, h⟩

theorem reserve?_eq {count : Nat} (h : b.size + count < wordLimit) (hsize : b.size % 8 = 0)
    (hcount : count % 8 = 0) : b.reserve? count = some (b.reserve count) := by
  rw [reserve?, add?_eq h, Option.bind_eq_bind, Option.bind_some, if_pos (by omega)]

theorem truncate?_eq (h : n ≤ b.size) (hn : n % 8 = 0) : b.truncate? n = some (b.truncate n) :=
  if_pos ⟨h, hn⟩

section Small
variable (hsmall : b.size < wordLimit)
include hsmall

theorem overwrite?_eq {data : List UInt8} (h : pos + data.length ≤ b.size) :
    b.overwrite? pos data = some (b.overwrite pos data) := by
  rw [overwrite?, add?_eq (by omega), Option.bind_eq_bind, Option.bind_some, if_pos h]

theorem putWord?_eq (h : pos + 8 ≤ b.size) (hn : n < wordLimit) :
    b.putWord? pos n = some (b.putWord pos n) := by
  rw [putWord?, if_pos hn]
  exact overwrite?_eq hsmall (by rwa [length_leBytes])

theorem putHalf?_eq (h : pos + 4 ≤ b.size) (hn : n < 0x100000000) :
    b.putHalf? pos n = some (b.putHalf pos n) := by
  rw [putHalf?, if_pos hn]
  exact overwrite?_eq hsmall (by rwa [length_leBytes])

theorem putWords?_eq {words : List Nat} (h : pos + 8 * words.length ≤ b.size)
    (hwords : ∀ n ∈ words, n < wordLimit) :
    b.putWords? pos words = some (b.overwrite pos (words.flatMap (leBytes 8))) := by
  induction words generalizing b pos with
  | nil => rfl
  | cons n rest ih =>
    rw [List.length_cons] at h
    obtain ⟨hn, hrest⟩ := List.forall_mem_cons.mp hwords
    have hsize : (b.putWord pos n).size = b.size := size_putWord b pos n
    rw [putWords?, putWord?_eq hsmall (by omega) hn, Option.bind_eq_bind, Option.bind_some,
      add?_eq (by omega), Option.bind_eq_bind, Option.bind_some,
      ih (hsize.trans_lt hsmall) (by omega) hrest, List.flatMap_cons, putWord, overwrite_append,
      length_leBytes]

theorem putScalars?_eq {slots : List (Nat × Value)} (h : ∀ slot ∈ slots, slot.1 + 8 ≤ b.size) :
    b.putScalars? slots = some (b.putScalars slots) := by
  induction slots generalizing b with
  | nil => rfl
  | cons slot rest ih =>
    obtain ⟨hslot, hrest⟩ := List.forall_mem_cons.mp h
    obtain ⟨pos, v⟩ := slot
    cases v with
    | scalar payload =>
      have hsize : (b.putWord pos (scalarWord payload)).size = b.size := size_putWord b pos _
      have hfits : ∀ slot ∈ rest, slot.1 + 8 ≤ (b.putWord pos (scalarWord payload)).size := by
        rw [hsize]
        exact hrest
      rw [putScalars?, putWord?_eq hsmall hslot (scalarWord_lt payload), Option.bind_eq_bind,
        Option.bind_some, ih (hsize.trans_lt hsmall) hfits, putScalars, putScalars, List.foldl_cons]
    | object id => rw [putScalars?, ih hsmall hrest, putScalars, putScalars, List.foldl_cons]

theorem leafKey?_eq (hcontents : contentsAt ≤ size) (height : 8 ≤ size) (h : pos + size ≤ b.size) :
    b.leafKey? pos contentsAt size = some (b.leafKey pos contentsAt size) := by
  rw [leafKey?, add?_eq (by omega), add?_eq (by omega), add?_eq (by omega), add?_eq (by omega)]
  simp only [Option.bind_eq_bind, Option.bind_some]
  rw [slice?_eq (by omega) (by omega), slice?_eq (by omega) h]
  rfl

theorem putHeader?_eq {tag extra : Nat} (h : pos + 8 ≤ b.size) (hzero : b.putHalf pos 0 = b)
    (htag : 16 * extra + tag < 2 ^ 32) :
    b.putHeader? pos tag extra = some (b.putHalf (pos + 4) (16 * extra + tag)) := by
  rw [putHeader?, putHalf?_eq hsmall (by omega) (by decide), hzero, Option.bind_eq_bind,
    Option.bind_some, add?_eq (by omega), Option.bind_eq_bind, Option.bind_some,
    putHalf?_eq hsmall (by omega) htag]

theorem putTerminator?_eq (h : pos + 16 ≤ b.size) (hzero : b.putHalf pos 0 = b)
    (hn : n < wordLimit) : b.putTerminator? pos n = some (b.putTerminator pos n) := by
  have hsize : (b.putHalf (pos + 4) (16 * 0 + terminatorTag)).size = b.size := size_putHalf b _ _
  rw [putTerminator?, putHeader?_eq hsmall (by omega) hzero (by decide), Option.bind_eq_bind,
    Option.bind_some, add?_eq (by omega), Option.bind_eq_bind, Option.bind_some,
    putWord?_eq (hsize.trans_lt hsmall) (by omega) hn]
  rfl

theorem putCounted?_eq {slot start : Nat} {data : Bytes} (hslot : slot + 8 ≤ b.size)
    (hstart : start + data.size ≤ b.size) (hn : n < wordLimit) :
    ((b.putWord? slot n).bind fun later => later.overwrite? start data.toList) =
      some ((b.putWord slot n).overwrite start data.toList) := by
  have hsize := b.size_putWord slot n
  rw [putWord?_eq hsmall hslot hn, Option.bind_some]
  exact overwrite?_eq (hsize.trans_lt hsmall) (hstart.trans_eq hsize.symm)

theorem putLimbs?_eq {slot start : Nat} {limbs : List UInt64} (hslot : slot + 8 ≤ b.size)
    (hstart : start + 8 * limbs.length ≤ b.size) (hn : n < wordLimit) :
    ((b.putWord? slot n).bind fun later => later.putWords? start (limbs.map UInt64.toNat)) =
      some ((b.putWord slot n).overwrite start
        (limbs.flatMap fun limb => leBytes 8 limb.toNat)) := by
  have hsize := b.size_putWord slot n
  have hlimbs : ∀ n ∈ limbs.map UInt64.toNat, n < wordLimit := by
    intro n hn
    obtain ⟨limb, _, rfl⟩ := List.mem_map.mp hn
    exact limb.toNat_lt
  rw [putWord?_eq hsmall hslot hn, Option.bind_some, putWords?_eq (hsize.trans_lt hsmall) ?_ hlimbs,
    List.flatMap_map]
  rwa [List.length_map, hsize]

/-- Besides the header, a count or two and what is counted are written. -/
theorem putObject?_eq {o : Object Value} (ho : o.WellFormed) (h : pos + o.extent ≤ b.size)
    (hzero : b.putHalf pos 0 = b) (hbase : base % 8 = 0) (hpos : pos % 8 = 0)
    (haddress : base + b.size < wordLimit) :
    b.putObject? base pos o = some (b.putObject base pos o) := by
  have hextent := o.le_extent
  have hhalf := size_putHalf b (pos + 4) (16 * o.extra + o.tagNumber)
  unfold putObject? putObject
  rw [putHeader?_eq hsmall (by omega) hzero o.header_lt, Option.bind_eq_bind, Option.bind_some]
  generalize b.putHalf (pos + 4) (16 * o.extra + o.tagNumber) = b' at hhalf ⊢
  rw [← hhalf] at h haddress hsmall
  have hfirst : add? pos 8 = some (pos + 8) := add?_eq (by omega)
  have hsecond : add? pos 16 = some (pos + 16) := add?_eq (by omega)
  cases o with
  | constructor tag fields scalars =>
    simp only [Object.extent] at h
    have hsize := b'.size_putWord (pos + 8) fields.size
    have hthird : add? pos 24 = some (pos + 24) := add?_eq (by omega)
    have hmul : mul? 8 fields.size = some (8 * fields.size) := mul?_eq (by omega)
    have hstart : add? (pos + 24) (8 * fields.size) = some (pos + 24 + 8 * fields.size) :=
      add?_eq (by omega)
    simp only [hfirst, hsecond, hthird, hmul, hstart, Option.bind_eq_bind, Option.bind_some]
    rw [putWord?_eq hsmall (by omega) (by omega), Option.bind_some]
    exact putCounted?_eq (hsize.trans_lt hsmall) (by omega) (by omega) (by omega)
  | array elements =>
    simp only [Object.extent] at h
    simp only [hfirst, Option.bind_eq_bind, Option.bind_some]
    exact putWord?_eq hsmall (by omega) (by omega)
  | byteArray elemSize bytes =>
    simp only [Object.extent] at h
    have hle := Nat.div_le_self bytes.size elemSize.toNat
    have hdiv : div? bytes.size elemSize.toNat = some (bytes.size / elemSize.toNat) :=
      if_neg fun hzero => ho.1 (UInt8.toNat_inj.mp hzero)
    simp only [hfirst, hdiv, hsecond, Option.bind_eq_bind, Option.bind_some]
    exact putCounted?_eq hsmall (by omega) (by omega) (by omega)
  | string bytes =>
    simp only [Object.extent] at h
    simp only [hfirst, hsecond, Option.bind_eq_bind, Option.bind_some]
    exact putCounted?_eq hsmall (by omega) (by omega) (by omega)
  | bigInteger value =>
    simp only [Object.extent] at h
    have hsize := b'.size_putWord (pos + 8) (base + (pos + 24))
    have hinline : add? pos 24 = some (pos + 24) := add?_eq (by omega)
    have hreference : reference? base (pos + 24) = some (base + (pos + 24)) :=
      reference?_eq hbase (by omega) (by omega) (by omega)
    simp only [hinline, hfirst, hreference, hsecond, Option.bind_eq_bind, Option.bind_some]
    rw [putWord?_eq hsmall (by omega) (by omega), Option.bind_some]
    exact putLimbs?_eq (hsize.trans_lt hsmall) (by omega) (by omega) (by omega)
  | thunk | task | promise | mutableRef => rfl

end Small
end Buffer
namespace Object
variable {o : Object Value} {pos : Nat}

theorem exists_slotsFrom? {children : List Value} (h : pos + 8 * children.length < wordLimit) :
    ∃ slots, slotsFrom? pos children = some slots := by
  induction children generalizing pos with
  | nil => exact ⟨[], rfl⟩
  | cons child rest ih =>
    rw [List.length_cons] at h
    have hfits : pos + 8 + 8 * rest.length < wordLimit := by omega
    obtain ⟨slots, hslots⟩ := ih hfits
    rw [slotsFrom?, add?_eq (by omega), Option.bind_eq_bind, Option.bind_some, hslots]
    exact ⟨_, rfl⟩

theorem slots?_eq (h : pos + o.extent < wordLimit) : o.slots? pos = some (o.slots pos) := by
  have hfilled := o.filled_le_extent
  have hfits : pos + o.slotsAt + 8 * o.children.length < wordLimit := by omega
  obtain ⟨slots, hslots⟩ := exists_slotsFrom? hfits
  have hsome : o.slots? pos = some slots := by
    rw [slots?, add?_eq (by omega), Option.bind_eq_bind, Option.bind_some, hslots]
  rw [hsome, Writer.eq_slots_of_slots? hsome]

/-- A record of zeros is reserved, and all but the references to objects is written to it. -/
theorem putRecord?_eq {b : Buffer} {base size : Nat} (ho : o.WellFormed)
    (hrecord : o.recordSize? = some size) (hbase : base % 8 = 0) (hmod : b.size % 8 = 0)
    (haddress : base + (b.size + size) < wordLimit) :
    o.slots? b.size = some (o.slots b.size) ∧ b.reserve? size = some (b.reserve size) ∧
      (b.reserve size).putObject? base b.size o = some ((b.reserve size).putObject base b.size o) ∧
      ((b.reserve size).putObject base b.size o).putScalars? (o.slots b.size) =
        some (((b.reserve size).putObject base b.size o).putScalars (o.slots b.size)) := by
  obtain ⟨hextent, _⟩ := Object.recordSize?_eq_some_iff.mp hrecord
  have hle : o.extent ≤ size := hextent.symm ▸ le_roundUp o.extent
  have hleast := o.le_extent
  have hsize := b.size_reserve size
  have hsmall : (b.reserve size).size < wordLimit := by omega
  refine ⟨slots?_eq (by omega), Buffer.reserve?_eq (by omega) hmod (hextent ▸ roundUp_mod _),
    Buffer.putObject?_eq hsmall ho (by omega) (b.putHalf_reserve (by omega)) hbase hmod (by omega),
    Buffer.putScalars?_eq ?_ ?_⟩
  · rwa [Buffer.size_putObject]
  · intro slot hslot
    have hfits := Object.slots_fit hslot
    rw [Buffer.size_putObject]
    omega

end Object

namespace Writer
variable {w : Writer} {hash : ContentHash} {h : Heap} {o : Object Value} {id size : Nat}

theorem Addressable.reference?_eq (hw : w.InBounds) {offset : Nat} (hoffset : w.Addressable offset) :
    reference? w.base.toNat offset = some (w.refTo offset) :=
  HeapImage.reference?_eq hw.base_mod hoffset.aligned
    (Nat.lt_of_lt_of_le (by decide) hoffset.header_le) hoffset.address

theorem findLeaf?_eq {b : Buffer} {contentsAt : Nat} {key : Bytes} {bucket : List LeafRecord}
    (hread : ∀ leaf ∈ bucket, leaf.size = size →
      b.leafKey? leaf.offset contentsAt size = some (b.leafKey leaf.offset contentsAt size)) :
    findLeaf? b contentsAt size key bucket = some (bucket.find? fun leaf =>
      leaf.size == size && b.leafKey leaf.offset contentsAt size == key) := by
  induction bucket with
  | nil => rfl
  | cons leaf rest ih =>
    obtain ⟨hleaf, hrest⟩ := List.forall_mem_cons.mp hread
    rw [findLeaf?, List.find?_cons, ih hrest]
    by_cases hsize : leaf.size = size
    · rw [if_pos hsize, hleaf hsize, Option.bind_eq_bind, Option.bind_some, beq_iff_eq.mpr hsize,
        Bool.true_and]
      by_cases hkey : b.leafKey leaf.offset contentsAt size = key
      · rw [if_pos hkey, beq_iff_eq.mpr hkey]
        rfl
      · rw [if_neg hkey, beq_false_of_ne hkey]
    · rw [if_neg hsize, beq_false_of_ne hsize, Bool.false_and]

section Copy
variable (hw : w.InBounds) (hroom : w.hasRoom size = true) (hrecord : o.recordSize? = some size)
include hw hroom hrecord

theorem appendObject?_eq (ho : o.WellFormed) : w.appendObject? o = some (w.appendObject o) := by
  rw [hasRoom, decide_eq_true_eq] at hroom
  obtain ⟨hslots, hreserve, hobject, hscalars⟩ :=
    Object.putRecord?_eq ho hrecord hw.base_mod hw.size_mod hroom.2
  simp only [appendObject?, appendObject, Writer.size, hrecord, hslots, hreserve, hobject, hscalars,
    Option.bind_eq_bind, Option.bind_some, Option.getD_some]
  rfl

/-- Leaves are compared only if they are of one size, so what is compared lies inside of both, even
if they are of different kinds. -/
theorem unifyLeaf?_eq (hash : ContentHash) :
    (w.appendObject o).unifyLeaf? hash w.size o.contentsAt =
      some ((w.appendObject o).unifyLeaf hash w.size o.contentsAt) := by
  obtain ⟨hextent, _⟩ := Object.recordSize?_eq_some_iff.mp hrecord
  have hle : 16 ≤ size := hextent.symm ▸ Nat.le_trans o.le_extent (le_roundUp o.extent)
  have happend := hw.appendObject hroom hrecord
  have hsize : (w.appendObject o).size = w.size + size := by
    rw [size_appendObject, hrecord, Option.getD_some]
  have hlast : (w.appendObject o).size - w.size = size := by
    rw [hsize, Nat.add_sub_cancel_left]
  have hread : ∀ offset, offset + size ≤ (w.appendObject o).size →
      (w.appendObject o).buffer.leafKey? offset o.contentsAt size =
        some ((w.appendObject o).buffer.leafKey offset o.contentsAt size) := by
    intro offset hoffset
    exact Buffer.leafKey?_eq happend.size_lt (Nat.le_trans o.contentsAt_le hle) (by omega) hoffset
  have hsub : sub? (w.appendObject o).size w.size = some size := by
    rw [sub?_eq (by omega), hlast]
  have hkey : (w.appendObject o).buffer.leafKey? w.size o.contentsAt size =
      some ((w.appendObject o).lastKey w.size o.contentsAt) := by
    rw [hread _ (Nat.le_of_eq hsize.symm), lastKey, hlast]
  have hfind : findLeaf? (w.appendObject o).buffer o.contentsAt size
      ((w.appendObject o).lastKey w.size o.contentsAt)
      ((w.appendObject o).leaves.getD (hash ((w.appendObject o).lastKey w.size o.contentsAt)) []) =
        some ((w.appendObject o).equalLeaf? hash w.size o.contentsAt) := by
    rw [equalLeaf?, hlast]
    apply findLeaf?_eq
    intro leaf hleaf heq
    exact hread _ (heq ▸ (happend.leaves _ leaf hleaf).le_stop)
  rw [unifyLeaf?, unifyLeaf_eq]
  split
  · simp only [hsub, hkey, hfind, Option.bind_eq_bind, Option.bind_some]
    cases (w.appendObject o).equalLeaf? hash w.size o.contentsAt with
    | some leaf =>
      have htruncate : (w.appendObject o).buffer.truncate? w.size =
          some ((w.appendObject o).buffer.truncate w.size) :=
        Buffer.truncate?_eq (by change _ ≤ (w.appendObject o).size; omega) hw.size_mod
      have hobjects : sub? (w.appendObject o).stats.objects 1 =
          some ((w.appendObject o).stats.objects - 1) := sub?_eq (Nat.le_add_left _ _)
      simp only [htruncate, hobjects, Option.bind_some]
      rfl
    | none =>
      rw [recordLeaf, hlast]
      rfl
  · rfl

end Copy

theorem copyObject?_eq (hw : w.InBounds) (ho : o.WellFormed) (hnone : o.obstacle? w.hasRoom = none)
    (hash : ContentHash) (id : Nat) :
    w.copyObject? hash id o = some (w.copyObject hash id o) := by
  obtain ⟨_, size, hrecord, hroom⟩ := Object.obstacle?_eq_none_iff.mp hnone
  rw [copyObject?]
  simp only [appendObject?_eq hw hroom hrecord ho, settle?, Option.bind_eq_bind, Option.bind_some]
  cases hleaf : o.isLeaf with
  | false =>
    have hreference := (hw.addressable_size hroom).reference?_eq hw
    rw [if_neg Bool.false_ne_true, Option.bind_some, copyObject_of_not_isLeaf hleaf]
    change (reference? w.base.toNat w.size).bind _ = _
    rw [hreference]
    rfl
  | true =>
    obtain ⟨_, haddressable⟩ := hw.unifyLeaf hroom hrecord hash hleaf
    have hbase : ((w.appendObject o).unifyLeaf hash w.size o.contentsAt).1.base = w.base :=
      base_unifyLeaf _ _ _ _
    have hreference := haddressable.reference?_eq hw
    rw [if_pos rfl, unifyLeaf?_eq hw hroom hrecord hash, Option.bind_some,
      copyObject_of_isLeaf hleaf]
    rw [hbase, hreference, refTo, refTo, hbase]
    rfl

section Rounds
variable {next : Hole} {rest : List Hole}

theorem drain?_of_done (htodo : w.todo = []) : w.drain? hash h = some (w, none) := by
  rw [drain?]
  split
  · rfl
  · simp_all

theorem drain?_of_obstacle {e : Obstacle} (htodo : w.todo = next :: rest)
    (he : w.obstacle? h next.child = some e) : w.drain? hash h = some (w, some e) := by
  rw [drain?]
  split
  · simp_all
  · rename_i hnext
    cases htodo.symm.trans hnext
    rw [he]

theorem drain?_of_advance? {later : Writer} (htodo : w.todo = next :: rest)
    (hnone : w.obstacle? h next.child = none)
    (hadvance : w.advance? hash h next rest = some later) :
    w.drain? hash h = later.drain? hash h := by
  rw [drain?]
  split
  · simp_all
  · rename_i hnext
    cases htodo.symm.trans hnext
    rw [hnone]
    dsimp only
    split
    · rename_i hfound
      cases hadvance.symm.trans hfound
      rfl
    · rename_i hfound
      cases hadvance.symm.trans hfound

end Rounds

section Traversal
variable (hw : w.InBounds) (hh : h.WellFormed)
include hw hh

theorem store?_eq (hnone : w.obstacle? h id = none) :
    w.store? hash h id = some (w.store hash h id) := by
  rcases obstacle?_eq_none_iff.mp hnone with ⟨stored, hc⟩ | ⟨hc, ho⟩
  · rw [store_of_copied hc, store?, hc]
  · rw [store_of_new hc, store?, hc]
    exact copyObject?_eq hw (hh.object id) ho hash id

theorem advance?_eq {next : Hole} {rest : List Hole} (htodo : w.todo = next :: rest)
    (hnone : w.obstacle? h next.child = none) :
    w.advance? hash h next rest = some (w.advance hash h next rest) := by
  have hpop := hw.pop htodo
  have hstore : ({ w with todo := rest } : Writer).store? hash h next.child = some _ :=
    store?_eq hpop hh hnone
  obtain ⟨hcopy, hstored⟩ : ({ w with todo := rest }.store hash h next.child).1.InBounds ∧
      ({ w with todo := rest }.store hash h next.child).2 < wordLimit := hpop.store hnone
  have hsize : w.size ≤ (w.advance hash h next rest).size :=
    ((AtLeast.refl w).advance next rest).size_le
  have hslot := hw.holes next (htodo ▸ List.mem_cons_self)
  rw [Writer.advance, size_fill] at hsize
  rw [advance?, hstore, Option.bind_eq_bind, Option.bind_some, fill?,
    Buffer.putWord?_eq hcopy.size_lt (Nat.le_trans hslot hsize) hstored]
  rfl

theorem drain?_eq : w.drain? hash h = some (w.drain hash h) := by
  fun_induction Writer.drain w hash h with
  | case1 w htodo => exact drain?_of_done htodo
  | case2 w next rest htodo e he => exact drain?_of_obstacle htodo he
  | case3 w next rest htodo hnone ih =>
    rw [drain?_of_advance? htodo hnone (advance?_eq hw hh htodo hnone)]
    exact ih (hw.advance htodo hnone)

theorem storeRoot?_eq {root : Value} (hnone : root.id?.bind (w.obstacle? h) = none) :
    w.storeRoot? hash h root = some (w.storeRoot hash h root) := by
  cases root with
  | scalar payload => rfl
  | object id => exact store?_eq hw hh hnone

end Traversal

theorem terminate?_eq (hw : w.InBounds) (hroom : w.hasRoom terminatorSize = true) {root : Nat}
    (hroot : root < wordLimit) : w.terminate? root = some (w.terminate root) := by
  rw [hasRoom, decide_eq_true_eq] at hroom
  have hsize : (w.buffer.reserve terminatorSize).size = w.size + terminatorSize :=
    Buffer.size_reserve _ _
  have hsmall : (w.buffer.reserve terminatorSize).size < wordLimit := by
    rw [hsize]
    omega
  have hreserve : w.buffer.reserve? terminatorSize = some (w.buffer.reserve terminatorSize) :=
    Buffer.reserve?_eq (hsize ▸ hsmall) hw.size_mod rfl
  have hput : (w.buffer.reserve terminatorSize).putTerminator? w.size root =
      some ((w.buffer.reserve terminatorSize).putTerminator w.size root) :=
    Buffer.putTerminator?_eq hsmall (Nat.le_of_eq hsize.symm)
      (w.buffer.putHalf_reserve (by decide)) hroot
  rw [terminate?, hreserve]
  simp only [Option.bind_eq_bind, Option.bind_some, hput]
  rfl

theorem writeRoot?_eq (hw : w.InBounds) (hh : h.WellFormed) (hash : ContentHash) (root : Value) :
    w.writeRoot? hash h root = some (w.writeRoot hash h root) := by
  cases hroot : root.id?.bind (w.obstacle? h) with
  | some e => rw [writeRoot_of_obstacle hroot, writeRoot?, hroot]
  | none =>
    obtain ⟨hstored, hword⟩ : (w.storeRoot hash h root).1.InBounds ∧
        (w.storeRoot hash h root).2 < wordLimit := hw.storeRoot hroot
    have hstore : w.storeRoot? hash h root = some _ := storeRoot?_eq hw hh hroot
    have hdrain : (w.storeRoot hash h root).1.drain? hash h = some _ := drain?_eq hstored hh
    have hdrained : ((w.storeRoot hash h root).1.drain hash h).1.InBounds := hstored.drain
    rw [writeRoot?, hroot]
    simp only [hstore, hdrain, Option.bind_eq_bind, Option.bind_some]
    cases hlast : ((w.storeRoot hash h root).1.drain hash h).2 with
    | some e =>
      rw [writeRoot_of_stuck hroot hlast]
      generalize (w.storeRoot hash h root).1.drain hash h = result at hlast ⊢
      obtain ⟨later, failed⟩ := result
      cases hlast
      rfl
    | none =>
      rw [writeRoot_of_done hroot hlast]
      generalize (w.storeRoot hash h root).1.drain hash h = result at hlast hdrained ⊢
      obtain ⟨later, failed⟩ := result
      cases hlast
      by_cases hroom : later.hasRoom terminatorSize = true
      · rw [if_pos hroom]
        dsimp only
        rw [if_pos hroom, terminate?_eq hdrained hroom hword]
        rfl
      · rw [if_neg hroom]
        dsimp only
        rw [if_neg hroom]
        rfl

/-- With the checks a call does what it does without them, and the counts in its report are what has
been added. -/
theorem checks_pass {c : WriterConfig} (hw : Reached hash c w) (hh : h.WellFormed) (root : Value) :
    w.compact? hash h root = some ((w.compact hash h root).1,
      (w.compact hash h root).2.map fun _ =>
        ⟨(w.compact hash h root).1.size - w.size,
          (w.compact hash h root).1.stats.objects - w.stats.objects,
          (w.compact hash h root).1.stats.shared - w.stats.shared⟩) ∧
      w.size % 8 = 0 ∧ (w.compact hash h root).1.size % 8 = 0 := by
  have hbounds := hw.inBounds
  have hleast := (AtLeast.refl w).writeRoot hash h root
  refine ⟨?_, hbounds.size_mod, (hbounds.compact hw.atRest hash h root).size_mod⟩
  rcases compact_cases w hash h root with ⟨later, hlater, hcompact⟩ | ⟨later, e, hlater, hcompact⟩
  · rw [hlater] at hleast
    rw [hcompact, compact?, writeRoot?_eq hbounds hh, hlater]
    simp only [Option.bind_eq_bind, Option.bind_some, sub?_eq hleast.size_le,
      sub?_eq hleast.objects_le, sub?_eq hleast.shared_le]
    rfl
  · rw [hlater] at hleast
    have htruncate : later.buffer.truncate? w.size = some (later.buffer.truncate w.size) :=
      Buffer.truncate?_eq hleast.size_le hbounds.size_mod
    rw [hcompact, compact?, writeRoot?_eq hbounds hh, hlater]
    simp only [Option.bind_eq_bind, Option.bind_some, htruncate]
    rfl

end Writer

/-- Two leaves of different kinds. Their records differ in nothing but the tags. -/
def leavesHeap : Heap :=
  ⟨#[⟨.array #[.object 1, .object 2], false⟩, ⟨.string #[104], false⟩,
    ⟨.byteArray 1 #[104], false⟩]⟩

theorem wellFormed_leavesHeap : leavesHeap.WellFormed := by
  have hsize : leavesHeap.size = 3 := rfl
  refine ⟨fun id hid => ?_, fun id hid => ?_⟩
  · have hcases : id = 0 ∨ id = 1 ∨ id = 2 := by omega
    rcases hcases with rfl | rfl | rfl
    · trivial
    · trivial
    · exact ⟨by decide, rfl⟩
  · revert id
    decide

def leavesCall : Writer × Except Obstacle Unit :=
  (Writer.start { base := 0xffffffffffffff88 }).compact (fun _ => 0) leavesHeap (.object 0)

set_option maxRecDepth 8192 in
theorem leavesCall_eq :
    (leavesCall.2, leavesCall.1.size, leavesCall.1.stats) = (.ok (), 112, ⟨1, 3, 0⟩) := by
  cbv

/-- Both leaves fall into one bucket, and the image ends at the last address that there is. -/
theorem leaves_checked :
    Writer.Reached (fun _ => 0) { base := 0xffffffffffffff88 }
        (Writer.start { base := 0xffffffffffffff88 }) ∧
      leavesHeap.WellFormed ∧
      ((Writer.start { base := 0xffffffffffffff88 }).compact? (fun _ => 0) leavesHeap
        (.object 0)).map Prod.snd = some (.ok ⟨96, 3, 0⟩) := by
  have hreached : Writer.Reached (fun _ => 0) { base := 0xffffffffffffff88 }
      (Writer.start { base := 0xffffffffffffff88 }) := .create rfl
  obtain ⟨hchecked, _⟩ := Writer.checks_pass hreached wellFormed_leavesHeap (.object 0)
  obtain ⟨hresult, hafter⟩ := Prod.ext_iff.mp leavesCall_eq
  obtain ⟨hsize, hstats⟩ := Prod.ext_iff.mp hafter
  rw [← leavesCall] at hchecked
  refine ⟨hreached, wellFormed_leavesHeap, ?_⟩
  rw [hchecked]
  dsimp only at hresult hsize hstats
  rw [Option.map_some, hresult, hsize, hstats]
  rfl

end HeapImage
