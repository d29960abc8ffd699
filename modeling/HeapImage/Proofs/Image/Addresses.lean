import HeapImage.Proofs.Image.Decoding

/-!
# Addresses in images

Of the words of an image those depend on the base address that hold it or hold an address: the
references to objects, and the words for the limbs of big integers. If a layout is written for
another base address, everything else stays.
-/

namespace HeapImage
set_option autoImplicit false

/-- Lists of bytes, from a position on, that agree outside of some positions. -/
structure EqualBut (free : Nat → Prop) (pos : Nat) (xs ys : List UInt8) : Prop where
  length_eq : xs.length = ys.length
  getElem?_eq : ∀ i, ¬free (pos + i) → xs[i]? = ys[i]?

def FreeWord (free : Nat → Prop) (pos : Nat) : Prop := ∀ i, i < 8 → free (pos + i)

def InWords (starts : List Nat) (i : Nat) : Prop := ∃ pos ∈ starts, pos ≤ i ∧ i < pos + 8

theorem freeWord_inWords {starts : List Nat} {pos : Nat} (h : pos ∈ starts) :
    FreeWord (InWords starts) pos :=
  fun i hi => ⟨pos, h, Nat.le_add_right pos i, Nat.add_lt_add_left hi pos⟩

namespace EqualBut
variable {free : Nat → Prop} {pos : Nat} {xs ys xs' ys' : List UInt8}

theorem refl (xs : List UInt8) : EqualBut free pos xs xs := ⟨rfl, fun _ _ => rfl⟩

theorem append (h : EqualBut free pos xs ys) (h' : EqualBut free (pos + xs.length) xs' ys') :
    EqualBut free pos (xs ++ xs') (ys ++ ys') := by
  refine ⟨?_, fun i hi => ?_⟩
  · rw [List.length_append, List.length_append, h.length_eq, h'.length_eq]
  · by_cases hlt : i < xs.length
    · rw [List.getElem?_append_left hlt, List.getElem?_append_left (h.length_eq ▸ hlt)]
      exact h.getElem?_eq i hi
    · have hle : xs.length ≤ i := Nat.le_of_not_lt hlt
      rw [List.getElem?_append_right hle, List.getElem?_append_right (h.length_eq ▸ hle),
        ← h.length_eq]
      apply h'.getElem?_eq
      rwa [Nat.add_assoc, Nat.add_sub_cancel' hle]

theorem word {n n' : Nat} (h : n = n' ∨ FreeWord free pos) :
    EqualBut free pos (leBytes 8 n) (leBytes 8 n') := by
  rcases h with rfl | hfree
  · exact refl _
  · refine ⟨by rw [length_leBytes, length_leBytes], fun i hi => ?_⟩
    have hout : 8 ≤ i := Nat.le_of_not_lt fun hlt => hi (hfree i hlt)
    rw [List.getElem?_eq_none (by rwa [length_leBytes]),
      List.getElem?_eq_none (by rwa [length_leBytes])]

theorem wordsFrom {f g : Nat → Nat} {count : Nat}
    (h : ∀ i, i < count → f (pos + 8 * i) = g (pos + 8 * i) ∨ FreeWord free (pos + 8 * i)) :
    EqualBut free pos (wordsFrom f pos count) (wordsFrom g pos count) := by
  induction count generalizing pos with
  | zero => exact refl _
  | succ count ih =>
    refine (word (h 0 (Nat.succ_pos count))).append ?_
    rw [length_leBytes]
    apply ih
    intro i hi
    have hnext := h (i + 1) (Nat.succ_lt_succ hi)
    rwa [show pos + 8 * (i + 1) = pos + 8 + 8 * i by omega] at hnext

end EqualBut

section Layouts
variable {free : Nat → Prop} {base base' pos : Nat} {f g : Nat → Nat} {e : Entry}
variable {layout : List Entry}

theorem Entry.equalBut_tail {limbsAt limbsAt' : Nat}
    (hlimbs : ∀ id x, e = .object id (.bigInteger x) → FreeWord free pos) :
    EqualBut free pos (e.tail limbsAt) (e.tail limbsAt') := by
  cases e with
  | terminator root => exact .refl _
  | object id o =>
    cases o with
    | bigInteger x => exact (EqualBut.word (.inr (hlimbs id x rfl))).append (.refl _)
    | _ => exact .refl _

theorem Entry.equalBut_encode
    (hslots : ∀ slot v, (slot, v) ∈ e.slots pos → f slot = g slot ∨ FreeWord free slot)
    (hlimbs : ∀ id x, e = .object id (.bigInteger x) → FreeWord free (pos + 8)) :
    EqualBut free pos (e.encode base f pos) (e.encode base' g pos) := by
  have hwords : EqualBut free (pos + e.refsAt) (wordsFrom f (pos + e.refsAt) e.refs.length)
      (wordsFrom g (pos + e.refsAt) e.refs.length) :=
    .wordsFrom fun i hi => hslots _ _ (mem_slots.mpr ⟨i, List.getElem?_eq_getElem hi, rfl⟩)
  have htail : EqualBut free (pos + e.refsAt + 8 * e.refs.length) (e.tail (base + (pos + 24)))
      (e.tail (base' + (pos + 24))) := by
    apply equalBut_tail
    rintro id x rfl
    exact hlimbs id x rfl
  refine (EqualBut.refl _).append ?_
  rw [length_header]
  refine hwords.append ?_
  rw [length_wordsFrom]
  exact htail.append (.refl _)

theorem equalBut_encodeAll
    (hslots : ∀ slot v, (slot, v) ∈ slotsFrom pos layout → f slot = g slot ∨ FreeWord free slot)
    (hlimbs : ∀ off id x, (off, .object id (.bigInteger x)) ∈ placed pos layout →
      FreeWord free (off + 8)) :
    EqualBut free pos (encodeAll base f pos layout) (encodeAll base' g pos layout) := by
  induction layout generalizing pos with
  | nil => exact .refl _
  | cons e rest ih =>
    rw [encodeAll_cons, encodeAll_cons]
    refine (Entry.equalBut_encode (fun slot v hv => ?_) fun id x he => ?_).append ?_
    · exact hslots slot v (mem_slotsFrom.mpr ⟨pos, e, List.mem_cons_self, hv⟩)
    · exact hlimbs pos id x (he ▸ List.mem_cons_self)
    · rw [Entry.length_encode]
      refine ih (fun slot v hv => ?_) fun off id x hmem => ?_
      · obtain ⟨off, e', he', hslot⟩ := mem_slotsFrom.mp hv
        exact hslots slot v (mem_slotsFrom.mpr ⟨off, e', List.mem_cons_of_mem _ he', hslot⟩)
      · exact hlimbs off id x (List.mem_cons_of_mem _ hmem)

/-- Only the base address, references and the words for limbs may be different. -/
theorem equalBut_imageBytes (hbase : FreeWord free 8)
    (hslots : ∀ slot v, (slot, v) ∈ slotsFrom headerSize layout →
      f slot = g slot ∨ FreeWord free slot)
    (hlimbs : ∀ off id x, (off, .object id (.bigInteger x)) ∈ placed headerSize layout →
      FreeWord free (off + 8)) :
    EqualBut free 0 (imageBytes base f layout) (imageBytes base' g layout) := by
  refine (EqualBut.refl _).append ((EqualBut.word (.inr ?_)).append ?_)
  · rw [length_leBytes]
    exact hbase
  · rw [length_leBytes, length_leBytes]
    exact equalBut_encodeAll hslots hlimbs

end Layouts

section Graphs
variable {bytes : Bytes} {base first pos : Nat} {f : Nat → Nat} {layout : List Entry}

theorem objects_layout {value : Nat → Value} {g : Value → Value}
    (hs : bytes.Shows pos (encodeAll base f pos layout)) (hvalid : ∀ e ∈ layout, e.Valid)
    (hfilled : ∀ r ∈ recordsOf pos layout, r.Filled bytes)
    (hg : ∀ slot v, (slot, v) ∈ slotsFrom pos layout → value (bytes.word slot) = g v) :
    ((recordsOf pos layout).filterMap (Record.object? bytes)).map
        (Object.map fun ref => value ref.word) = (objectsOf layout).map (Object.map g) := by
  induction layout generalizing pos with
  | nil => rfl
  | cons e rest ih =>
    have hcons : recordsOf pos (e :: rest) = e.record pos :: recordsOf (pos + e.size) rest := rfl
    have hslots : slotsFrom pos (e :: rest) = e.slots pos ++ slotsFrom (pos + e.size) rest := rfl
    rw [encodeAll_cons, Bytes.shows_append, Entry.length_encode] at hs
    rw [hslots] at hg
    rw [hcons] at hfilled
    obtain ⟨hfirst, hlater⟩ := List.forall_mem_cons.mp hvalid
    obtain ⟨hfill, hfills⟩ := List.forall_mem_cons.mp hfilled
    have hrest := ih hs.2 hlater hfills fun slot v hv => hg slot v (List.mem_append_right _ hv)
    rw [hcons]
    cases e with
    | object id o =>
      obtain ⟨raw, hraw, hmap⟩ := object?_record hfirst.1 hfirst.2 hs.1 hfill
        fun slot v hv => hg slot v (List.mem_append_left _ hv)
      rw [List.filterMap_cons_some hraw, List.map_cons, hrest]
      exact congrArg (· :: _) hmap
    | terminator root =>
      have hnone : ((Entry.terminator root).record pos).object? bytes = none := rfl
      rw [List.filterMap_cons_none hnone]
      exact hrest

/-- The word stands for a scalar, or for the object that is at a place. -/
def Places (base : Nat) (place : Nat → Nat) (layout : List Entry) (word : Nat) : Value → Prop
  | .scalar payload => word = scalarWord payload
  | .object id => word = base + place id ∧
      ∃ owner o, (place id, .object owner o) ∈ placed headerSize layout

variable {place : Nat → Nat} {word slot : Nat} {v : Value}

theorem Places.refers (h : Places base place layout word v) : Refers base layout word v := by
  cases v with
  | scalar payload => exact h
  | object id =>
    obtain ⟨hword, owner, o, hmem⟩ := h
    exact ⟨place id, owner, o, hmem, hword⟩

theorem Places.wordValue (hbase : base % 8 = 0) (h : Places base place layout word v) :
    wordValue base first (recordsOf headerSize layout) word =
      v.mapId fun id => first + recordNumber layout (place id) := by
  cases v with
  | scalar payload =>
    have hword : word = scalarWord payload := h
    rw [hword]
    exact wordValue_scalarWord _ payload
  | object id =>
    obtain ⟨hword, owner, o, hmem⟩ := h
    rw [hword, wordValue_offset hbase hmem]
    rfl

variable (hbytes : bytes.toList = imageBytes base f layout)
variable (hlimit : layout ≠ [] → base + bytes.size < 2 ^ 64)
variable (hplaces : ∀ slot v, (slot, v) ∈ slotsFrom headerSize layout →
  Places base place layout (f slot) v)
include hbytes hlimit hplaces

theorem word_of_places (hv : (slot, v) ∈ slotsFrom headerSize layout) :
    bytes.word slot = f slot := by
  obtain ⟨off, e, he, _⟩ := mem_slotsFrom.mp hv
  have hne : layout ≠ [] := List.ne_nil_of_mem (mem_of_mem_placed he)
  exact word_of_mem_slotsFrom hbytes (hlimit hne) hv (hplaces slot v hv).refers

/-- The graph that an image holds is known from the layout and the places, whatever the base address
is. -/
theorem imageGraph_layout (hbase : base % 8 = 0) (hvalid : ∀ e ∈ layout, e.Valid) (first : Nat) :
    imageGraph bytes base first (recordsOf headerSize layout) =
      let g := Value.mapId fun id => first + recordNumber layout (place id)
      ⟨((objectsOf layout).map (Object.map g)).toArray, ((rootsOf layout).map g).toArray⟩ := by
  have hg : ∀ slot v, (slot, v) ∈ slotsFrom headerSize layout →
      wordValue base first (recordsOf headerSize layout) (bytes.word slot) =
        v.mapId fun id => first + recordNumber layout (place id) := by
    intro slot v hv
    rw [word_of_places hbytes hlimit hplaces hv]
    exact (hplaces slot v hv).wordValue hbase
  have hfilled := filled_layout hbytes hvalid (fun slot v hv => (hplaces slot v hv).refers) hlimit
  rw [imageGraph, objects_layout (shows_layout hbytes) hvalid hfilled hg, roots_layout hg]

end Graphs

/-- Where a record holds addresses: its references other than scalars, and the word for the limbs
of a big integer. -/
def Record.addresses (bytes : Bytes) (r : Record) : List Nat :=
  (r.shape.references r.offset).filter (fun slot => bytes.word slot % 2 = 0) ++
    match r.shape with
    | .bigInteger .. => [r.offset + 8]
    | _ => []

/-- The bytes `moved` are for a base address what `bytes` are for none: the addresses are larger by
the base address, and nothing else is different. -/
structure Rebased (base : Nat) (records : List Record) (bytes moved : Bytes) : Prop where
  size_eq : moved.size = bytes.size
  base_word : bytes.word 8 = 0 ∧ moved.word 8 = base
  address : ∀ r ∈ records, ∀ pos ∈ r.addresses bytes, moved.word pos = base + bytes.word pos
  same : ∀ i, (∀ pos ∈ 8 :: records.flatMap (Record.addresses bytes), i < pos ∨ pos + 8 ≤ i) →
    moved[i]? = bytes[i]?

section Limbs
variable {bytes : Bytes} {base off id : Nat} {f : Nat → Nat} {layout : List Entry}
variable {x : LimbInteger}

theorem word_of_bigInteger (hbytes : bytes.toList = imageBytes base f layout)
    (hlimit : base + bytes.size < 2 ^ 64)
    (h : (off, .object id (.bigInteger x)) ∈ placed headerSize layout) :
    bytes.word (off + 8) = base + (off + 24) := by
  obtain ⟨_, _, htail, _⟩ := Entry.shows_parts (shows_of_mem_placed (shows_layout hbytes) h)
  have hlimbs : bytes.Shows (off + 8) (leBytes 8 (base + (off + 24))) :=
    (Bytes.shows_append.mp htail).1
  have hfits := (bounds_of_mem_placed h).2
  have hsize : 24 ≤ (Entry.object id (.bigInteger x)).size :=
    Nat.le_trans (Nat.le_add_right _ _) (le_roundUp _)
  rw [← size_eq_of_toList hbytes] at hfits
  exact hlimbs.word (by omega)

end Limbs

section Rebasing
variable {bytes moved : Bytes} {base : Nat} {f f' place : Nat → Nat} {layout : List Entry}

section Plain
variable (hbytes : bytes.toList = imageBytes 0 f layout)
variable (hlimit : layout ≠ [] → 0 + bytes.size < 2 ^ 64)
variable (hplaces : ∀ slot v, (slot, v) ∈ slotsFrom headerSize layout →
  Places 0 place layout (f slot) v)
variable (hvalid : ∀ e ∈ layout, e.Valid)
include hbytes hlimit hplaces hvalid

theorem mem_addresses_iff (pos : Nat) :
    pos ∈ (recordsOf headerSize layout).flatMap (Record.addresses bytes) ↔
      (∃ id, (pos, .object id) ∈ slotsFrom headerSize layout) ∨
        ∃ off id x, (off, .object id (.bigInteger x)) ∈ placed headerSize layout ∧
          pos = off + 8 := by
  rw [List.mem_flatMap]
  constructor
  · rintro ⟨r, hr, hpos⟩
    obtain ⟨off, e, he, rfl⟩ := mem_recordsOf.mp hr
    have hrefs : (e.record off).shape.references (e.record off).offset =
        (e.slots off).map Prod.fst := references_record off (hvalid e (mem_of_mem_placed he))
    rw [Record.addresses, hrefs, List.mem_append, List.mem_filter, List.mem_map] at hpos
    rcases hpos with ⟨⟨⟨slot, v⟩, hslot, rfl⟩, heven⟩ | hlimbs
    · have hv := mem_slotsFrom.mpr ⟨off, e, he, hslot⟩
      cases v with
      | scalar payload =>
        have hword : f slot = scalarWord payload := hplaces slot _ hv
        have heven : bytes.word slot % 2 = 0 := of_decide_eq_true heven
        rw [word_of_places hbytes hlimit hplaces hv, hword, scalarWord] at heven
        omega
      | object id => exact .inl ⟨id, hv⟩
    · cases e with
      | terminator root => cases hlimbs
      | object id o =>
        cases o with
        | bigInteger x => exact .inr ⟨off, id, x, he, List.mem_singleton.mp hlimbs⟩
        | _ => cases hlimbs
  · rintro (⟨id, hv⟩ | ⟨off, id, x, he, rfl⟩)
    · obtain ⟨off, e, he, hslot⟩ := mem_slotsFrom.mp hv
      refine ⟨e.record off, mem_recordsOf.mpr ⟨off, e, he, rfl⟩, ?_⟩
      have hrefs : (e.record off).shape.references (e.record off).offset =
          (e.slots off).map Prod.fst := references_record off (hvalid e (mem_of_mem_placed he))
      rw [Record.addresses, hrefs, List.mem_append, List.mem_filter]
      obtain ⟨hword, owner, o, hmem⟩ := hplaces pos _ hv
      have hplace := offset_mod hmem rfl
      refine .inl ⟨List.mem_map_of_mem hslot, decide_eq_true ?_⟩
      rw [word_of_places hbytes hlimit hplaces hv, hword]
      omega
    · refine ⟨_, mem_recordsOf.mpr ⟨off, _, he, rfl⟩, List.mem_append_right _ ?_⟩
      exact List.mem_singleton_self _

section Moved
variable (hmoved : moved.toList = imageBytes base f' layout)
variable (hplaces' : ∀ slot v, (slot, v) ∈ slotsFrom headerSize layout →
  Places base place layout (f' slot) v)
include hmoved hplaces'

theorem word_of_mem_addresses (hlimit' : layout ≠ [] → base + moved.size < 2 ^ 64) {pos : Nat}
    (hpos : pos ∈ (recordsOf headerSize layout).flatMap (Record.addresses bytes)) :
    moved.word pos = base + bytes.word pos := by
  rcases (mem_addresses_iff hbytes hlimit hplaces hvalid pos).mp hpos with
    ⟨id, hv⟩ | ⟨off, id, x, hmem, rfl⟩
  · have hword := (hplaces pos _ hv).1
    have hword' := (hplaces' pos _ hv).1
    rw [word_of_places hmoved hlimit' hplaces' hv, word_of_places hbytes hlimit hplaces hv,
      hword, hword', Nat.zero_add]
  · have hne : layout ≠ [] := List.ne_nil_of_mem (mem_of_mem_placed hmem)
    rw [word_of_bigInteger hmoved (hlimit' hne) hmem, word_of_bigInteger hbytes (hlimit hne) hmem,
      Nat.zero_add]

theorem equalBut_moved :
    EqualBut (InWords (8 :: (recordsOf headerSize layout).flatMap (Record.addresses bytes))) 0
      moved.toList bytes.toList := by
  have haddresses := mem_addresses_iff hbytes hlimit hplaces hvalid
  rw [hmoved, hbytes]
  refine equalBut_imageBytes (freeWord_inWords List.mem_cons_self) (fun slot v hv => ?_)
    fun off id x hmem => ?_
  · cases v with
    | scalar payload => exact .inl ((hplaces' slot _ hv).trans (hplaces slot _ hv).symm)
    | object id =>
      have haddress := (haddresses slot).mpr (.inl ⟨id, hv⟩)
      exact .inr (freeWord_inWords (List.mem_cons_of_mem _ haddress))
  · have haddress := (haddresses (off + 8)).mpr (.inr ⟨off, id, x, hmem, rfl⟩)
    exact freeWord_inWords (List.mem_cons_of_mem _ haddress)

end Moved
end Plain

/-- A layout that is written for a base address, and again for none. -/
theorem rebased_of_layout (hbytes : bytes.toList = imageBytes 0 f layout)
    (hmoved : moved.toList = imageBytes base f' layout) (hbase : base < 2 ^ 64)
    (hlimit : layout ≠ [] → base + moved.size < 2 ^ 64) (hvalid : ∀ e ∈ layout, e.Valid)
    (hplaces : ∀ slot v, (slot, v) ∈ slotsFrom headerSize layout →
      Places 0 place layout (f slot) v)
    (hplaces' : ∀ slot v, (slot, v) ∈ slotsFrom headerSize layout →
      Places base place layout (f' slot) v) :
    Rebased base (recordsOf headerSize layout) bytes moved := by
  have hsize : moved.size = bytes.size :=
    (size_eq_of_toList hmoved).trans (size_eq_of_toList hbytes).symm
  have hlimit₀ : layout ≠ [] → 0 + bytes.size < 2 ^ 64 := by
    intro hne
    have hmove := hlimit hne
    omega
  refine ⟨hsize, ⟨(header_of_toList hbytes (by decide)).2.2, (header_of_toList hmoved hbase).2.2⟩,
    fun r hr pos hpos => ?_, fun i hi => ?_⟩
  · have hmem := List.mem_flatMap.mpr ⟨r, hr, hpos⟩
    exact word_of_mem_addresses hbytes hlimit₀ hplaces hvalid hmoved hplaces' hlimit hmem
  · have hout : ¬InWords (8 :: (recordsOf headerSize layout).flatMap (Record.addresses bytes))
        (0 + i) := by
      rintro ⟨pos, hpos, hle, hlt⟩
      have hoff := hi pos hpos
      omega
    have hsame := equalBut_moved hbytes hlimit₀ hplaces hvalid hmoved hplaces'
    rw [← Array.getElem?_toList, ← Array.getElem?_toList]
    exact hsame.getElem?_eq i hout

end Rebasing
end HeapImage
