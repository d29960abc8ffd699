import HeapImage.Proofs.Accounting
import HeapImage.Proofs.Image.Pieces
import HeapImage.Proofs.Snapshots

/-!
# Blank bytes

A writer leaves some bytes of its records alone, and takes others back when a leaf is shared or a
call fails. Whatever stood in their place before, the blank pieces of an image are zero, and its
records hold what calls that succeeded have stored there, and nothing else.
-/

namespace HeapImage
set_option autoImplicit false

section Entries
variable {bytes : Bytes} {base pos i : Nat} {f : Nat → Nat} {e : Entry} {p : Piece}

theorem Bytes.Shows.zero {count : Nat} (h : bytes.Shows pos (List.replicate count 0))
    (hle : pos ≤ i) (hlt : i < pos + count) : bytes[i]? = some 0 := by
  have hshown := h (i - pos)
  rw [List.length_replicate, Nat.add_sub_cancel' hle] at hshown
  rw [hshown (by omega), List.getElem?_replicate, if_pos (by omega)]

theorem Entry.filled_le_extent (he : e.Valid) :
    e.refsAt + 8 * e.refs.length + e.tailSize ≤ e.shape.extent := by
  cases e with
  | object id o => exact (Object.extent_shape he.1).symm ▸ o.filled_le_extent
  | terminator root => exact Nat.le_refl _

theorem Entry.extent_le_size (he : e.Valid) : e.shape.extent ≤ e.size := by
  cases e with
  | object id o => exact (Object.extent_shape he.1).symm ▸ le_roundUp o.extent
  | terminator root => exact Nat.le_refl _

/-- What the kind of an entry leaves blank is the lock of a mutable reference, or lies behind all
that is stored. -/
theorem Entry.cases_of_mem_blanks (he : e.Valid) (hp : p ∈ e.shape.blanks pos) :
    (p = ⟨.lock, pos + 8, 8⟩ ∧ ∃ id contents, e = .object id (.mutableRef contents)) ∨
      pos + e.refsAt + 8 * e.refs.length + e.tailSize ≤ p.start ∧ p.stop ≤ pos + e.size := by
  cases e with
  | terminator root => cases hp
  | object id o =>
    have hextent := le_roundUp o.extent
    cases o with
    | string data =>
      obtain rfl := List.mem_singleton.mp hp
      simp only [Entry.refsAt, Object.slotsAt, Entry.refs, Object.children, Entry.tailSize,
        Object.tailSize, Entry.size, Object.extent, Piece.stop, List.length_nil] at hextent ⊢
      omega
    | thunk state =>
      obtain rfl := List.mem_singleton.mp hp
      cases state with
      | waiting closure => exact he.2.elim
      | forced value =>
        simp only [Object.extent] at hextent
        simp only [Entry.refsAt, Object.slotsAt, Entry.refs, Object.children, Entry.tailSize,
          Object.tailSize, Entry.size, Object.extent, Piece.stop, List.length_singleton]
        omega
    | mutableRef contents => exact .inl ⟨List.mem_singleton.mp hp, id, contents, rfl⟩
    | constructor | array | byteArray | task | promise | bigInteger => cases hp

theorem Entry.zero_of_isBlank (he : e.Valid) (hs : bytes.Shows pos (e.encode base f pos))
    (hp : p ∈ (e.record pos).pieces) (hblank : p.part.isBlank = true) (hi : p.Covers i) :
    bytes[i]? = some 0 := by
  obtain ⟨hheader, _, _, hbehind⟩ := Entry.shows_parts hs
  have hfilled := Entry.filled_le_extent he
  have hextent := Entry.extent_le_size he
  have hrest : pos + e.refsAt + 8 * e.refs.length + e.tailSize ≤ p.start → p.stop ≤ pos + e.size →
      bytes[i]? = some 0 := by
    intro hle hlt
    exact hbehind.zero (hle.trans hi.1) (by have := hi.2; omega)
  have hmem : p ∈ (e.record pos).pieces.filter fun p => p.part.isBlank :=
    List.mem_filter.mpr ⟨hp, hblank⟩
  rw [Record.filter_isBlank, List.mem_cons, List.mem_append, List.mem_singleton] at hmem
  rcases hmem with rfl | hmem | rfl
  · -- The header starts with four zeros, whatever the tag.
    have hzero : bytes.Shows pos (List.replicate 4 0) := by
      cases e <;> exact (Bytes.shows_append.mp hheader).1
    exact hzero.zero hi.1 hi.2
  · rcases Entry.cases_of_mem_blanks he hmem with ⟨rfl, id, contents, rfl⟩ | ⟨hle, hlt⟩
    · have hlock : bytes.Shows (pos + 8) (List.replicate 8 0) := by
        have hcounts := (Bytes.shows_append.mp hheader).2
        exact (Bytes.shows_append.mp hcounts).2
      exact hlock.zero hi.1 hi.2
    · exact hrest hle hlt
  · exact hrest (by simp only [Entry.record]; omega) (by simp only [Entry.record, Piece.stop]; omega)

end Entries

theorem length_objectRecords (pos : Nat) (layout : List Entry) :
    (objectRecords (recordsOf pos layout)).length = (ownersOf layout).length := by
  induction layout generalizing pos with
  | nil => rfl
  | cons e rest ih =>
    have hcons : recordsOf pos (e :: rest) = e.record pos :: recordsOf (pos + e.size) rest := rfl
    rw [hcons]
    cases e with
    | object id o =>
      rw [objectRecords, List.filter_cons_of_pos (by rw [isTerminator_object]; rfl),
        List.length_cons]
      exact congrArg (· + 1) (ih _)
    | terminator root => exact ih _

/-- Each byte behind the header belongs to one piece of the records, and is zero if that is blank. -/
structure Bytes.Blanked (bytes : Bytes) (records : List Record) : Prop where
  existsUnique_piece : ∀ i, headerSize ≤ i → i < bytes.size →
    ∃! p, p ∈ piecesOf records ∧ p.Covers i
  zero : ∀ p ∈ piecesOf records, p.part.isBlank = true → ∀ i, p.Covers i → bytes[i]? = some 0

namespace Writer

def storedWord (w : Writer) : Value → Nat
  | .scalar payload => scalarWord payload
  | .object id => w.copied.getD id 0

/-- The record holds an object as it was at the call that copied it, which has succeeded. -/
def HoldsCopy (w : Writer) (hash : ContentHash) (calls : List (Heap × Value)) (r : Record) : Prop :=
  ∃ earlier h root later id, calls = earlier ++ (h, root) :: later ∧
    ((w.calls hash earlier).1.compact hash h root).2 = .ok () ∧
    (w.calls hash earlier).1.Copies hash h root id ∧
    (w.calls hash calls).1.copied[id]? = some (w.base.toNat + r.offset) ∧
    ∃ raw, r.object? (w.calls hash calls).1.data = some raw ∧
      raw.map RawRef.word = (h.object id).map (w.calls hash calls).1.storedWord

section Layouts
variable {w : Writer} {hash : ContentHash} {orig : Nat → Object Value} {layout : List Entry}
variable {f : Nat → Nat} {holes : List Hole}

theorem Laid.blanked (hl : Laid w hash orig layout f holes) :
    w.data.Blanked (recordsOf headerSize layout) := by
  refine ⟨fun i hle hlt => hl.tiling.existsUnique_piece hle hlt, ?_⟩
  intro p hp hblank i hi
  obtain ⟨r, hr, hp⟩ := List.mem_flatMap.mp hp
  obtain ⟨off, e, he, rfl⟩ := mem_recordsOf.mp hr
  exact Entry.zero_of_isBlank (hl.valid e (mem_of_mem_placed he))
    (shows_of_mem_placed (shows_layout hl.data_eq) he) hp hblank hi

theorem Laid.word_eq_storedWord (hl : Laid w hash orig layout f []) {slot : Nat} {v : Value}
    (hv : (slot, v) ∈ slotsFrom headerSize layout) : w.data.word slot = w.storedWord v := by
  obtain ⟨off, e, he, _⟩ := mem_slotsFrom.mp hv
  have hlimit := hl.limit (List.ne_nil_of_mem (mem_of_mem_placed he))
  rw [word_of_mem_slotsFrom hl.data_eq hlimit hv (hl.refers hv)]
  cases v with
  | scalar payload => exact hl.filled slot _ hv
  | object id =>
    have hstored : w.copied[id]? = some (f slot) := (hl.filled slot _ hv).resolve_left nofun
    rw [storedWord, Std.ExtTreeMap.getD_eq_getD_getElem?, hstored, Option.getD_some]

/-- The records hold the objects of the layout, each reference by its stored word. -/
theorem Laid.object?_eq (hl : Laid w hash orig layout f []) {off owner : Nat} {o : Object Value}
    (h : (off, .object owner o) ∈ placed headerSize layout) :
    ∃ raw, ((Entry.object owner o).record off).object? w.data = some raw ∧
      raw.map RawRef.word = o.map w.storedWord := by
  have hvalid := hl.valid _ (mem_of_mem_placed h)
  have hshows := shows_of_mem_placed (shows_layout hl.data_eq) h
  have hwords : ∀ slot v, (slot, v) ∈ (Entry.object owner o).slots off →
      id (w.data.word slot) = w.storedWord v := by
    intro slot v hv
    exact hl.word_eq_storedWord (mem_slotsFrom.mpr ⟨off, _, h, hv⟩)
  have hfilled := filled_layout hl.data_eq hl.valid (fun _ _ hv => hl.refers hv) hl.limit
  exact object?_record hvalid.1 hvalid.2 hshows (hfilled _ (mem_recordsOf.mpr ⟨off, _, h, rfl⟩))
    hwords

end Layouts

end Writer

section Calls
variable {c : WriterConfig} {w : Writer} {hash : ContentHash} {calls : List (Heap × Value)}

/-- However the bytes of a writer are read, their blank pieces are zero. -/
theorem Writer.blanked_of_isImage (hcreate : Writer.create? c = .ok w) (hash : ContentHash)
    (hcalls : ∀ call ∈ calls, call.1.WellFormed ∧ call.2.In call.1) {base : Nat}
    {records : List Record} (himage : IsImage (w.calls hash calls).1.data base records) :
    (w.calls hash calls).1.data.Blanked records := by
  have hstart := Writer.holding_of_create? hcreate hash fun _ => .array #[]
  obtain ⟨layout, f, hw, _⟩ := hstart.history (Writer.atRest_of_create? hcreate) hcalls
  have hl := hw.laid
  obtain ⟨_, _, hword⟩ := header_of_toList hl.bytes (w.calls hash calls).1.base.toNat_lt
  have hbase : base = (w.calls hash calls).1.base.toNat := himage.base_eq.symm.trans hword
  rw [himage.tiling.unique hl.size_lt (hbase ▸ hl.tiling)]
  exact hl.blanked

/-- After any calls, whether they succeed or fail, the blank pieces of the image are zero. Its roots
are those that were accepted, it has one record for each object that was copied and not shared, and
each of them holds what a call that succeeded has stored there. -/
theorem no_stale_bytes (hcreate : Writer.create? c = .ok w) (hash : ContentHash)
    (hcalls : ∀ call ∈ calls, call.1.WellFormed ∧ call.2.In call.1) :
    ∃ records, Tiling (w.calls hash calls).1.data c.base.toNat headerSize records ∧
      (w.calls hash calls).1.data.Blanked records ∧
      (records.filterMap (Record.root? (w.calls hash calls).1.data)).map RawRef.word =
        (w.accepted hash calls).map (fun root => (w.calls hash calls).1.storedWord root.1) ∧
      (objectRecords records).length + (w.calls hash calls).1.stats.shared =
        (w.calls hash calls).1.copied.size ∧
      ∀ r ∈ objectRecords records, w.HoldsCopy hash calls r := by
  have hrest := Writer.atRest_of_create? hcreate
  have hstart := Writer.holding_of_create? hcreate hash fun _ => .array #[]
  obtain ⟨layout, f, hw, _⟩ := hstart.history hrest hcalls
  rw [List.nil_append, List.nil_append] at hw
  have hl := hw.laid
  have hbase : (w.calls hash calls).1.base = c.base :=
    (hrest.grownFrom_calls hash calls).base.trans (Writer.base_of_create? hcreate)
  refine ⟨recordsOf headerSize layout, hbase ▸ hl.tiling, hl.blanked, ?_, ?_, ?_⟩
  · have hwords : ∀ slot v, (slot, v) ∈ slotsFrom headerSize layout →
        id ((w.calls hash calls).1.data.word slot) = (w.calls hash calls).1.storedWord v :=
      fun slot v hv => hl.word_eq_storedWord hv
    have hroots := roots_layout hwords
    rw [hw.roots_eq, List.map_map] at hroots
    exact hroots
  · rw [length_objectRecords, ← hl.objects, hl.counted]
  · intro r hr
    obtain ⟨hr, hobject⟩ := mem_objectRecords.mp hr
    obtain ⟨off, e, he, rfl⟩ := mem_recordsOf.mp hr
    cases e with
    | terminator root => cases hobject
    | object id o =>
      have hc := hl.owned off id o he
      obtain ⟨earlier, h, root, later, hsplit, hcopies⟩ :=
        Writer.exists_copies (hstart.laid.copied_of_nil id) hc
      obtain ⟨raw, hraw, hmap⟩ := hl.object?_eq he
      have horig : o = h.object id := by
        rw [hl.eq_orig he, hsplit]
        exact Writer.originals_of_copies hrest _ hcopies
      rw [hbase, ← Writer.base_of_create? hcreate] at hc
      exact ⟨earlier, h, root, later, id, hsplit, hcopies.eq_ok (hrest.calls hash earlier), hcopies,
        hc, raw, hraw, horig ▸ hmap⟩

end Calls

/-- The array fails, since its promise is not resolved; then the mutable reference is written. -/
def halfCalls : List (Heap × Value) := [(cellHeap, .object 0), (cellHeap, .object 2)]

/-- Where the array was, the lock of the mutable reference is zero, and there is no other record. -/
theorem half_blanked : ∃ records,
    Tiling ((Writer.start {}).calls fingerprint halfCalls).1.data 0 headerSize records ∧
      ((Writer.start {}).calls fingerprint halfCalls).1.data.Blanked records ∧
      (objectRecords records).length = 1 := by
  have hcalls : ∀ call ∈ halfCalls, call.1.WellFormed ∧ call.2.In call.1 := by
    intro call hcall
    simp only [halfCalls, List.mem_cons, List.not_mem_nil, or_false] at hcall
    rcases hcall with rfl | rfl
    · exact ⟨wellFormed_cellHeap, show 0 < cellHeap.size by decide⟩
    · exact ⟨wellFormed_cellHeap, show 2 < cellHeap.size by decide⟩
  have hcounts : ((Writer.start {}).calls fingerprint halfCalls).1.stats.shared = 0 ∧
      ((Writer.start {}).calls fingerprint halfCalls).1.copied.size = 1 := by cbv
  obtain ⟨records, htiling, hblanked, _, hlength, _⟩ :=
    no_stale_bytes (c := {}) rfl fingerprint hcalls
  rw [hcounts.1, hcounts.2] at hlength
  exact ⟨records, htiling, hblanked, hlength⟩

end HeapImage
