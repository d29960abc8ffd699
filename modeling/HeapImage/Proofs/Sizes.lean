import HeapImage.Proofs.Writer.Alone

/-!
# Sizes of records

The size of a record is computed from its counts by sums and products that may not exceed a word. It
is the exact size whenever that is a word, and otherwise there is none, whichever of the steps is the
first to fail. Writer and reader come to the same size, each in its own way, and both find room in
it for all that they look at or change.
-/

namespace HeapImage
set_option autoImplicit false

theorem isLeast_roundUp (n : Nat) : IsLeast {m | 8 ∣ m ∧ n ≤ m} (roundUp n) := by
  refine ⟨⟨Nat.dvd_of_mod_eq_zero (roundUp_mod n), le_roundUp n⟩, ?_⟩
  rintro m ⟨hdvd, hle⟩
  have hlt := roundUp_lt n
  have hmod := roundUp_mod n
  omega

/-- Where a sum or a product on the way is too large, the size is too large. -/
theorem Shape.recordSize?_eq_ite (s : Shape) :
    s.recordSize? = if roundUp s.extent < 2 ^ 64 then some (roundUp s.extent) else none := by
  split
  · rename_i hlt
    exact Shape.recordSize?_eq_some_iff.mpr ⟨rfl, hlt⟩
  · rename_i hlt
    rw [Option.eq_none_iff_forall_ne_some]
    intro n hn
    obtain ⟨rfl, hword⟩ := Shape.recordSize?_eq_some_iff.mp hn
    exact hlt hword

example : (Shape.string (2 ^ 64 - 25)).recordSize? = some (2 ^ 64 - 8) ∧
    (Shape.string (2 ^ 64 - 24)).recordSize? = none := by decide

/-- The reader computes the size of a byte array from its elements, the writer from its bytes. -/
theorem Object.recordSize?_shape {o : Object Value} (ho : o.WellFormed) :
    o.recordSize? = o.shape.recordSize? := by
  apply Option.ext
  intro n
  rw [Object.recordSize?_eq_some_iff, Shape.recordSize?_eq_some_iff, Object.extent_shape ho]

/-- The record of an object is written, with all checks, into a buffer of the given size, and these
are the bytes that the writer appends. The references that it fills in later stand in them, and what
it compares of leaves of this size stands in their records. The reader finds the same size again. -/
structure Writer.Lays (w : Writer) (o : Object Value) (size : Nat) : Prop where
  written : ∃ own, o.record? (w.base.toNat + w.size) = some own ∧ own.size = size ∧
    (w.appendObject o).data = w.data ++ own.bytes
  todo_eq : (w.appendObject o).todo =
    (o.holes 0).map (fun hole => ⟨w.size + hole.slot, hole.child⟩) ++ w.todo
  holes_le : ∀ hole ∈ o.holes 0, hole.slot + 8 ≤ size
  compared : ∀ (b : Buffer) (pos : Nat), pos + size ≤ b.size →
    Buffer.leafKey? ⟨b.bytes.cut pos size, 0⟩ 0 o.contentsAt size =
      some (b.leafKey pos o.contentsAt size)
  found : (w.appendObject o).data.recordAt w.base.toNat w.size = .ok ⟨w.size, size, o.shape⟩

/-- The same of a terminator that holds the given root. -/
structure Writer.Closes (w : Writer) (root size : Nat) : Prop where
  written : ∃ own, Buffer.terminator? root = some own ∧ own.size = size ∧
    (w.terminate root).data = w.data ++ own.bytes
  found : (w.terminate root).data.recordAt w.base.toNat w.size = .ok ⟨w.size, size, .terminator⟩

/-- A scan passes a record, with all checks, as it passes the bytes of the record in a memory of the
given size, and what the record holds is read from these bytes. -/
structure InPlace.Scan.Takes (c : Scan) (start base : Nat) (r : Record) (size : Nat) : Prop where
  passed : ∃ next lone, c.round start base = .ok next ∧
    (Scan.lone (c.memory.cut c.offset size)).round (start + c.offset) (base + c.offset) = .ok lone ∧
    c.PassesAs next lone size
  object : (r.alone.object? (c.memory.cut c.offset size)).map (Object.map RawRef.word) =
    (r.object? c.memory).map (Object.map RawRef.word)
  root : (r.alone.root? (c.memory.cut c.offset size)).map RawRef.word =
    (r.root? c.memory).map RawRef.word

/-- The size is right for all records of a shape, in the writer and in the reader. -/
structure Shape.Suffices (s : Shape) (size : Nat) : Prop where
  agrees : ∀ o : Object Value, o.WellFormed → o.shape = s → o.recordSize? = s.recordSize?
  lays : ∀ (w : Writer) (o : Object Value), o.WellFormed → o.shape = s →
    w.base.toNat % 8 = 0 → w.size % 8 = 0 → o.obstacle? w.hasRoom = none → w.Lays o size
  closes : ∀ (w : Writer) (root : Nat), s = .terminator → root < wordLimit →
    w.hasRoom size = true → w.Closes root size
  takes : ∀ (c : InPlace.Scan) (start base : Nat) (r : Record), c.Fits start →
    c.memory.recordAt base c.offset = .ok r → r.shape = s → c.Takes start base r size

theorem Writer.exists_lays {w : Writer} {o : Object Value} (ho : o.WellFormed)
    (hbase : w.base.toNat % 8 = 0) (hsize : w.size % 8 = 0) (hnone : o.obstacle? w.hasRoom = none) :
    ∃ size, o.recordSize? = some size ∧ w.Lays o size := by
  obtain ⟨hsettled, size, hrecord, hroom⟩ := Object.obstacle?_eq_none_iff.mp hnone
  obtain ⟨hextent, hlt⟩ := Object.recordSize?_eq_some_iff.mp hrecord
  have hle : o.extent ≤ size := hextent.symm ▸ le_roundUp o.extent
  have hleast := o.le_extent
  have hcontents := o.contentsAt_le
  have haddress := hroom
  rw [hasRoom, decide_eq_true_eq] at haddress
  refine ⟨size, hrecord, ⟨⟨_, Object.record?_eq ho hrecord (by omega) (by omega),
    Object.size_record hrecord _, w.data_appendObject o⟩, ?_, ?_, ?_,
    recordAt_appendObject ho hsettled hrecord hroom⟩⟩
  · exact congrArg (· ++ w.todo) (o.holes_eq_map w.size)
  · intro hole hhole
    have hfits := Object.holes_fit hhole
    omega
  · intro b pos hpos
    exact b.leafKey?_cut (by omega) (by omega) hlt hpos

theorem Writer.closes {w : Writer} {root : Nat} (hroot : root < wordLimit)
    (hroom : w.hasRoom terminatorSize = true) : w.Closes root terminatorSize :=
  ⟨⟨_, Buffer.terminator?_eq hroot, Buffer.size_terminator root, w.data_terminate root⟩,
    recordAt_terminate root hroom⟩

theorem InPlace.Scan.takes {c : Scan} {start base : Nat} {r : Record} (hc : c.Fits start)
    (hr : c.memory.recordAt base c.offset = .ok r) : c.Takes start base r r.size := by
  obtain ⟨hoffset, hrecord⟩ := Bytes.isRecord_of_recordAt hr
  refine ⟨exists_passesAs hc hr, ?_, ?_⟩
  · rw [← hoffset]
    exact Record.object?_cut hrecord.extent_le c.memory
  · rw [← hoffset]
    exact Record.root?_cut hrecord.extent_le c.memory

/-- The size of a record is the least multiple of eight that is not below its extent, if that is a
word, and there is none otherwise. It is the size that the writer reserves for an object or a
terminator, and that the reader finds for what the writer has stored, and none of them looks at a
byte outside of it. -/
theorem sizes_suffice (s : Shape) :
    ∃ size, IsLeast {n | 8 ∣ n ∧ s.extent ≤ n} size ∧ 0 < size ∧
      s.recordSize? = (if size < 2 ^ 64 then some size else none) ∧ s.Suffices size := by
  have hpos := s.eight_le_extent
  have hle := le_roundUp s.extent
  refine ⟨roundUp s.extent, isLeast_roundUp s.extent, by omega, s.recordSize?_eq_ite, ?_, ?_, ?_,
    ?_⟩
  · rintro o ho rfl
    exact Object.recordSize?_shape ho
  · rintro w o ho rfl hbase hsize hnone
    obtain ⟨size, hrecord, hlays⟩ := Writer.exists_lays ho hbase hsize hnone
    rw [Object.extent_shape ho, ← (Object.recordSize?_eq_some_iff.mp hrecord).1]
    exact hlays
  · rintro w root rfl hroot hroom
    exact Writer.closes hroot hroom
  · rintro c start base r hc hr rfl
    rw [← (Bytes.isRecord_of_recordAt hr).2.size_eq]
    exact InPlace.Scan.takes hc hr

def triples : Object Value := .byteArray 5 (Array.replicate 15 7)

/-- One byte fills up the record of the array. The reader finds it in an image of its own, and a scan
of this image passes it. -/
theorem triples_found :
    triples.WellFormed ∧ triples.shape = .byteArray 5 3 ∧
      triples.obstacle? (Writer.start {}).hasRoom = none ∧ triples.recordSize? = some 32 ∧
      ((Writer.start {}).appendObject triples).data.recordAt 0 16 =
        .ok ⟨16, 32, .byteArray 5 3⟩ ∧
      ∃ next, (InPlace.Scan.begin ((Writer.start {}).appendObject triples).data).round 0 0 =
        .ok next ∧ next.offset = 48 := by
  have hwellFormed : triples.WellFormed := ⟨by decide, rfl⟩
  have hshape : triples.shape = .byteArray 5 3 := by decide
  have hnone : triples.obstacle? (Writer.start {}).hasRoom = none := by decide
  obtain ⟨size, _, _, hexact, hsuffices⟩ := sizes_suffice (.byteArray 5 3)
  have hread : (Shape.byteArray 5 3).recordSize? = some 32 := by decide
  have hsize : size = 32 := by
    rw [hread] at hexact
    split at hexact
    · exact (Option.some.inj hexact).symm
    · cases hexact
  have hrecord : triples.recordSize? = some 32 :=
    (hsuffices.agrees triples hwellFormed hshape).trans hread
  have hlays := hsuffices.lays (Writer.start {}) triples hwellFormed hshape rfl rfl hnone
  have hfound : ((Writer.start {}).appendObject triples).data.recordAt 0 16 =
      .ok ⟨16, 32, .byteArray 5 3⟩ := by
    rw [← hshape, ← hsize]
    exact hlays.found
  have hlength : ((Writer.start {}).appendObject triples).data.size = 48 := by
    change ((Writer.start {}).appendObject triples).size = 48
    rw [Writer.size_appendObject, hrecord]
    decide
  refine ⟨hwellFormed, hshape, hnone, hrecord, hfound, ?_⟩
  -- The bytes are a variable here, so that no step can compute them.
  generalize ((Writer.start {}).appendObject triples).data = memory at hfound hlength ⊢
  have hfits : (InPlace.Scan.begin memory).Fits 0 :=
    { size_le := hlength.trans_le (by decide)
      fits := ((Nat.zero_add _).trans hlength).trans_lt (by decide)
      starts := Array.size_replicate
      aligned := (rfl : headerSize % 8 = 0) }
  obtain ⟨⟨next, _, hround, _, hpasses⟩, _, _⟩ := hsuffices.takes _ 0 0 _ hfits hfound rfl
  have hnext : next.offset = 48 := by
    rw [hpasses.offset, hsize]
    rfl
  exact ⟨next, hround, hnext⟩

end HeapImage
