import HeapImage.Proofs.Bytes.Shows
import HeapImage.Proofs.Image.Pieces

/-!
# Bytes that are read alike

The reader does not look at every byte of a record: it passes over half of the header, the lock of
a mutable reference, the byte behind a string, and the padding. Bytes that differ there only are
read alike, so that they are read says nothing about these.
-/

namespace HeapImage
set_option autoImplicit false

/-- The reader does not look at such a part. The closure of a thunk is blank too, but it is looked
at, since it must not refer to anything. -/
def Part.isUnread : Part → Bool
  | refCount | lock | nul | padding => true
  | tag | count | closure | reference | root | limbsAt | limb | data => false

/-- What the object in a record at `pos` exposes besides references and counts. -/
def Shape.contents (pos : Nat) : Shape → List Piece
  | constructor _ numFields scalarSize => [⟨.data, pos + 24 + 8 * numFields, scalarSize⟩]
  | byteArray elemSize length => [⟨.data, pos + 16, length * elemSize⟩]
  | string length => [⟨.data, pos + 16, length⟩]
  | bigInteger _ length => (List.range length).map fun i => .word .limb (pos + 24 + 8 * i)
  | _ => []

namespace Record

/-- The bytes are the same in all pieces of the record that are looked at. -/
def Alike (first second : Bytes) (r : Record) : Prop :=
  ∀ p ∈ r.pieces, p.part.isUnread = false → ∀ i, p.Covers i → first[i]? = second[i]?

def SameContents (first second : Bytes) (r : Record) : Prop :=
  ∀ p ∈ r.shape.contents r.offset, ∀ i, p.Covers i → first[i]? = second[i]?

variable {first second : Bytes} {base : Nat} {r : Record}

theorem mem_pieces_of_contents {p : Piece} (hp : p ∈ r.shape.contents r.offset) :
    p ∈ r.pieces ∧ p.part.isUnread = false := by
  cases hs : r.shape with
  | constructor | byteArray | string =>
    rw [hs] at hp
    obtain rfl := List.mem_singleton.mp hp
    exact ⟨by simp [pieces, hs, Shape.parts, piecesFrom_append, piecesFrom], rfl⟩
  | bigInteger sign length =>
    rw [hs] at hp
    obtain ⟨i, hi, rfl⟩ := List.mem_map.mp hp
    rw [List.mem_range] at hi
    refine ⟨?_, rfl⟩
    simp [pieces, hs, Shape.parts, piecesFrom_append, piecesFrom, piecesFrom_replicate, Piece.word,
      hi, Nat.add_assoc]
  | array | thunk | task | promise | mutableRef | terminator =>
    rw [hs] at hp
    cases hp

theorem nul_mem_pieces {length : Nat} (hs : r.shape = .string length) :
    ⟨.nul, r.offset + 16 + length, 1⟩ ∈ r.pieces := by
  have hblank : (⟨.nul, r.offset + 16 + length, 1⟩ : Piece) ∈
      r.pieces.filter fun p => p.part.isBlank := by
    simp [filter_isBlank, hs, Shape.blanks]
  exact (List.mem_filter.mp hblank).1

/-- The values of the references in an object follow them, and its contents are the same. -/
theorem object?_congr {α : Type} {f g : RawRef → α} (h : r.SameContents first second)
    (hfirst : r.Filled first) (hsecond : r.Filled second)
    (hslots : ∀ slot ∈ r.slots, f (rawRef first slot) = g (rawRef second slot)) :
    (r.object? first).map (Object.map f) = (r.object? second).map (Object.map g) := by
  have hchildren : (r.children first).map f = (r.children second).map g := by
    simpa [children] using hslots
  have hextract : ∀ pos length, ⟨.data, pos, length⟩ ∈ r.shape.contents r.offset →
      first.extract pos (pos + length) = second.extract pos (pos + length) :=
    fun pos length hp => Bytes.extract_congr fun i hle hlt => h _ hp i ⟨hle, hlt⟩
  unfold object?
  cases hs : r.shape with
  | constructor tag numFields scalarSize =>
    rw [hs] at hextract
    have hscalars := hextract _ _ (List.mem_singleton_self _)
    simp only [Option.map_some, Object.map, hchildren, hscalars]
  | byteArray elemSize length =>
    rw [hs] at hextract
    have helements := hextract _ _ (List.mem_singleton_self _)
    simp only [Option.map_some, Object.map, helements]
  | string length =>
    rw [hs] at hextract
    have htext := hextract _ _ (List.mem_singleton_self _)
    simp only [Option.map_some, Object.map, htext]
  | bigInteger sign length =>
    have hlimbs : r.limbs first length = r.limbs second length := by
      apply List.map_congr_left
      intro k hk
      have hlimb : Piece.word .limb (r.offset + 24 + 8 * k) ∈ r.shape.contents r.offset :=
        hs ▸ List.mem_map_of_mem hk
      exact congrArg UInt64.ofNat (Bytes.field_congr fun i hle hlt => h _ hlimb i ⟨hle, hlt⟩)
    simp only [Option.map_some, Object.map, hlimbs]
  | array length => simp only [Option.map_some, Object.map, hchildren]
  | thunk | task | promise | mutableRef =>
    have hone : r.shape.slotRange.2 = 1 := by rw [hs]; rfl
    have hcontent : f (r.content first) = g (r.content second) := hslots _ (by simp [slots, hone])
    simp only [contents?_eq_some hfirst hone, contents?_eq_some hsecond hone, Option.map_some,
      Object.map, hcontent]
  | terminator => rfl

namespace Alike
variable (h : r.Alike first second)
include h

theorem sameContents : r.SameContents first second := fun p hp =>
  have hpiece := mem_pieces_of_contents hp
  h p hpiece.1 hpiece.2

theorem half : first.half (r.offset + 4) = second.half (r.offset + 4) := by
  have htag : (⟨.tag, r.offset + 4, 4⟩ : Piece) ∈ r.pieces := by simp [pieces, piecesFrom]
  exact Bytes.field_congr fun i hle hlt => h _ htag rfl i ⟨hle, hlt⟩

theorem word {part : Part} {pos : Nat} (hp : Piece.word part pos ∈ r.pieces)
    (hread : part.isUnread = false) : first.word pos = second.word pos :=
  Bytes.field_congr fun i hle hlt => h _ hp hread i ⟨hle, hlt⟩

theorem describedAt (hdescribed : r.shape.DescribedAt first base r.offset) :
    r.shape.DescribedAt second base r.offset := by
  have htag : first.tagAt r.offset = second.tagAt r.offset := by
    rw [Bytes.tagAt, h.half, Bytes.tagAt]
  have hextra : first.extraAt r.offset = second.extraAt r.offset := by
    rw [Bytes.extraAt, h.half, Bytes.extraAt]
  have hword : ∀ part offset, Piece.word part (r.offset + offset) ∈ r.pieces →
      part.isUnread = false → first.word (r.offset + offset) = second.word (r.offset + offset) :=
    fun part offset hp hread => h.word hp hread
  cases hs : r.shape <;> rw [hs] at hdescribed <;>
    simp only [pieces, hs, Shape.parts, Shape.DescribedAt, htag, hextra] at hdescribed hword ⊢
  case constructor =>
    rwa [← hword .count 8 (by simp [piecesFrom, Piece.word]) rfl,
      ← hword .count 16 (by simp [piecesFrom, Piece.word]) rfl]
  case bigInteger =>
    rwa [← hword .limbsAt 8 (by simp [piecesFrom, Piece.word]) rfl,
      ← hword .count 16 (by simp [piecesFrom, Piece.word]) rfl]
  case array | byteArray | string =>
    rwa [← hword .count 8 (by simp [piecesFrom, Piece.word]) rfl]
  case thunk => rwa [← hword .closure 16 (by simp [piecesFrom, Piece.word]) rfl]
  all_goals exact hdescribed

theorem isRecord (hr : IsRecord first base r) (hfits : r.offset + r.size ≤ second.size) :
    IsRecord second base r :=
  ⟨h.describedAt hr.described, hr.size_eq, hfits⟩

theorem word_slot {slot : Nat} (hslot : slot ∈ r.slots) : first.word slot = second.word slot := by
  have hp : Piece.word .reference slot ∈ r.pieces.filter fun p => p.part = .reference := by
    rw [filter_reference]
    exact List.mem_map_of_mem hslot
  exact h.word (List.mem_filter.mp hp).1 rfl

theorem filled (hfirst : r.Filled first) : r.Filled second :=
  fun slot hslot => h.word_slot hslot ▸ hfirst slot hslot

theorem word_root (hterminator : r.isTerminator = true) :
    first.word (r.offset + 8) = second.word (r.offset + 8) := by
  have hp : Piece.word .root (r.offset + 8) ∈ r.pieces.filter fun p => p.part = .root := by
    rw [filter_root, if_pos hterminator]
    exact List.mem_singleton_self _
  exact h.word (List.mem_filter.mp hp).1 rfl

theorem root?_eq : r.root? first = r.root? second := by
  unfold root?
  split
  · rename_i hterminator
    rw [rawRef, rawRef, h.word_root hterminator]
  · rfl

end Alike

end Record

section Graphs
variable {first second : Bytes} {base base' number : Nat} {records : List Record}

/-- The same graph is read if the contents are the same, and the references stand for the same. -/
theorem imageGraph_congr (hcontents : ∀ r ∈ records, r.SameContents first second)
    (hfirst : ∀ r ∈ records, r.Filled first) (hsecond : ∀ r ∈ records, r.Filled second)
    (hvalue : ∀ slot ∈ records.flatMap Record.slots ++ rootSlots records,
      wordValue base number records (first.word slot) =
        wordValue base' number records (second.word slot)) :
    imageGraph first base number records = imageGraph second base' number records := by
  rw [imageGraph, imageGraph, roots_of_records, roots_of_records]
  -- As variables, the two readings of a reference are not unfolded any further.
  generalize hf : (fun ref : RawRef => wordValue base number records ref.word) = f
  generalize hg : (fun ref : RawRef => wordValue base' number records ref.word) = g
  have hsame : ∀ slot ∈ records.flatMap Record.slots ++ rootSlots records,
      f (Record.rawRef first slot) = g (Record.rawRef second slot) := by
    intro slot hslot
    rw [← hf, ← hg]
    exact hvalue slot hslot
  have hobjects : ∀ r ∈ records,
      (r.object? first).map (Object.map f) = (r.object? second).map (Object.map g) := by
    intro r hr
    apply Record.object?_congr (hcontents r hr) (hfirst r hr) (hsecond r hr)
    intro slot hslot
    exact hsame slot (List.mem_append_left _ (List.mem_flatMap.mpr ⟨r, hr, hslot⟩))
  have hroots : (rootSlots records).map (f ∘ Record.rawRef first) =
      (rootSlots records).map (g ∘ Record.rawRef second) :=
    List.map_congr_left fun slot hslot => hsame slot (List.mem_append_right _ hslot)
  rw [List.map_filterMap, List.map_filterMap, List.map_map, List.map_map,
    List.filterMap_congr hobjects, hroots]

end Graphs

/-- The bytes are the same in the header and in all pieces of the records that are looked at. -/
structure Bytes.Alike (first second : Bytes) (records : List Record) : Prop where
  size_eq : first.size = second.size
  header : ∀ i, i < headerSize → first[i]? = second[i]?
  alike : ∀ r ∈ records, r.Alike first second

namespace Bytes.Alike
variable {first second : Bytes} {base pos : Nat} {records : List Record}

theorem tiling (hsize : first.size = second.size) (halike : ∀ r ∈ records, r.Alike first second)
    (h : Tiling first base pos records) : Tiling second base pos records := by
  induction h with
  | done => exact hsize ▸ .done
  | cons hr _ ih =>
    refine .cons ((halike _ List.mem_cons_self).isRecord hr (hsize ▸ hr.fits)) (ih fun s hs => ?_)
    exact halike s (List.mem_cons_of_mem _ hs)

variable (h : first.Alike second records)
include h

theorem word_header (pos : Nat) (hle : pos + 8 ≤ headerSize) : first.word pos = second.word pos :=
  field_congr fun i _ hlt => h.header i (by omega)

theorem word_reference {slot : Nat}
    (hslot : slot ∈ records.flatMap Record.slots ++ rootSlots records) :
    first.word slot = second.word slot := by
  rcases List.mem_append.mp hslot with hchild | hroot
  · obtain ⟨r, hr, hmem⟩ := List.mem_flatMap.mp hchild
    exact (h.alike r hr).word_slot hmem
  · obtain ⟨r, hr, hterminator, rfl⟩ := mem_rootSlots.mp hroot
    exact (h.alike r hr).word_root hterminator

theorem isImage (himage : IsImage first base records) : IsImage second base records where
  aligned := h.size_eq ▸ himage.aligned
  header := h.size_eq ▸ himage.header
  magic_eq := h.word_header 0 (by decide) ▸ himage.magic_eq
  base_eq := h.word_header 8 (by decide) ▸ himage.base_eq
  base_aligned := himage.base_aligned
  tiling := tiling h.size_eq h.alike himage.tiling
  closed := himage.closed
  references r hr slot hslot :=
    h.word_reference (mem_references hr hslot) ▸ himage.references r hr slot hslot

/-- Bytes that are alike are read alike, whether the memory is aligned or not. -/
theorem load_eq {declared : UInt64} (hlimit : first.size < wordLimit)
    (himage : IsImage first declared.toNat records) (aligned : Bool) (number : Nat) :
    second.load declared aligned number = first.load declared aligned number := by
  cases aligned with
  | false =>
    have hrefused : ∀ bytes : Bytes, bytes.load declared false number = .error .misaligned :=
      fun _ => rfl
    rw [hrefused, hrefused]
  | true =>
    rw [load_of_isImage hlimit himage, load_of_isImage (h.size_eq ▸ hlimit) (h.isImage himage),
      imageGraph_congr (fun r hr => (h.alike r hr).sameContents) (fun r hr => himage.filled hr)
        (fun r hr => (h.isImage himage).filled hr)
        fun slot hslot => congrArg _ (h.word_reference hslot)]

end Bytes.Alike

/-- A byte that the reader passes over may as well be another one. -/
theorem Tiling.alike_setIfInBounds {bytes : Bytes} {base i : Nat} {records : List Record}
    {p : Piece} (h : Tiling bytes base headerSize records) (hp : p ∈ piecesOf records)
    (hunread : p.part.isUnread = true) (hi : p.Covers i) (byte : UInt8) :
    bytes.Alike (bytes.setIfInBounds i byte) records := by
  have hsame : ∀ j, j ≠ i → bytes[j]? = (bytes.setIfInBounds i byte)[j]? :=
    fun j hj => (Array.getElem?_setIfInBounds_ne hj.symm).symm
  refine ⟨Array.size_setIfInBounds.symm, fun j hj => hsame j ?_, ?_⟩
  · have hbounds := h.bounds_of_mem_piecesOf hp
    have hstart := hi.1
    omega
  · intro r hr q hq hread j hj
    apply hsame
    rintro rfl
    obtain rfl := eq_of_covers h.pairwise_pieces (List.mem_flatMap.mpr ⟨r, hr, hq⟩) hp hj hi
    rw [hunread] at hread
    cases hread

end HeapImage
