import HeapImage.Proofs.Image.Dangling

/-!
# Pieces of records

What the bytes of a record are for: its header, the words and the data that follow, and what only
fills it up. The pieces of a record lie one right after the other, so the pieces of all records of
an image hold each of its bytes once, from the first record on.
-/

namespace HeapImage
set_option autoImplicit false

/-- What a piece of a record is for. -/
inductive Part where
  | refCount
  | tag
  | count
  | closure
  | lock
  | reference
  | root
  | limbsAt
  | limb
  | data
  | nul
  | padding
deriving DecidableEq

/-- Nothing is stored in such a part: it is used by live objects only, or ends a string, or fills a
record up. -/
def Part.isBlank : Part → Bool
  | refCount | closure | lock | nul | padding => true
  | tag | count | reference | root | limbsAt | limb | data => false

structure Piece where
  part : Part
  start : Nat
  length : Nat
deriving DecidableEq

namespace Piece

def stop (p : Piece) : Nat := p.start + p.length

/-- The byte at this position belongs to the piece. -/
def Covers (p : Piece) (i : Nat) : Prop := p.start ≤ i ∧ i < p.stop

def word (part : Part) (pos : Nat) : Piece := ⟨part, pos, 8⟩

def Precedes (p q : Piece) : Prop := p.stop ≤ q.start

end Piece

/-- Pieces one right after the other, with the given parts and lengths. -/
def piecesFrom : Nat → List (Part × Nat) → List Piece
  | _, [] => []
  | pos, (part, length) :: rest => ⟨part, pos, length⟩ :: piecesFrom (pos + length) rest

def totalLength (parts : List (Part × Nat)) : Nat := (parts.map Prod.snd).sum

/-- The parts of a record of this shape behind its header, in order, with their lengths. -/
def Shape.parts : Shape → List (Part × Nat)
  | constructor _ numFields scalarSize =>
    [(.count, 8), (.count, 8)] ++ List.replicate numFields (.reference, 8) ++ [(.data, scalarSize)]
  | array length => [(.count, 8)] ++ List.replicate length (.reference, 8)
  | byteArray elemSize length => [(.count, 8), (.data, length * elemSize)]
  | string length => [(.count, 8), (.data, length), (.nul, 1)]
  | thunk => [(.reference, 8), (.closure, 8)]
  | task => [(.reference, 8)]
  | promise => [(.reference, 8)]
  | mutableRef => [(.lock, 8), (.reference, 8)]
  | bigInteger _ length => [(.limbsAt, 8), (.count, 8)] ++ List.replicate length (.limb, 8)
  | terminator => [(.root, 8)]

/-- The parts of a record at `pos` that hold nothing, between its header and its padding. -/
def Shape.blanks (pos : Nat) : Shape → List Piece
  | string length => [⟨.nul, pos + 16 + length, 1⟩]
  | thunk => [⟨.closure, pos + 16, 8⟩]
  | mutableRef => [⟨.lock, pos + 8, 8⟩]
  | _ => []

/-- All pieces of a record, from its header to its padding. -/
def Record.pieces (r : Record) : List Piece :=
  piecesFrom r.offset ([(.refCount, 4), (.tag, 4)] ++ r.shape.parts ++
    [(.padding, r.size - r.shape.extent)])

section Lists
variable {pos i n : Nat} {part : Part} {parts rest : List (Part × Nat)} {p : Piece}

@[simp] theorem totalLength_nil : totalLength [] = 0 := rfl

@[simp] theorem totalLength_cons (x : Part × Nat) :
    totalLength (x :: rest) = x.2 + totalLength rest := by
  simp [totalLength]

@[simp] theorem totalLength_append :
    totalLength (parts ++ rest) = totalLength parts + totalLength rest := by
  simp [totalLength]

@[simp] theorem totalLength_replicate (n length : Nat) :
    totalLength (List.replicate n (part, length)) = length * n := by
  simp [totalLength, Nat.mul_comm]

theorem piecesFrom_append : piecesFrom pos (parts ++ rest) =
    piecesFrom pos parts ++ piecesFrom (pos + totalLength parts) rest := by
  induction parts generalizing pos with
  | nil => simp [piecesFrom]
  | cons x parts ih =>
    rw [List.cons_append, piecesFrom, piecesFrom, ih, totalLength_cons, List.cons_append,
      Nat.add_assoc]

theorem bounds_of_mem_piecesFrom (h : p ∈ piecesFrom pos parts) :
    pos ≤ p.start ∧ p.stop ≤ pos + totalLength parts := by
  induction parts generalizing pos with
  | nil => cases h
  | cons x rest ih =>
    rw [totalLength_cons]
    rcases List.mem_cons.mp h with rfl | hrest
    · simp only [Piece.stop]
      omega
    · have := ih hrest
      omega

theorem pairwise_piecesFrom (pos : Nat) (parts : List (Part × Nat)) :
    (piecesFrom pos parts).Pairwise Piece.Precedes := by
  induction parts generalizing pos with
  | nil => exact .nil
  | cons x rest ih => exact .cons (fun p hp => (bounds_of_mem_piecesFrom hp).1) (ih _)

theorem exists_covers_piecesFrom (hle : pos ≤ i) (hlt : i < pos + totalLength parts) :
    ∃ p ∈ piecesFrom pos parts, p.Covers i := by
  induction parts generalizing pos with
  | nil => simp at hlt; omega
  | cons x rest ih =>
    rw [totalLength_cons] at hlt
    by_cases hfirst : i < pos + x.2
    · exact ⟨_, List.mem_cons_self, hle, hfirst⟩
    · obtain ⟨p, hp, hcovers⟩ := ih (show pos + x.2 ≤ i by omega) (by omega)
      exact ⟨p, List.mem_cons_of_mem _ hp, hcovers⟩

theorem piecesFrom_replicate (pos n : Nat) (part : Part) :
    piecesFrom pos (List.replicate n (part, 8)) =
      (List.range n).map fun i => ⟨part, pos + 8 * i, 8⟩ := by
  induction n generalizing pos with
  | zero => rfl
  | succ n ih =>
    rw [List.replicate_succ, piecesFrom, ih, List.range_succ_eq_map, List.map_cons, List.map_map]
    congr 1
    refine List.map_congr_left fun i _ => ?_
    rw [Function.comp_apply, Nat.mul_succ, Nat.add_assoc, Nat.add_comm 8]

end Lists

theorem Shape.totalLength_parts (s : Shape) : 8 + totalLength s.parts = s.extent := by
  cases s <;> simp [parts, extent] <;> omega

namespace Record
variable {r : Record} {p : Piece} {i : Nat}

theorem totalLength_pieces (h : r.shape.extent ≤ r.size) :
    totalLength ([(.refCount, 4), (.tag, 4)] ++ r.shape.parts ++
      [(.padding, r.size - r.shape.extent)]) = r.size := by
  have := r.shape.totalLength_parts
  simp only [totalLength_append, totalLength_cons, totalLength_nil]
  omega

theorem bounds_of_mem_pieces (h : r.shape.extent ≤ r.size) (hp : p ∈ r.pieces) :
    r.offset ≤ p.start ∧ p.stop ≤ r.offset + r.size := by
  have hbounds := bounds_of_mem_piecesFrom hp
  rwa [totalLength_pieces h] at hbounds

theorem exists_covers (h : r.shape.extent ≤ r.size) (hle : r.offset ≤ i)
    (hlt : i < r.offset + r.size) : ∃ p ∈ r.pieces, p.Covers i := by
  apply exists_covers_piecesFrom hle
  rwa [totalLength_pieces h]

theorem filter_reference (r : Record) :
    r.pieces.filter (fun p => p.part = .reference) = r.slots.map (Piece.word .reference) := by
  cases hs : r.shape <;>
    simp [pieces, slots, hs, Shape.parts, Shape.slotRange, Piece.word, piecesFrom_append,
      piecesFrom, piecesFrom_replicate, List.filter_map, Function.comp_def, Nat.add_assoc]

theorem filter_root (r : Record) : r.pieces.filter (fun p => p.part = .root) =
    if r.isTerminator then [Piece.word .root (r.offset + 8)] else [] := by
  cases hs : r.shape <;>
    simp [pieces, isTerminator, hs, Shape.parts, Piece.word, piecesFrom_append, piecesFrom,
      piecesFrom_replicate, List.filter_map, Function.comp_def, Nat.add_assoc]

/-- The blank pieces of a record: half of its header, the padding, and what its kind leaves. -/
theorem filter_isBlank (r : Record) : r.pieces.filter (fun p => p.part.isBlank) =
    ⟨.refCount, r.offset, 4⟩ :: (r.shape.blanks r.offset ++
      [⟨.padding, r.offset + r.shape.extent, r.size - r.shape.extent⟩]) := by
  cases hs : r.shape <;>
    simp [pieces, hs, Shape.parts, Shape.blanks, Shape.extent, piecesFrom_append, piecesFrom,
      piecesFrom_replicate, Part.isBlank, List.filter_map, Function.comp_def, Nat.add_assoc]

end Record

def piecesOf (records : List Record) : List Piece := records.flatMap Record.pieces

section Images
variable {bytes : Bytes} {base pos i : Nat} {records : List Record} {p q : Piece}
variable {pieces : List Piece}

/-- A byte belongs to one of several pieces only if each of them ends before the next starts. -/
theorem eq_of_covers (hpieces : pieces.Pairwise Piece.Precedes) (hp : p ∈ pieces)
    (hq : q ∈ pieces) (hcovers : p.Covers i) (hcovers' : q.Covers i) : p = q := by
  have hapart : pieces.Pairwise fun p q => p.Covers i → q.Covers i → p = q := by
    apply hpieces.imp
    intro p q hle hp hq
    have : q.start < p.stop := Nat.lt_of_le_of_lt hq.1 hp.2
    exact absurd hle (by simp only [Piece.Precedes]; omega)
  have : Std.Symm fun p q : Piece => p.Covers i → q.Covers i → p = q :=
    ⟨fun _ _ h hq hp => (h hp hq).symm⟩
  exact hapart.forall_of_forall (fun _ _ _ _ => rfl) hp hq hcovers hcovers'

namespace Tiling
variable (h : Tiling bytes base pos records)
include h

theorem pairwise_pieces : (piecesOf records).Pairwise Piece.Precedes := by
  rw [piecesOf, List.pairwise_flatMap]
  refine ⟨fun r _ => pairwise_piecesFrom _ _, h.pairwise.imp_of_mem ?_⟩
  intro r s hr hs hle p hp q hq
  have hleft := Record.bounds_of_mem_pieces (h.isRecord r hr).extent_le hp
  have hright := Record.bounds_of_mem_pieces (h.isRecord s hs).extent_le hq
  simp only [Piece.Precedes]
  omega

theorem bounds_of_mem_piecesOf (hp : p ∈ piecesOf records) :
    pos ≤ p.start ∧ p.stop ≤ bytes.size := by
  obtain ⟨r, hr, hp⟩ := List.mem_flatMap.mp hp
  have hrecord := h.isRecord r hr
  have hbounds := Record.bounds_of_mem_pieces hrecord.extent_le hp
  have hoffset := h.le_offset r hr
  have hfits := hrecord.fits
  omega

theorem exists_record (hle : pos ≤ i) (hlt : i < bytes.size) :
    ∃ r ∈ records, r.offset ≤ i ∧ i < r.offset + r.size := by
  induction h with
  | done => omega
  | @cons r rest _ _ ih =>
    by_cases hfirst : i < r.offset + r.size
    · exact ⟨r, List.mem_cons_self, hle, hfirst⟩
    · obtain ⟨s, hs, hin⟩ := ih (by omega)
      exact ⟨s, List.mem_cons_of_mem _ hs, hin⟩

/-- Each byte of an image belongs to one piece of its records. -/
theorem existsUnique_piece (hle : pos ≤ i) (hlt : i < bytes.size) :
    ∃! p, p ∈ piecesOf records ∧ p.Covers i := by
  obtain ⟨r, hr, hstart, hstop⟩ := h.exists_record hle hlt
  obtain ⟨p, hp, hcovers⟩ := Record.exists_covers (h.isRecord r hr).extent_le hstart hstop
  have hmem : p ∈ piecesOf records := List.mem_flatMap.mpr ⟨r, hr, hp⟩
  refine ⟨p, ⟨hmem, hcovers⟩, ?_⟩
  rintro q ⟨hq, hcovers'⟩
  exact eq_of_covers h.pairwise_pieces hq hmem hcovers' hcovers

end Tiling

/-- The references of all records are the words at their slots, in order. -/
theorem filter_reference_piecesOf (records : List Record) :
    (piecesOf records).filter (fun p => p.part = .reference) =
      (records.flatMap Record.slots).map (Piece.word .reference) := by
  rw [piecesOf, List.filter_flatMap, List.map_flatMap, funext Record.filter_reference]

theorem filter_root_piecesOf (records : List Record) :
    (piecesOf records).filter (fun p => p.part = .root) =
      (rootSlots records).map (Piece.word .root) := by
  induction records with
  | nil => rfl
  | cons r rest ih =>
    have hcons : piecesOf (r :: rest) = r.pieces ++ piecesOf rest := List.flatMap_cons
    rw [hcons, List.filter_append, ih, Record.filter_root]
    cases hr : r.isTerminator <;> simp [rootSlots, hr]

end Images
end HeapImage
