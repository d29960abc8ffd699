import HeapImage.Proofs.Blanks
import HeapImage.Proofs.Image.InPlace
import HeapImage.Proofs.Image.Integers

/-!
# Loaded strings

A live string ends with a zero byte that does not count towards its length, and so does one that a
writer has copied. The record of a loaded string has room for this byte too, but the reader passes
over it: any byte may stand there, and loading in place leaves it as it is.
-/

namespace HeapImage
set_option autoImplicit false

namespace Record
variable {bytes : Bytes} {base : Nat} {r : Record} {data : Bytes}

theorem shape_of_string (hr : IsRecord bytes base r) (hfilled : r.Filled bytes)
    (hraw : r.object? bytes = some (.string data)) : r.shape = .string data.size := by
  obtain ⟨hsize, _⟩ := exposes_object hr hfilled hraw fun _ => .object 0
  have hdescribed := hr.described
  cases hs : r.shape
  case thunk =>
    simp only [object?, hs] at hraw
    split at hraw <;> cases hraw
  all_goals simp only [object?, hs, Option.some.injEq, reduceCtorEq] at hraw
  rw [hs] at hdescribed
  rw [hsize, hdescribed.2.2]

/-- The byte behind a string still belongs to its record. -/
theorem lt_of_string (hr : IsRecord bytes base r) (hfilled : r.Filled bytes)
    (hraw : r.object? bytes = some (.string data)) :
    r.offset + 16 + data.size < r.offset + r.size := by
  have hextent := hr.extent_le
  rw [shape_of_string hr hfilled hraw, Shape.extent] at hextent
  omega

end Record

theorem Bytes.Alike.region_load_eq {ε : Type} {first second : Bytes} {declared : UInt64}
    {records : List Record} (halike : first.Alike second records) (hlimit : first.size < wordLimit)
    (himage : IsImage first declared.toNat records) (h : Heap) (aligned mapped : Bool)
    (release : ε) : Region.load h second declared aligned mapped release =
      Region.load h first declared aligned mapped release := by
  rw [Region.load, Region.load, halike.load_eq hlimit himage, halike.size_eq]

/-- The record of a loaded string holds one more byte behind it, but the byte is never looked at.
Loading in place leaves it as it is, and an image with any other byte in its place is loaded just
the same. If a writer has made the image, then the byte is zero. -/
theorem loaded_strings {ε : Type} {h h' : Heap} {bytes : Bytes} {start : Nat} {declared : UInt64}
    {mapped : Bool} {release : ε} {region : Region ε} {effects : List ε}
    (hsize : bytes.size ≤ sizeLimit) (hfits : start + bytes.size < wordLimit)
    (hload : Region.load h bytes declared (start % 8 == 0) mapped release =
      (.ok (h', region), effects)) :
    ∃ records memory roots, IsImage bytes declared.toNat records ∧
      InPlace.load bytes start declared = .ok (memory, roots) ∧
      ∀ root ∈ region.roots, ∀ id data, h'.Accessible root (.object id) →
        h'.object id = .string data → ∃ r ∈ records, r.object? bytes = some (.string data) ∧
          r.offset + 16 + data.size < r.offset + r.size ∧
          memory[r.offset + 16 + data.size]? = bytes[r.offset + 16 + data.size]? ∧
          (∀ byte, Region.load h (bytes.setIfInBounds (r.offset + 16 + data.size) byte) declared
            (start % 8 == 0) mapped release = (.ok (h', region), effects)) ∧
          ∀ c w hash calls, Writer.create? c = .ok w →
            (∀ call ∈ calls, call.1.WellFormed ∧ call.2.In call.1) →
            (w.calls hash calls).1.data = bytes → bytes[r.offset + 16 + data.size]? = some 0 := by
  obtain ⟨records, himage, hall⟩ := exists_object?_of_load hload
  have hlimit : bytes.size < wordLimit := by omega
  obtain ⟨g, hread⟩ : ∃ g, bytes.load declared (start % 8 == 0) h.size = .ok g := by
    cases hg : bytes.load declared (start % 8 == 0) h.size with
    | error e =>
      rw [Region.load, hg] at hload
      cases hload
    | ok g => exact ⟨g, rfl⟩
  obtain ⟨memory, others, hplaced, _, himage', _, hrelocated⟩ :=
    InPlace.exists_relocated hsize hfits hread
  obtain rfl := himage'.tiling.unique hlimit himage.tiling
  refine ⟨others, memory, _, himage, hplaced, fun root hroot id data hid hdata => ?_⟩
  obtain ⟨_, r, hmem, raw, hraw, hobject⟩ := hall root hroot id hid
  obtain rfl := Object.map_inj_of_isLeaf (o := .string data) rfl (hdata.symm.trans hobject)
  have hrecord := himage.tiling.isRecord r hmem
  have hfilled := himage.filled hmem
  have hshape := Record.shape_of_string hrecord hfilled hraw
  have hlt := Record.lt_of_string hrecord hfilled hraw
  have hnul := List.mem_flatMap.mpr ⟨r, hmem, Record.nul_mem_pieces hshape⟩
  have hcovers : (⟨.nul, r.offset + 16 + data.size, 1⟩ : Piece).Covers
      (r.offset + 16 + data.size) := ⟨Nat.le_refl _, Nat.lt_succ_self _⟩
  refine ⟨r, hmem, hraw, hlt, ?_, fun byte => ?_, ?_⟩
  · have hobject : r.isTerminator = false := by
      rw [Record.isTerminator, hshape]
      rfl
    refine hrelocated.data r hmem hobject _ ?_ hlt
    rw [hshape, Shape.dataStart]
    simp only [Shape.touched, Shape.slotRange]
    omega
  · rw [← hload]
    exact (himage.tiling.alike_setIfInBounds hnul rfl hcovers byte).region_load_eq hlimit himage
      h _ mapped release
  · rintro c w hash calls hcreate hcalls rfl
    exact (Writer.blanked_of_isImage hcreate hash hcalls himage).zero _ hnul rfl _ hcovers

/-- An image of the string of one letter, with the given byte behind it. -/
def letterImage (behind : UInt8) : Bytes :=
  (leBytes 8 magic ++ leBytes 8 4096 ++
    (leBytes 4 0 ++ leBytes 4 3 ++ leBytes 8 1 ++ [104, behind, 0, 0, 0, 0, 0, 0]) ++
    (leBytes 4 0 ++ leBytes 4 15 ++ leBytes 8 (4096 + 16))).toArray

def letterHeap : Heap := ⟨#[⟨.string #[104], true⟩]⟩

def letterRegion : Region Unit :=
  ⟨56, 4096, false, #[.object 0], 0, some ⟨.wrapped (.bare ())⟩⟩

set_option maxRecDepth 4096 in
theorem load_letter : Region.load .empty (letterImage 0) 4096 true false () =
    (.ok (letterHeap, letterRegion), []) := by
  cbv

/-- The string is loaded whatever byte stands behind it. -/
theorem letter_loaded : ∃ records, IsImage (letterImage 0) 4096 records ∧
    ∃ r ∈ records, r.object? (letterImage 0) = some (.string #[104]) ∧
      r.offset + 16 + 1 < r.offset + r.size ∧
      ∀ byte, Region.load .empty ((letterImage 0).setIfInBounds (r.offset + 16 + 1) byte) 4096 true
        false () = (.ok (letterHeap, letterRegion), []) := by
  have hload : Region.load .empty (letterImage 0) 4096 (65536 % 8 == 0) false () =
      (.ok (letterHeap, letterRegion), []) := load_letter
  obtain ⟨records, _, _, himage, _, hall⟩ := loaded_strings (by decide) (by decide) hload
  obtain ⟨r, hr, hraw, hlt, _, hany, _⟩ :=
    hall (.object 0) (by simp [letterRegion]) 0 #[104] .root rfl
  exact ⟨records, himage, r, hr, hraw, hlt, hany⟩

set_option maxRecDepth 4096 in
/-- A string that is not followed by zero is loaded too. -/
theorem letter_unterminated :
    Region.load .empty (letterImage 65) 4096 true false () =
      (.ok (letterHeap, letterRegion), []) ∧
    .object 0 ∈ letterRegion.roots ∧ letterHeap.object 0 = .string #[104] ∧
    (letterImage 65).records 4096 = .ok #[⟨16, 24, .string 1⟩, ⟨40, 16, .terminator⟩] ∧
    (letterImage 65)[16 + 16 + 1]? = some 65 := by
  refine ⟨by cbv, by simp [letterRegion], rfl, by cbv, by cbv⟩

end HeapImage
