import HeapImage.Proofs.Heap.Leaves
import HeapImage.Proofs.LimbInteger.Word128

/-!
# Loaded integers

The reader looks at the sign and the number of the limbs of an integer, but not at the limbs. So a
loaded integer is canonical if and only if the last limb in its record is not zero, and only then
does it equal the live integer that denotes the same number.
-/

namespace HeapImage
set_option autoImplicit false

namespace Record
variable {bytes : Bytes} {base : Nat} {r : Record} {x : LimbInteger}

theorem getLast?_limbs (hr : IsRecord bytes base r) (hfilled : r.Filled bytes)
    (hraw : r.object? bytes = some (.bigInteger x)) {limb : UInt64}
    (hlast : x.limbs.getLast? = some limb) :
    limb.toNat = bytes.word (r.offset + 16 + 8 * x.limbs.length) := by
  obtain ⟨_, _, _, hlimbs⟩ := exposes_object hr hfilled hraw fun _ => .object 0
  rw [List.getLast?_eq_getElem?, List.getElem?_eq_some_iff] at hlast
  obtain ⟨hlt, rfl⟩ := hlast
  rw [hlimbs _ hlt]
  congr 1
  omega

theorem canonical_iff (hr : IsRecord bytes base r) (hfilled : r.Filled bytes)
    (hraw : r.object? bytes = some (.bigInteger x)) :
    x.Canonical ↔ (x.limbs ≠ [] → bytes.word (r.offset + 16 + 8 * x.limbs.length) ≠ 0) := by
  constructor
  · intro hx hne
    have hlast := List.getLast?_eq_some_getLast hne
    rw [← getLast?_limbs hr hfilled hraw hlast]
    exact fun hzero => hx.top _ hlast (UInt64.toNat_inj.mp hzero)
  · intro hword
    refine ⟨fun limb hlast hzero => ?_, wellFormed_object hr hfilled hraw⟩
    have hne : x.limbs ≠ [] := by
      intro hnil
      rw [hnil] at hlast
      cases hlast
    apply hword hne
    rw [← getLast?_limbs hr hfilled hraw hlast, hzero]
    rfl

end Record

namespace LimbInteger
variable {x y : LimbInteger}

theorem eq_iff_of_canonical (hy : y.Canonical) : x = y ↔ x.Canonical ∧ x.toInt = y.toInt := by
  constructor
  · rintro rfl
    exact ⟨hy, rfl⟩
  · rintro ⟨hx, heq⟩
    exact (hx.eq_iff hy).mpr heq

theorem isZero_iff_of_sign (hsign : x.limbs = [] → x.negative = false) :
    x.isZero = true ↔ x.Canonical ∧ x.toInt = 0 := by
  constructor
  · intro hzero
    have hnil : x.limbs = [] := List.isEmpty_iff.mp hzero
    have hx : x.Canonical := ⟨by rw [hnil]; nofun, hsign⟩
    exact ⟨hx, hx.isZero_iff.mp hzero⟩
  · rintro ⟨hx, hzero⟩
    exact hx.isZero_iff.mpr hzero

end LimbInteger

/-- An integer that is reached from the roots of a loaded image is canonical if the last limb in its
record is not zero, and only then it is found to be zero, or to equal a canonical integer, whenever
it denotes the same number. -/
theorem loaded_integers {ε : Type} {h h' : Heap} {bytes : Bytes} {declared : UInt64}
    {aligned mapped : Bool} {release : ε} {region : Region ε} {effects : List ε}
    (hload : Region.load h bytes declared aligned mapped release =
      (.ok (h', region), effects)) :
    ∃ records, IsImage bytes declared.toNat records ∧
      ∀ root ∈ region.roots, ∀ id x, h'.Accessible root (.object id) →
        h'.object id = .bigInteger x → ∃ r ∈ records, r.object? bytes = some (.bigInteger x) ∧
          (x.limbs = [] → x.negative = false) ∧
          (x.Canonical ↔
            (x.limbs ≠ [] → bytes.word (r.offset + 16 + 8 * x.limbs.length) ≠ 0)) ∧
          (x.isZero = true ↔ x.Canonical ∧ x.toInt = 0) ∧
          (x.Canonical → ((∃ n, x.toInt128? = some n) ↔
            -(2 : Int) ^ 127 ≤ x.toInt ∧ x.toInt ≤ 2 ^ 127 - 1)) ∧
          ∀ us other y, (h'.updates us).object other = .bigInteger y →
            ((h'.updates us).structurallyEqual (.object id) (.object other) = true ↔ x = y) ∧
            (y.Canonical →
              ((h'.updates us).structurallyEqual (.object id) (.object other) = true ↔
                x.Canonical ∧ x.toInt = y.toInt)) := by
  obtain ⟨records, himage, hall⟩ := exists_object?_of_load hload
  refine ⟨records, himage, fun root hroot id x hid hx => ?_⟩
  obtain ⟨hlt, r, hmem, raw, hraw, hobject⟩ := hall root hroot id hid
  obtain rfl := Object.eq_of_map_eq_bigInteger (hobject.symm.trans hx)
  have hrecord := himage.tiling.isRecord r hmem
  have hfilled := himage.filled hmem
  have hsign : x.limbs = [] → x.negative = false := Record.wellFormed_object hrecord hfilled hraw
  refine ⟨r, hmem, hraw, hsign, Record.canonical_iff hrecord hfilled hraw,
    LimbInteger.isZero_iff_of_sign hsign,
    fun hcanonical => LimbInteger.exists_toInt128?_eq_some_iff hcanonical.top, ?_⟩
  intro us other y hy
  have hleaf : (h'.object id).isLeaf = true := by
    rw [hx]
    rfl
  have hstays := Heap.object_updates_of_isLeaf hlt hleaf us
  rw [← hstays] at hleaf
  rw [Heap.structurallyEqual_iff_of_isLeaf hleaf, hstays, hx, hy, Object.bigInteger.injEq]
  exact ⟨Iff.rfl, fun hcanonical => LimbInteger.eq_iff_of_canonical hcanonical⟩

/-- An image of one integer that is not negative, with the given limbs. -/
def integerImage (limbs : List UInt64) : Bytes :=
  (leBytes 8 magic ++ leBytes 8 4096 ++
    (leBytes 4 0 ++ leBytes 4 8 ++ leBytes 8 (4096 + 40) ++ leBytes 8 limbs.length ++
      limbs.flatMap fun limb => leBytes 8 limb.toNat) ++
    (leBytes 4 0 ++ leBytes 4 15 ++ leBytes 8 (4096 + 16))).toArray

/-- A heap with the live integer five, after an image of an integer was loaded into it. -/
def besideFive (limbs : List UInt64) : Heap :=
  ⟨#[⟨.bigInteger ⟨false, [5]⟩, false⟩, ⟨.bigInteger ⟨false, limbs⟩, true⟩]⟩

set_option maxRecDepth 4096 in
theorem load_five : Region.load (Heap.empty.bigInteger false [5]).1 (integerImage [5]) 4096 true
    false () = (.ok (besideFive [5], ⟨64, 4096, false, #[.object 1], 0,
      some ⟨.wrapped (.bare ())⟩⟩), []) := by
  cbv

set_option maxRecDepth 4096 in
theorem load_padded_five : Region.load (Heap.empty.bigInteger false [5]).1 (integerImage [5, 0])
    4096 true false () = (.ok (besideFive [5, 0], ⟨72, 4096, false, #[.object 1], 0,
      some ⟨.wrapped (.bare ())⟩⟩), []) := by
  cbv

/-- The loaded five equals the live one. -/
theorem five_loaded : (besideFive [5]).structurallyEqual (.object 1) (.object 0) = true := by
  obtain ⟨records, _, hall⟩ := loaded_integers load_five
  obtain ⟨r, _, _, _, _, _, _, hequal⟩ := hall (.object 1) (by simp) 1 ⟨false, [5]⟩ .root rfl
  have hfive : (LimbInteger.mk false [5]).Canonical := LimbInteger.canonical_ofLimbs false [5]
  exact ((hequal [] 0 ⟨false, [5]⟩ rfl).2 hfive).mpr ⟨hfive, rfl⟩

/-- A five with a zero limb on top is loaded too, but is not canonical and does not equal the
other. -/
theorem padded_five_differs :
    (∃ region, Region.load (Heap.empty.bigInteger false [5]).1 (integerImage [5, 0]) 4096 true
      false () = (.ok (besideFive [5, 0], region), []) ∧ .object 1 ∈ region.roots) ∧
    (besideFive [5, 0]).object 1 = .bigInteger ⟨false, [5, 0]⟩ ∧
    ¬(LimbInteger.mk false [5, 0]).Canonical ∧
    (LimbInteger.mk false [5, 0]).toInt = (LimbInteger.mk false [5]).toInt ∧
    (besideFive [5, 0]).structurallyEqual (.object 1) (.object 0) = false := by
  refine ⟨⟨_, load_padded_five, by simp⟩, rfl, fun hcanonical => ?_, by decide, by cbv⟩
  exact hcanonical.top 0 rfl rfl

end HeapImage
