import HeapImage.Proofs.Image.Layout

/-!
# Keys of leaves

Leaf records are compared by tag, extra data and contents. The key of a record depends on the leaf
alone, and it determines the leaf, also among records of other kinds.
-/

namespace HeapImage
set_option autoImplicit false

theorem leBytes_inj {width m n : Nat} (h : leBytes width m = leBytes width n)
    (hm : m < 256 ^ width) (hn : n < 256 ^ width) : m = n := by
  have hvalue := congrArg leValue h
  rwa [leValue_leBytes, leValue_leBytes, Nat.mod_eq_of_lt hm, Nat.mod_eq_of_lt hn] at hvalue

namespace Object

def leafKey {ρ : Type} (o : Object ρ) : Bytes :=
  (leBytes 4 (16 * o.extra + o.tagNumber)).toArray ++
    (o.contents ++
      List.replicate (roundUp o.extent - (o.contentsAt + o.contents.length)) 0).toArray

theorem contents_fits {ρ : Type} {o : Object ρ} (ho : o.isLeaf = true) :
    o.contentsAt + o.contents.length ≤ roundUp o.extent := by
  have hle := le_roundUp o.extent
  cases o <;> simp only [isLeaf, Bool.false_eq_true] at ho <;>
    simp only [extent, contentsAt, contents, List.length_append, length_leBytes, length_limbs,
      Array.length_toList] at hle ⊢ <;> omega

/-- A leaf has no references, and in front of its contents at most the reference to its limbs. -/
theorem tail_of_isLeaf {ρ : Type} {o : Object ρ} (ho : o.isLeaf = true) (limbsAt : Nat) :
    o.slotsAt = 8 ∧ o.children = [] ∧
      ∃ before, 8 + before.length = o.contentsAt ∧ o.tail limbsAt = before ++ o.contents := by
  cases o with
  | byteArray | string => exact ⟨rfl, rfl, [], rfl, rfl⟩
  | bigInteger value =>
    exact ⟨rfl, rfl, leBytes 8 limbsAt, by rw [length_leBytes]; rfl, rfl⟩
  | constructor | array | thunk | task | promise | mutableRef => cases ho

theorem tagNumber_lt {ρ : Type} (o : Object ρ) : o.tagNumber < 16 := by
  cases o <;> simp [tagNumber]

end Object

section Keys
variable {b : Buffer} {base off id : Nat} {f : Nat → Nat} {o o' : Object Value}

/-- The tag stands at its place in every record, and the contents of a leaf at theirs. -/
theorem shows_leaf (hs : b.bytes.Shows off ((Entry.object id o).encode base f off)) :
    b.bytes.Shows (off + 4) (leBytes 4 (16 * o.extra + o.tagNumber)) ∧
      (o.isLeaf = true → b.bytes.Shows (off + o.contentsAt) (o.contents ++
        List.replicate (roundUp o.extent - (o.contentsAt + o.contents.length)) 0)) := by
  obtain ⟨hheader, _, htail, hpadding⟩ := Entry.shows_parts hs
  rw [Entry.header, Bytes.shows_append, Bytes.shows_append, length_leBytes] at hheader
  refine ⟨hheader.2.1, fun ho => ?_⟩
  obtain ⟨hslots, hchildren, before, hbefore, htailEq⟩ := o.tail_of_isLeaf ho (base + (off + 24))
  have hsize := o.length_tail (base + (off + 24))
  rw [htailEq, List.length_append] at hsize
  simp only [Entry.refsAt, Entry.refs, Entry.tail, Entry.tailSize, Entry.size, hslots, hchildren,
    htailEq, List.length_nil, Nat.mul_zero, Nat.add_zero, ← hsize, Bytes.shows_append]
    at htail hpadding
  refine Bytes.shows_append.mpr ⟨?_, ?_⟩
  · rw [← hbefore, ← Nat.add_assoc]
    exact htail.2
  · rw [← hbefore, ← Nat.add_assoc, Nat.add_assoc (off + 8), Nat.add_assoc 8]
    exact hpadding

theorem leafKey_eq (hs : b.bytes.Shows off ((Entry.object id o).encode base f off))
    (ho : o.isLeaf = true) : b.leafKey off o.contentsAt (roundUp o.extent) = o.leafKey := by
  obtain ⟨hheader, hcontents⟩ := shows_leaf hs
  have hfits := Object.contents_fits ho
  have hend : off + roundUp o.extent = off + o.contentsAt + (o.contents ++ List.replicate
      (roundUp o.extent - (o.contentsAt + o.contents.length)) 0).length := by
    rw [List.length_append, List.length_replicate]
    omega
  have hhalf : b.bytes.extract (off + 4) (off + 8) = _ := hheader.extract
  rw [Buffer.leafKey, hhalf, hend, (hcontents ho).extract, Object.leafKey]

end Keys

section Injectivity
variable {ρ : Type} {o o' : Object ρ}

theorem toList_leafKey (o : Object ρ) : o.leafKey.toList =
    leBytes 4 (16 * o.extra + o.tagNumber) ++ (o.contents ++
      List.replicate (roundUp o.extent - (o.contentsAt + o.contents.length)) 0) := by
  simp [Object.leafKey]

theorem limbs_inj {limbs limbs' : List UInt64} (hlength : limbs.length = limbs'.length)
    (h : limbs.flatMap (fun limb => leBytes 8 limb.toNat) =
      limbs'.flatMap fun limb => leBytes 8 limb.toNat) : limbs = limbs' := by
  induction limbs generalizing limbs' with
  | nil => exact (List.length_eq_zero_iff.mp hlength.symm).symm
  | cons limb rest ih =>
    cases limbs' with
    | nil => cases hlength
    | cons limb' rest' =>
      obtain ⟨hfirst, hrest⟩ := List.append_inj h (by rw [length_leBytes, length_leBytes])
      have hlimb := leBytes_inj hfirst limb.toNat_lt limb'.toNat_lt
      rw [UInt64.toNat_inj.mp hlimb, ih (Nat.succ.inj hlength) hrest]

/-- Counts come first in the contents, so these end where they end in both leaves. -/
theorem contents_inj {count count' : Nat} {data data' padding padding' : List UInt8}
    (h : leBytes 8 count ++ data ++ padding = leBytes 8 count' ++ data' ++ padding')
    (hcount : count < 2 ^ 64) (hcount' : count' < 2 ^ 64)
    (hlength : count = count' → data.length = data'.length) : count = count' ∧ data = data' := by
  rw [List.append_assoc, List.append_assoc] at h
  obtain ⟨hfirst, hrest⟩ := List.append_inj h (by rw [length_leBytes, length_leBytes])
  have heq := leBytes_inj hfirst hcount hcount'
  exact ⟨heq, (List.append_inj hrest (hlength heq)).1⟩

theorem leafKey_inj (ho : o.isLeaf = true) (hw : o.WellFormed) (hw' : o'.WellFormed)
    (hlt : o.extent < 2 ^ 64) (hlt' : o'.extent < 2 ^ 64) (hkey : o.leafKey = o'.leafKey) :
    o = o' := by
  have hlist := congrArg Array.toList hkey
  rw [toList_leafKey, toList_leafKey] at hlist
  obtain ⟨hheader, hcontents⟩ := List.append_inj hlist (by rw [length_leBytes, length_leBytes])
  have hhalf := leBytes_inj hheader o.header_lt o'.header_lt
  have htag := o.tagNumber_lt
  have htag' := o'.tagNumber_lt
  have hextra : o.extra = o'.extra := by omega
  have hnumber : o.tagNumber = o'.tagNumber := by omega
  cases o with
  | byteArray elemSize data =>
    cases o' <;> simp only [Object.tagNumber] at hnumber <;> try cases hnumber
    rename_i elemSize' data'
    obtain rfl := UInt8.toNat_inj.mp hextra
    simp only [Object.extent] at hlt hlt'
    have hcount := Nat.div_le_self data.size elemSize.toNat
    have hcount' := Nat.div_le_self data'.size elemSize.toNat
    obtain ⟨_, hdata⟩ := contents_inj hcontents (by omega) (by omega) (by
      intro heq
      rw [Array.length_toList, Array.length_toList,
        ← Nat.div_mul_cancel (Nat.dvd_of_mod_eq_zero hw.2), heq,
        Nat.div_mul_cancel (Nat.dvd_of_mod_eq_zero hw'.2)])
    rw [Array.toList_inj.mp hdata]
  | string data =>
    cases o' <;> simp only [Object.tagNumber] at hnumber <;> try cases hnumber
    rename_i data'
    simp only [Object.extent] at hlt hlt'
    obtain ⟨_, hdata⟩ := contents_inj hcontents (by omega) (by omega) (by
      intro heq
      rwa [Array.length_toList, Array.length_toList])
    rw [Array.toList_inj.mp hdata]
  | bigInteger value =>
    cases o' <;> simp only [Object.tagNumber] at hnumber <;> try cases hnumber
    rename_i value'
    simp only [Object.extent] at hlt hlt'
    obtain ⟨hcount, hdata⟩ := contents_inj hcontents (by omega) (by omega) (by
      intro heq
      rw [Object.length_limbs, Object.length_limbs, heq])
    obtain ⟨negative, limbs⟩ := value
    obtain ⟨negative', limbs'⟩ := value'
    have hsign : negative = negative' := by
      cases negative <;> cases negative' <;> first | rfl | cases hextra
    have hlimbs : limbs = limbs' := limbs_inj hcount hdata
    rw [hsign, hlimbs]
  | constructor | array | thunk | task | promise | mutableRef => cases ho

/-- A record that compares equal to a leaf holds this leaf, whatever kind it may be of. -/
theorem eq_of_leafKey_eq {b : Buffer} {base off id : Nat} {f : Nat → Nat} {o o' : Object Value}
    (hs : b.bytes.Shows off ((Entry.object id o).encode base f off)) (ho : o.isLeaf = true)
    (hw : o.WellFormed) (hw' : o'.WellFormed) (hlt : o.extent < 2 ^ 64) (hlt' : o'.extent < 2 ^ 64)
    (hsize : roundUp o.extent = roundUp o'.extent)
    (hkey : b.leafKey off o'.contentsAt (roundUp o'.extent) = o'.leafKey) : o = o' := by
  have hhalf := (shows_leaf hs).1.extract
  rw [length_leBytes] at hhalf
  have hlist := congrArg Array.toList hkey
  rw [toList_leafKey, Buffer.leafKey, show off + 8 = off + 4 + 4 from rfl, hhalf,
    Array.toList_append] at hlist
  have hheader := (List.append_inj hlist (by simp)).1
  have hword := leBytes_inj hheader o.header_lt o'.header_lt
  have htag := o.tagNumber_lt
  have htag' := o'.tagNumber_lt
  have hnumber : o.tagNumber = o'.tagNumber := by omega
  have hat : o.contentsAt = o'.contentsAt := by
    cases o <;> cases o' <;> first | rfl | cases hnumber
  apply leafKey_inj ho hw hw' hlt hlt'
  rw [← leafKey_eq hs ho, hat, hsize, hkey]

end Injectivity
end HeapImage
