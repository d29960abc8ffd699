import HeapImage.Proofs.LimbInteger.Canonical
import HeapImage.Proofs.Programs
import HeapImage.Proofs.Rebasing

/-!
# Integers of a program

A program makes integers from signs and limbs, and some of them are written. Whatever else it does,
an integer stays what it was made, and two of them are equal, or share a record, if and only if they
denote the same number.
-/

namespace HeapImage
set_option autoImplicit false

namespace Action
variable {hash : ContentHash} {s : Heap × Writer} {actions : List Action} {id : Nat}

theorem object_run_of_isLeaf (hash : ContentHash) (hid : id < s.1.size)
    (hleaf : (s.1.object id).isLeaf = true) (action : Action) : id < (action.run hash s).1.size ∧
      (action.run hash s).1.object id = s.1.object id := by
  cases action with
  | update u => exact ⟨hid.trans_le (s.1.size_le_update u), Heap.object_update_of_isLeaf hid hleaf u⟩
  | compact root => exact ⟨hid, rfl⟩

theorem object_runAll_of_isLeaf (hash : ContentHash) (hid : id < s.1.size)
    (hleaf : (s.1.object id).isLeaf = true) (actions : List Action) :
    (runAll hash s actions).1.object id = s.1.object id := by
  induction actions generalizing s with
  | nil => rfl
  | cons action rest ih =>
    obtain ⟨hid', hobject⟩ := object_run_of_isLeaf hash hid hleaf action
    rw [← hobject] at hleaf ⊢
    exact ih hid' hleaf

/-- An action of the program makes an integer from a sign and limbs, and the integer gets a number. -/
def Makes (hash : ContentHash) (s : Heap × Writer) (actions : List Action) (negative : Bool)
    (limbs : List UInt64) (id : Nat) : Prop :=
  ∃ earlier later, actions = earlier ++ .update (.bigInteger negative limbs) :: later ∧
    id = (runAll hash s earlier).1.size

/-- What was made is there in the end, in its canonical form. -/
theorem Makes.object_eq {negative : Bool} {limbs : List UInt64}
    (hmakes : Makes hash s actions negative limbs id) :
    (runAll hash s actions).1.object id = .bigInteger (.ofLimbs negative limbs) := by
  obtain ⟨earlier, later, rfl, rfl⟩ := hmakes
  rw [runAll_append]
  generalize runAll hash s earlier = t
  obtain ⟨h, w⟩ := t
  have hobject : (h.update (.bigInteger negative limbs)).object h.size =
      .bigInteger (.ofLimbs negative limbs) :=
    congrArg Heap.Entry.object (Heap.entry_alloc_self h _)
  have hlt : h.size < (h.update (.bigInteger negative limbs)).size := by
    rw [Heap.update, Heap.bigInteger, Heap.size_alloc]
    exact Nat.lt_succ_self _
  have hleaf : ((h.update (.bigInteger negative limbs)).object h.size).isLeaf = true := by
    rw [hobject]
    rfl
  exact (object_runAll_of_isLeaf hash (s := (_, w)) hlt hleaf later).trans hobject

end Action

namespace Writer

/-- The record that the stored reference of an object refers to. -/
def StoredIn (w : Writer) (id : Nat) (r : Record) : Prop :=
  ∃ records, Tiling w.data w.base.toNat headerSize records ∧ r ∈ records ∧
    w.copied[id]? = some (w.base.toNat + r.offset)

section Records
variable {w : Writer} {hash : ContentHash} {orig : Nat → Object Value} {layout : List Entry}
variable {f : Nat → Nat} {holes : List Hole} {id other : Nat} {r r' : Record}

theorem Laid.exists_storedIn (hl : Laid w hash orig layout f holes) {word : Nat}
    (hc : w.copied[id]? = some word) : ∃ r, w.StoredIn id r := by
  obtain ⟨off, owner, rfl, hmem, _⟩ := hl.copied id word hc
  exact ⟨_, _, hl.tiling, mem_recordsOf.mpr ⟨off, _, hmem, rfl⟩, hc⟩

theorem Laid.exists_of_storedIn (hl : Laid w hash orig layout f holes) (hr : w.StoredIn id r) :
    ∃ owner, (r.offset, .object owner (orig id)) ∈ placed headerSize layout ∧
      r = (Entry.object owner (orig id)).record r.offset ∧
      w.CopiedAt orig layout id r.offset := by
  obtain ⟨records, htiling, hmem, hc⟩ := hr
  obtain rfl := htiling.unique hl.size_lt hl.tiling
  obtain ⟨off, e, he, rfl⟩ := mem_recordsOf.mp hmem
  obtain ⟨off', owner, hword, hmem', howner⟩ := hl.copied id _ hc
  obtain rfl : off = off' := Nat.add_left_cancel hword
  obtain rfl := eq_of_mem_placed he hmem'
  exact ⟨owner, he, rfl, hc, owner, he, howner⟩

theorem Laid.storedIn_eq_iff (hl : Laid w hash orig layout f holes) (hr : w.StoredIn id r)
    (hr' : w.StoredIn other r') : r = r' ↔ r.offset = r'.offset := by
  obtain ⟨owner, hmem, hrecord, _⟩ := hl.exists_of_storedIn hr
  obtain ⟨owner', hmem', hrecord', _⟩ := hl.exists_of_storedIn hr'
  constructor
  · exact congrArg Record.offset
  · intro heq
    rw [← heq] at hmem' hrecord'
    rw [hrecord, hrecord', eq_of_mem_placed hmem hmem']

/-- If leaves are shared, equal ones are stored in one record, and others are not. -/
theorem Laid.storedIn_eq_iff_of_isLeaf (hl : Laid w hash orig layout f holes)
    (hs : w.sharing = true) (hleaf : (orig id).isLeaf = true) (hr : w.StoredIn id r)
    (hr' : w.StoredIn other r') : r = r' ↔ orig id = orig other := by
  obtain ⟨_, _, _, hat⟩ := hl.exists_of_storedIn hr
  obtain ⟨_, _, _, hat'⟩ := hl.exists_of_storedIn hr'
  rw [hl.storedIn_eq_iff hr hr']
  by_cases hne : id = other
  · subst hne
    exact iff_of_true (Nat.add_left_cancel (Option.some.inj (hat.1.symm.trans hat'.1))) rfl
  · rw [hl.eq_iff_of_copiedAt hat hat' hne]
    exact ⟨fun h => h.2.2, fun h => ⟨hs, hleaf, h⟩⟩

theorem Laid.object?_of_storedIn (hl : Laid w hash orig layout f holes) {x : LimbInteger}
    (hx : orig id = .bigInteger x) (hr : w.StoredIn id r) :
    r.object? w.data = some (.bigInteger x) := by
  obtain ⟨owner, hmem, hrecord, _⟩ := hl.exists_of_storedIn hr
  rw [hx] at hmem hrecord
  have hvalid := hl.valid _ (mem_of_mem_placed hmem)
  have hshows := shows_of_mem_placed (shows_layout hl.data_eq) hmem
  -- A leaf has no references, so it does not matter how they would be read.
  have hslots : ∀ slot v, (slot, v) ∈ (Entry.object owner (.bigInteger x)).slots r.offset →
      wordValue 0 0 [] (w.data.word slot) = v.mapId fun id => id := by
    intro slot v hv
    obtain ⟨i, hchild, _⟩ := Entry.mem_slots.mp hv
    cases hchild
  obtain ⟨raw, hraw, hmap⟩ := object?_record hvalid.1 hvalid.2 hshows nofun hslots
  rw [hrecord, hraw, Object.eq_of_map_eq_bigInteger hmap]

end Records

end Writer

section Programs
variable {c : WriterConfig} {w w' : Writer} {h h' : Heap} {hash : ContentHash}
variable {actions : List Action}
variable (hcreate : Writer.create? c = .ok w) (hh : h.WellFormed)
variable (hactions : Action.AllFit hash (h, w) actions)
variable (hrun : Action.runAll hash (h, w) actions = (h', w'))
include hcreate hh hactions hrun

/-- Integers that a program makes are canonical and denote what they were made from, however they
are looked at: alone, compared in the heap, or by the records in which they are stored. -/
theorem made_integers :
    (∀ negative limbs id, Action.Makes hash (h, w) actions negative limbs id →
      ∃ x, h'.object id = .bigInteger x ∧ x.Canonical ∧
        x.toInt = (LimbInteger.mk negative limbs).toInt ∧
        (x.isZero = true ↔ (LimbInteger.mk negative limbs).toInt = 0) ∧
        ∀ r, w'.StoredIn id r → r.object? w'.data = some (.bigInteger x)) ∧
    (∀ id, .object id ∈ (w.accepted hash (Action.calls hash (h, w) actions)).map Prod.fst →
      ∃ r, w'.StoredIn id r) ∧
    ∀ negative limbs id negative' limbs' id',
      Action.Makes hash (h, w) actions negative limbs id →
      Action.Makes hash (h, w) actions negative' limbs' id' →
      (h'.structurallyEqual (.object id) (.object id') = true ↔
        (LimbInteger.mk negative limbs).toInt = (LimbInteger.mk negative' limbs').toInt) ∧
      (c.sharing = true → ∀ r r', w'.StoredIn id r → w'.StoredIn id' r' → (r = r' ↔
        (LimbInteger.mk negative limbs).toInt = (LimbInteger.mk negative' limbs').toInt)) := by
  obtain ⟨orig, layout, f, hl, hrelates, hroots⟩ :=
    exists_laid_runAll hcreate hh hactions hrun
  have hsharing := (settings_runAll hcreate hrun).2
  have hkeeps := hrelates _ Heap.kept_leaf
  have hmade : ∀ {negative limbs id}, Action.Makes hash (h, w) actions negative limbs id →
      h'.object id = .bigInteger (.ofLimbs negative limbs) := by
    intro negative limbs id hmakes
    have hobject := hmakes.object_eq
    rwa [hrun] at hobject
  have hcopied : ∀ {negative limbs id r}, Action.Makes hash (h, w) actions negative limbs id →
      w'.StoredIn id r → orig id = .bigInteger (.ofLimbs negative limbs) := by
    rintro negative limbs id r hmakes ⟨_, _, _, hc⟩
    rw [← hmade hmakes]
    exact (hkeeps id _ hc).2 (by rw [hmade hmakes]; rfl)
  have hequal : ∀ negative limbs negative' limbs',
      Object.bigInteger (ρ := Value) (.ofLimbs negative limbs) =
        .bigInteger (.ofLimbs negative' limbs') ↔
      (LimbInteger.mk negative limbs).toInt = (LimbInteger.mk negative' limbs').toInt := by
    intro negative limbs negative' limbs'
    rw [Object.bigInteger.injEq, (LimbInteger.canonical_ofLimbs _ _).eq_iff
      (LimbInteger.canonical_ofLimbs _ _), LimbInteger.toInt_ofLimbs, LimbInteger.toInt_ofLimbs]
  refine ⟨?_, ?_, ?_⟩
  · intro negative limbs id hmakes
    have hcanonical := LimbInteger.canonical_ofLimbs negative limbs
    have hdenotes := LimbInteger.toInt_ofLimbs negative limbs
    refine ⟨_, hmade hmakes, hcanonical, hdenotes, ?_, fun r hr => ?_⟩
    · rw [hcanonical.isZero_iff, hdenotes]
    · exact hl.object?_of_storedIn (hcopied hmakes hr) hr
  · intro id hroot
    obtain ⟨word, hc⟩ := hroots id hroot
    exact hl.exists_storedIn hc
  · intro negative limbs id negative' limbs' id' hmakes hmakes'
    constructor
    · rw [Heap.structurallyEqual_iff_of_isLeaf (by rw [hmade hmakes]; rfl), hmade hmakes,
        hmade hmakes', hequal]
    · intro hs r r' hr hr'
      have hleaf : (orig id).isLeaf = true := by
        rw [hcopied hmakes hr]
        rfl
      rw [hl.storedIn_eq_iff_of_isLeaf (hsharing.trans hs) hleaf hr hr', hcopied hmakes hr,
        hcopied hmakes' hr', hequal]

end Programs

/-- Five is made twice, the second time with a zero limb on top, and both are written. -/
def fiveActions : List Action :=
  [.update (.bigInteger false [5]), .update (.bigInteger false [5, 0]), .compact (.object 0),
    .compact (.object 1)]

/-- Both are written as one record. -/
theorem fives_shared : ∃ h' w' r,
    Action.runAll fingerprint (.empty, Writer.start {}) fiveActions = (h', w') ∧
      w'.StoredIn 0 r ∧ w'.StoredIn 1 r ∧ r.object? w'.data = some (.bigInteger ⟨false, [5]⟩) := by
  have hempty : Heap.empty.WellFormed := Heap.Made.empty.wellFormed
  have hfit : Action.AllFit fingerprint (.empty, Writer.start {}) fiveActions :=
    ⟨trivial, trivial, show 0 < 2 by decide, show 1 < 2 by decide, trivial⟩
  obtain ⟨hmade, hstored, hequal⟩ := made_integers (c := {}) rfl hempty hfit rfl
  have haccepted : ((Writer.start {}).accepted fingerprint
      (Action.calls fingerprint (.empty, Writer.start {}) fiveActions)).map Prod.fst =
      [.object 0, .object 1] := by cbv
  rw [haccepted] at hstored
  have hfirst : Action.Makes fingerprint (.empty, Writer.start {}) fiveActions false [5] 0 :=
    ⟨[], _, rfl, rfl⟩
  have hsecond : Action.Makes fingerprint (.empty, Writer.start {}) fiveActions false [5, 0] 1 :=
    ⟨[.update (.bigInteger false [5])], _, rfl, rfl⟩
  obtain ⟨r, hr⟩ := hstored 0 (by simp)
  obtain ⟨r', hr'⟩ := hstored 1 (by simp)
  obtain rfl := ((hequal _ _ _ _ _ _ hfirst hsecond).2 rfl r r' hr hr').mpr (by decide)
  obtain ⟨x, hx, _, _, _, hrecord⟩ := hmade _ _ _ hfirst
  have hfive : (Action.runAll fingerprint (.empty, Writer.start {}) fiveActions).1.object 0 =
      .bigInteger ⟨false, [5]⟩ := by cbv
  obtain rfl := Object.bigInteger.inj (hx.symm.trans hfive)
  exact ⟨_, _, r, rfl, hr, hr', hrecord r hr⟩

end HeapImage
