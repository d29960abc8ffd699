import HeapImage.Proofs.Blanks
import HeapImage.Proofs.Programs
import HeapImage.Proofs.Writer.Buckets

/-!
# Tables and their image

Between two calls a writer's tables say nothing but what its image says too. An object that was
copied is mapped to a record of its kind, and the table of leaves lists the leaf records, each in
the bucket of its hash. This holds whatever calls have failed, and for all hashes.
-/

namespace HeapImage
set_option autoImplicit false

namespace Shape

def isLeaf : Shape → Bool
  | byteArray .. | string _ | bigInteger .. => true
  | _ => false

/-- Where the contents start that decide whether two leaf records are equal. -/
def contentsAt : Shape → Nat
  | bigInteger .. => 16
  | _ => 8

end Shape

namespace Object
variable {ρ : Type}

theorem isLeaf_shape (o : Object ρ) : o.shape.isLeaf = o.isLeaf := by
  cases o <;> rfl

theorem contentsAt_shape (o : Object ρ) : o.shape.contentsAt = o.contentsAt := by
  cases o <;> rfl

end Object

namespace Writer

/-- The tables of a writer are those of its image. Nothing is left of a call; every entry of an
object refers to a record of its kind; and the leaf records stand in the buckets of their hashes,
in order, with no two that hold the same. -/
structure Mirrors (w : Writer) (hash : ContentHash) (h : Heap) (records : List Record) : Prop where
  todo : w.todo = []
  newCopies : w.newCopies = []
  newLeaves : w.newLeaves = []
  copied : ∀ id word : Nat, w.copied[id]? = some word → id < h.size ∧
    ∃ r ∈ objectRecords records, word = w.base.toNat + r.offset ∧
      Kind.ofTag? (w.data.tagAt r.offset) = some (h.kind (.object id))
  leaves : w.sharing = true → ∀ (key : UInt64) leaf, leaf ∈ w.leaves.getD key [] ↔
    ∃ r ∈ records, r.shape.isLeaf = true ∧ leaf = ⟨r.offset, r.size⟩ ∧
      hash (w.buffer.leafKey r.offset r.shape.contentsAt r.size) = key
  buckets : ∀ (key : UInt64) bucket, w.leaves[key]? = some bucket → bucket ≠ [] ∧
    bucket.Pairwise fun first second => first.offset < second.offset
  distinct : w.sharing = true → ∀ r ∈ records, ∀ s ∈ records, r.shape.isLeaf = true →
    r.object? w.data = s.object? w.data → r = s
  unshared : w.sharing = false → w.leaves = ∅

section Layouts
variable {w : Writer} {hash : ContentHash} {orig : Nat → Object Value} {layout : List Entry}
variable {f : Nat → Nat} {holes : List Hole} {r s : Record}

theorem Laid.exists_of_isLeaf (hr : r ∈ recordsOf headerSize layout)
    (hleaf : r.shape.isLeaf = true) : ∃ owner o, o.isLeaf = true ∧
      (r.offset, .object owner o) ∈ placed headerSize layout ∧
      r = (Entry.object owner o).record r.offset := by
  obtain ⟨off, e, he, rfl⟩ := mem_recordsOf.mp hr
  cases e with
  | terminator root => cases hleaf
  | object owner o => exact ⟨owner, o, o.isLeaf_shape.symm.trans hleaf, he, rfl⟩

theorem Laid.leafKey_record (hl : Laid w hash orig layout f holes) {off owner : Nat}
    {o : Object Value} (h : (off, .object owner o) ∈ placed headerSize layout)
    (hleaf : o.isLeaf = true) :
    w.buffer.leafKey off o.shape.contentsAt (roundUp o.extent) = o.leafKey := by
  rw [Object.contentsAt_shape]
  exact leafKey_eq (shows_of_mem_placed (shows_layout hl.data_eq) h) hleaf

theorem Laid.mem_leaves_iff (hl : Laid w hash orig layout f holes) (hs : w.sharing = true)
    (key : UInt64) (leaf : LeafRecord) : leaf ∈ w.leaves.getD key [] ↔
      ∃ r ∈ recordsOf headerSize layout, r.shape.isLeaf = true ∧ leaf = ⟨r.offset, r.size⟩ ∧
        hash (w.buffer.leafKey r.offset r.shape.contentsAt r.size) = key := by
  rw [hl.leaves hs]
  constructor
  · rintro ⟨owner, o, hmem, hleaf, hsize, hkey⟩
    refine ⟨_, mem_recordsOf.mpr ⟨_, _, hmem, rfl⟩, o.isLeaf_shape.trans hleaf, ?_, ?_⟩
    · change leaf = ⟨leaf.offset, roundUp o.extent⟩
      rw [← hsize]
    · exact (congrArg hash (hl.leafKey_record hmem hleaf)).trans hkey
  · rintro ⟨r, hr, hleaf, rfl, hkey⟩
    obtain ⟨owner, o, ho, hmem, hrecord⟩ := Laid.exists_of_isLeaf hr hleaf
    refine ⟨owner, o, hmem, ho, congrArg Record.size hrecord, ?_⟩
    rw [hrecord] at hkey
    exact (congrArg hash (hl.leafKey_record hmem ho)).symm.trans hkey

theorem Laid.eq_of_object?_eq (hl : Laid w hash orig layout f []) (hs : w.sharing = true)
    (hr : r ∈ recordsOf headerSize layout) (hr' : s ∈ recordsOf headerSize layout)
    (hleaf : r.shape.isLeaf = true) (heq : r.object? w.data = s.object? w.data) : r = s := by
  obtain ⟨owner, o, ho, hmem, hrecord⟩ := Laid.exists_of_isLeaf hr hleaf
  obtain ⟨raw, hraw, hmap⟩ := hl.object?_eq hmem
  rw [← hrecord, heq] at hraw
  obtain ⟨off, e, he, rfl⟩ := mem_recordsOf.mp hr'
  cases e with
  | terminator root => cases hraw
  | object owner' o' =>
    obtain ⟨raw', hraw', hmap'⟩ := hl.object?_eq he
    rw [hraw] at hraw'
    obtain rfl := Option.some.inj hraw'
    cases Object.map_inj_of_isLeaf ho (hmap.symm.trans hmap')
    have hoff := hl.distinct hs r.offset off owner owner' o hmem he ho
    rw [hrecord, hoff]
    rfl

/-- An object that was copied is mapped to a record of the kind that it had. -/
theorem Laid.exists_record_of_kind (hl : Laid w hash orig layout f []) {id word : Nat}
    (hc : w.copied[id]? = some word) : ∃ r ∈ objectRecords (recordsOf headerSize layout),
      word = w.base.toNat + r.offset ∧
      Kind.ofTag? (w.data.tagAt r.offset) = some (orig id).kind := by
  obtain ⟨off, owner, hword, hmem, _⟩ := hl.copied id word hc
  have hr := mem_recordsOf.mpr ⟨off, _, hmem, rfl⟩
  obtain ⟨raw, hraw, hmap⟩ := hl.object?_eq hmem
  have hkind := congrArg Object.kind hmap
  rw [Object.kind_map, Object.kind_map] at hkind
  refine ⟨_, mem_objectRecords.mpr ⟨hr, isTerminator_object _ _ _⟩, hword, ?_⟩
  rw [Record.kind_object (hl.tiling.isRecord _ hr) hraw, hkind]

end Layouts

end Writer

section Programs
variable {c : WriterConfig} {w w' : Writer} {h h' : Heap} {hash : ContentHash}
variable {actions : List Action}

/-- Whatever a program does, between two calls the tables of its writer mirror the image. -/
theorem tables_mirror_image (hcreate : Writer.create? c = .ok w) (hh : h.WellFormed)
    (hactions : Action.AllFit hash (h, w) actions)
    (hrun : Action.runAll hash (h, w) actions = (h', w')) :
    w'.base = c.base ∧ w'.sharing = c.sharing ∧
      ∃ records, Tiling w'.data w'.base.toNat headerSize records ∧
        w'.Mirrors hash h' records := by
  obtain ⟨orig, layout, f, hl, hrelates, _⟩ := exists_laid_runAll hcreate hh hactions hrun
  obtain ⟨hbase, hsharing⟩ := settings_runAll hcreate hrun
  have hstart := Writer.atRest_of_create? hcreate
  have hrest := hstart.calls hash (Action.calls hash (h, w) actions)
  have hascending := (Writer.Ascending.create? hcreate).calls hstart hash
    (Action.calls hash (h, w) actions)
  rw [Action.writer_of_runAll hrun] at hrest hascending
  refine ⟨hbase, hsharing, _, hl.tiling, ?_⟩
  constructor
  case todo => exact hrest.todo
  case newCopies => exact hrest.newCopies
  case newLeaves => exact hrest.newLeaves
  case copied =>
    intro id word hc
    obtain ⟨hid, hkind⟩ := hrelates _ Heap.kept_kind id word hc
    obtain ⟨r, hr, hword, htag⟩ := hl.exists_record_of_kind hc
    exact ⟨hid, r, hr, hword, htag.trans (congrArg some hkind)⟩
  case leaves => exact fun hs => hl.mem_leaves_iff hs
  case buckets =>
    intro key bucket hbucket
    refine ⟨fun hnil => hrest.buckets key (hnil ▸ hbucket), ?_⟩
    have hascends := hascending.ascending key
    rwa [Std.ExtTreeMap.getD_eq_getD_getElem?, hbucket] at hascends
  case distinct => exact fun hs r hr s hr' => hl.eq_of_object?_eq hs hr hr'
  case unshared => exact hascending.unshared

end Programs

/-- Two strings, and an array of the first one and a promise. -/
def stringsHeap : Heap :=
  ⟨#[⟨.string #[104], false⟩, ⟨.string #[105], false⟩, ⟨.promise none, false⟩,
    ⟨.array #[.object 0, .object 2], false⟩]⟩

/-- The array fails after its string was copied; then the strings are written. -/
def stringsActions : List Action := [.compact (.object 3), .compact (.object 1), .compact (.object 0)]

set_option maxRecDepth 4096 in
/-- With one hash for all, the two strings stand in one bucket. -/
theorem strings_mirrored :
    (Action.runAll (fun _ => 0) (stringsHeap, Writer.start {}) stringsActions).2.leaves.getD 0 [] =
        [⟨16, 24⟩, ⟨56, 24⟩] ∧
      ∃ records, (Action.runAll (fun _ => 0) (stringsHeap, Writer.start {})
        stringsActions).2.Mirrors (fun _ => 0) stringsHeap records := by
  have hsize : stringsHeap.size = 4 := rfl
  have hheap : stringsHeap.WellFormed := by
    refine ⟨fun id hid => ?_, fun id hid => ?_⟩
    · have hcases : id = 0 ∨ id = 1 ∨ id = 2 ∨ id = 3 := by omega
      rcases hcases with rfl | rfl | rfl | rfl <;> trivial
    · revert id
      decide
  have hfit : Action.AllFit (fun _ => 0) (stringsHeap, Writer.start {}) stringsActions :=
    ⟨show 3 < 4 by decide, show 1 < 4 by decide, show 0 < 4 by decide, trivial⟩
  obtain ⟨_, _, records, _, hmirrors⟩ := tables_mirror_image (c := {}) rfl hheap hfit rfl
  exact ⟨by cbv, records, hmirrors⟩

end HeapImage
