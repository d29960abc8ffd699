import HeapImage.Proofs.Image.Beginning
import HeapImage.Proofs.Image.Relocation

/-!
# Loading in place

Loading in place agrees with the reader: it refuses what the reader refuses, for the same cause,
and otherwise leaves a memory that shows the graph of the image at its new address. So it comes to
an end without a fault whatever the bytes are.
-/

namespace HeapImage
set_option autoImplicit false

/-- Where the data of a record start that are not references. -/
def Shape.dataStart (s : Shape) : Nat := max s.touched (s.slotRange.1 + 8 * s.slotRange.2)

theorem Record.bounds_of_contents {r : Record} {p : Piece}
    (hp : p ∈ r.shape.contents r.offset) : r.isTerminator = false ∧
      r.offset + r.shape.dataStart ≤ p.start ∧ p.stop ≤ r.offset + r.shape.extent := by
  rw [Record.isTerminator]
  cases hs : r.shape with
  | constructor | byteArray | string =>
    rw [hs] at hp
    obtain rfl := List.mem_singleton.mp hp
    refine ⟨rfl, ?_, ?_⟩ <;>
      simp only [Shape.dataStart, Shape.touched, Shape.slotRange, Shape.extent, Piece.stop] <;>
      omega
  | bigInteger sign length =>
    rw [hs] at hp
    obtain ⟨i, hi, rfl⟩ := List.mem_map.mp hp
    have hlt := List.mem_range.mp hi
    refine ⟨rfl, ?_, ?_⟩ <;>
      simp only [Shape.dataStart, Shape.touched, Shape.slotRange, Shape.extent, Piece.stop,
        Piece.word] <;>
      omega
  | array | thunk | task | promise | mutableRef | terminator =>
    rw [hs] at hp
    cases hp

namespace InPlace

/-- The memory shows an image at a new address: references are moved, and data are as they were. -/
structure Relocated (start base : Nat) (records : List Record) (b memory : Bytes) : Prop where
  size_eq : memory.size = b.size
  word : ∀ slot ∈ records.flatMap Record.slots ++ rootSlots records,
    memory.word slot = movedWord start base (b.word slot)
  data : ∀ r ∈ records, r.isTerminator = false → ∀ i, r.offset + r.shape.dataStart ≤ i →
    i < r.offset + r.size → memory[i]? = b[i]?

section Graphs
variable {start base first : Nat} {records : List Record} {b memory : Bytes} {r : Record}

theorem wordValue_movedWord {word : Nat} (hstart : start % 8 = 0)
    (hmod : ∀ r ∈ records, r.offset % 8 = 0) (h : IsReference base records word) :
    wordValue start first records (movedWord start base word) =
      wordValue base first records word := by
  by_cases hodd : word % 2 = 1
  · rw [movedWord, if_pos hodd, wordValue, wordValue, if_pos hodd, if_pos hodd]
  · obtain ⟨r, hr, _, rfl⟩ := h.resolve_left hodd
    have := hmod r hr
    rw [movedWord, if_neg hodd, wordValue, wordValue, if_neg (by omega), if_neg hodd,
      Nat.add_sub_cancel_left, Nat.add_sub_cancel_left]

theorem movedWord_ne_zero {word : Nat} (htiling : Tiling b base headerSize records)
    (h : IsReference base records word) : movedWord start base word ≠ 0 := by
  by_cases hodd : word % 2 = 1
  · have hne := h.ne_zero htiling
    rwa [movedWord, if_pos hodd]
  · obtain ⟨r, hr, _, rfl⟩ := h.resolve_left hodd
    have hoffset := htiling.le_offset r hr
    simp only [movedWord, if_neg hodd, headerSize] at hoffset ⊢
    omega

theorem Relocated.sameContents (h : Relocated start base records b memory) (hr : r ∈ records)
    (hrecord : IsRecord b base r) : r.SameContents memory b := by
  intro p hp i hi
  have hextent := hrecord.extent_le
  obtain ⟨hobject, hstart, hstop⟩ := Record.bounds_of_contents hp
  have hlow := hi.1
  have hhigh := hi.2
  exact h.data r hr hobject i (by omega) (by omega)

/-- The graph that is found at the new address is the graph of the image. -/
theorem Relocated.imageGraph_eq (h : Relocated start base records b memory)
    (htiling : Tiling b base headerSize records) (hstart : start % 8 = 0)
    (hreferences : ∀ slot ∈ records.flatMap Record.slots ++ rootSlots records,
      IsReference base records (b.word slot)) (first : Nat) :
    imageGraph memory start first records = imageGraph b base first records := by
  have hmem : ∀ r ∈ records, ∀ slot ∈ r.slots,
      slot ∈ records.flatMap Record.slots ++ rootSlots records :=
    fun r hr slot hslot => List.mem_append_left _ (List.mem_flatMap.mpr ⟨r, hr, hslot⟩)
  refine imageGraph_congr (fun r hr => h.sameContents hr (htiling.isRecord r hr)) ?_ ?_ ?_
  · intro r hr slot hslot
    rw [h.word slot (hmem r hr slot hslot)]
    exact movedWord_ne_zero htiling (hreferences slot (hmem r hr slot hslot))
  · intro r hr slot hslot
    exact (hreferences slot (hmem r hr slot hslot)).ne_zero htiling
  intro slot hslot
  rw [h.word slot hslot,
    wordValue_movedWord hstart (htiling.offset_mod rfl) (hreferences slot hslot)]

end Graphs

section References
variable {base : Nat} {records : List Record} {b : Bytes} {r : Record} {slot i : Nat}
variable (h : Tiling b base headerSize records)
include h

/-- In its own record, each reference stands behind what a scan sets. -/
theorem bounds_of_reference (hslot : slot ∈ records.flatMap Record.slots ++ rootSlots records) :
    ∃ r ∈ records, slot ∈ r.shape.references r.offset ∧ r.offset + r.shape.touched ≤ slot ∧
      slot + 8 ≤ r.offset + r.size := by
  rcases List.mem_append.mp hslot with hchild | hroot
  · obtain ⟨r, hr, hmem⟩ := List.mem_flatMap.mp hchild
    have hobject := Record.isTerminator_of_mem_slots hmem
    exact ⟨r, hr, Record.references_of_object hobject ▸ hmem, h.bounds_of_mem_slots hr hmem⟩
  · obtain ⟨r, hr, hterminator, rfl⟩ := mem_rootSlots.mp hroot
    have hextent := (h.isRecord r hr).extent_le
    have hmem := Record.references_of_isTerminator hterminator
    rw [Record.isTerminator, beq_iff_eq] at hterminator
    rw [hterminator] at hextent
    refine ⟨r, hr, hmem ▸ List.mem_cons_self, ?_⟩
    simp only [hterminator, Shape.touched, Shape.extent] at hextent ⊢
    omega

theorem untouched (hr : r ∈ records) (hlow : r.offset + r.shape.touched ≤ i)
    (hhigh : i < r.offset + r.size) :
    ∀ s ∈ records, i < s.offset ∨ s.offset + s.shape.touched ≤ i := by
  intro s hs
  have htouched := s.shape.touched_le
  have hextent := (h.isRecord s hs).extent_le
  rcases h.apart hr hs with rfl | hbefore | hbehind
  · exact .inr hlow
  · exact .inl (by omega)
  · exact .inr (by omega)

theorem slots_apart_rootSlots :
    ∀ x ∈ records.flatMap Record.slots, ∀ y ∈ rootSlots records, x + 8 ≤ y ∨ y + 8 ≤ x := by
  intro x hx y hy
  obtain ⟨r, hr, hmem⟩ := List.mem_flatMap.mp hx
  obtain ⟨s, hs, hterminator, rfl⟩ := mem_rootSlots.mp hy
  have hbounds := h.bounds_of_mem_slots hr hmem
  have hextent := (h.isRecord s hs).extent_le
  have hsize : 16 ≤ s.size := by
    rw [Record.isTerminator, beq_iff_eq] at hterminator
    rw [hterminator] at hextent
    exact hextent
  rcases h.apart hr hs with rfl | hbefore | hbehind
  · rw [Record.slots_of_isTerminator hterminator] at hmem
    cases hmem
  · omega
  · omega

end References

/-- What a scan over records has found, and has left as it is. -/
structure Found (s : Scan) (records : List Record) (b : Bytes) : Prop where
  marks : Marks s.starts records s.memory.size
  slots_eq : s.slots.map (· + 0) = records.flatMap Record.slots
  roots_eq : s.terminators.map (· + 8) = rootSlots records
  size_eq : s.memory.size = b.size
  same : ∀ i, (∀ r ∈ records, i < r.offset ∨ r.offset + r.shape.touched ≤ i) →
    s.memory[i]? = b[i]?

section Fixup
variable {start base : Nat} {records : List Record} {b memory : Bytes} {s : Scan} {slot : Nat}

theorem found_foldl (h : Tiling b base headerSize records) (start : Nat) :
    Found (records.foldl (Scan.add start) (Scan.begin b)) records b where
  marks := by
    rw [Scan.size_memory_foldl]
    exact marks_foldl start h
  slots_eq := (List.map_id _).trans (Scan.slots_foldl start (Scan.begin b) records)
  roots_eq := congrArg (List.map (· + 8)) (Scan.terminators_foldl start (Scan.begin b) records)
  size_eq := Scan.size_memory_foldl _ _ _
  same _ hi := Scan.getElem?_memory_foldl hi

theorem fixup_of_ok {objects : Bytes × List Nat}
    (h : relocateAll s.starts start base 0 s.memory s.slots = .ok objects) :
    s.fixup start base = relocateAll s.starts start base 8 objects.1 s.terminators := by
  change (relocateAll s.starts start base 0 s.memory s.slots >>= _) = _
  rw [h]
  rfl

theorem fixup_of_error {e : Halt}
    (h : relocateAll s.starts start base 0 s.memory s.slots = .error e) :
    s.fixup start base = .error e := by
  change (relocateAll s.starts start base 0 s.memory s.slots >>= _) = _
  rw [h]
  rfl

variable (h : Tiling b base headerSize records) (hs : Found s records b)
include h hs

theorem Found.word (hslot : slot ∈ records.flatMap Record.slots ++ rootSlots records) :
    s.memory.word slot = b.word slot := by
  obtain ⟨r, hr, _, hlow, hhigh⟩ := bounds_of_reference h hslot
  apply Bytes.field_congr
  intro i hle hlt
  exact hs.same i (untouched h hr (by omega) (by omega))

theorem Found.relocated
    (hmoved : Moved start base (records.flatMap Record.slots ++ rootSlots records)
      s.memory memory) :
    Relocated start base records b memory := by
  refine ⟨hmoved.size_eq.trans hs.size_eq, fun slot hslot => ?_, ?_⟩
  · rw [hmoved.word slot hslot, hs.word h hslot]
  · intro r hr hobject i hlow hhigh
    rw [Shape.dataStart] at hlow
    rw [hmoved.same i, hs.same i (untouched h hr (by omega) hhigh)]
    intro slot hslot
    obtain ⟨s, hs, hmem, hstart, hend⟩ := bounds_of_reference h hslot
    rcases h.apart hr hs with rfl | hbefore | hbehind
    · rw [Record.references_of_object hobject] at hmem
      have := Record.bounds_of_mem_slots hmem
      omega
    · omega
    · omega

/-- The fixup fails with the first dangling reference, or relocates the image. -/
theorem Found.fixup_eq (hfits : start + b.size < wordLimit) {causes : List Corruption}
    (hcauses : danglings base records b (records.flatMap Record.slots ++ rootSlots records) =
      causes) :
    match causes with
      | cause :: _ => s.fixup start base = reject cause
      | [] => ∃ memory, s.fixup start base =
          .ok (memory, (rootSlots records).map fun slot => movedWord start base (b.word slot)) ∧
        Relocated start base records b memory := by
  have hmarks := hs.marks
  have hin : ∀ slot ∈ records.flatMap Record.slots ++ rootSlots records, slot + 8 ≤ b.size := by
    intro slot hslot
    obtain ⟨r, hr, _, _, hend⟩ := bounds_of_reference h hslot
    have := (h.isRecord r hr).fits
    omega
  have hobjectsIn : ∀ slot ∈ s.slots.map (· + 0), slot + 8 ≤ s.memory.size := by
    rw [hs.slots_eq, hs.size_eq]
    exact fun slot hslot => hin slot (List.mem_append_left _ hslot)
  rw [← danglings_congr fun slot hslot => hs.word h hslot, danglings_append] at hcauses
  rw [← hs.size_eq] at hfits
  cases hfirst : danglings base records s.memory (records.flatMap Record.slots) with
  | cons cause others =>
    rw [hfirst] at hcauses
    subst hcauses
    exact fixup_of_error (relocateAll_eq hmarks hfits hobjectsIn (hs.slots_eq ▸ h.pairwise_slots)
      (hs.slots_eq ▸ hfirst))
  | nil =>
    rw [hfirst, List.nil_append] at hcauses
    obtain ⟨first, hmove, hmoved⟩ := relocateAll_eq hmarks hfits hobjectsIn
      (hs.slots_eq ▸ h.pairwise_slots) (hs.slots_eq ▸ hfirst)
    rw [hs.slots_eq] at hmoved
    -- By now the objects are moved, so roots are looked up in a memory that has changed.
    have hkept : ∀ slot ∈ rootSlots records, first.word slot = s.memory.word slot :=
      fun slot hslot => hmoved.word_of_apart
        fun x hx => (slots_apart_rootSlots h x hx slot hslot).symm
    rw [← danglings_congr hkept] at hcauses
    rw [← hmoved.size_eq] at hmarks hfits
    have hrootsIn : ∀ slot ∈ s.terminators.map (· + 8), slot + 8 ≤ first.size := by
      rw [hs.roots_eq, hmoved.size_eq, hs.size_eq]
      exact fun slot hslot => hin slot (List.mem_append_right _ hslot)
    have hrest := relocateAll_eq hmarks hfits hrootsIn (hs.roots_eq ▸ h.pairwise_rootSlots)
      (hs.roots_eq ▸ hcauses)
    rw [fixup_of_ok hmove]
    cases causes with
    | cons cause _ => exact hrest
    | nil =>
      obtain ⟨memory, hend, hmovedRoots⟩ := hrest
      rw [hs.roots_eq] at hend hmovedRoots
      refine ⟨memory, ?_, hs.relocated h (hmoved.append hmovedRoots (slots_apart_rootSlots h))⟩
      rw [hend, List.map_congr_left fun slot hslot => congrArg (movedWord start base)
        ((hkept slot hslot).trans (hs.word h (List.mem_append_right _ hslot)))]

end Fixup

section Phases
variable {b : Bytes} {start base : Nat}

theorem checkHeader_eq (b : Bytes) (start declared : Nat) :
    checkHeader b start declared = lift (b.checkHeader declared (start % 8 == 0)) := by
  rw [checkHeader, Bytes.checkHeader]
  have hunaligned : (!start % 8 == 0 || b.size % 8 != 0) = true ↔
      (start % 8 ≠ 0 ∨ b.size % 8 ≠ 0) := by simp
  by_cases hmisaligned : start % 8 ≠ 0 ∨ b.size % 8 ≠ 0
  · rw [if_pos hmisaligned, if_pos (hunaligned.mpr hmisaligned)]
    rfl
  rw [if_neg hmisaligned, if_neg (mt hunaligned.mp hmisaligned)]
  by_cases hshort : b.size < headerSize
  · rw [if_pos hshort, if_pos (by simp [hshort])]
    rfl
  have hheader : 16 ≤ b.size := Nat.le_of_not_lt hshort
  rw [if_neg hshort, readWord_eq (by omega), readWord_eq (by omega)]
  generalize b.word 0 = found
  generalize b.word 8 = stored
  change (if found ≠ magic then _ else if stored % 8 ≠ 0 then _ else _) = _
  have hbad : (decide (b.size < headerSize) || found != magic) = true ↔ found ≠ magic := by
    simp [hshort]
  by_cases hmagic : found ≠ magic
  · rw [if_pos hmagic, if_pos (hbad.mpr hmagic)]
    rfl
  · rw [if_neg hmagic, if_neg (mt hbad.mp hmagic)]
    dsimp only
    by_cases hodd : stored % 8 ≠ 0
    · rw [if_pos hodd, if_pos hodd]
      rfl
    · rw [if_neg hodd, if_neg hodd]
      split <;> rfl

variable (hsize : b.size ≤ sizeLimit) (hfits : start + b.size < wordLimit)
include hsize hfits

theorem reads_begin : (Scan.begin b).Reads b start where
  size_le := hsize
  fits := hfits
  starts := Array.size_replicate
  aligned := (rfl : headerSize % 8 = 0)
  size_eq := rfl
  same _ _ := rfl

/-- A scan finds the records that the reader finds. -/
theorem scan_of_records {records : Array Record} (hheader : headerSize ≤ b.size)
    (h : b.records base = .ok records) :
    scan b start base = .ok (records.toList.foldl (Scan.add start) (Scan.begin b)) := by
  obtain ⟨htiling, r, hlast, hterminator⟩ := Bytes.tiling_of_records hheader h
  have hrun : (Scan.begin b).run start base = _ :=
    Scan.run_of_tiling (reads_begin hsize hfits) htiling
  have hclosed := Scan.closed_foldl start (Scan.begin b) records.toList
  rw [hlast, Option.map_some, Option.getD_some, hterminator] at hclosed
  rw [scan, hrun]
  exact if_pos hclosed

theorem scan_of_error {cause : Corruption} (hheader : headerSize ≤ b.size)
    (h : b.records base = .error cause) : scan b start base = reject cause := by
  have hreads := reads_begin hsize hfits
  unfold Bytes.records at h
  cases hfrom : b.recordsFrom base headerSize #[] with
  | error e =>
    rw [hfrom] at h
    have hrun : (Scan.begin b).run start base = reject e := Scan.run_of_error hreads hfrom
    rw [scan, hrun, Except.error.inj h]
    rfl
  | ok records =>
    obtain ⟨rest, rfl, htiling⟩ := tiling_of_recordsFrom hheader hfrom
    have hrun : (Scan.begin b).run start base = _ := Scan.run_of_tiling hreads htiling
    have hclosed := Scan.closed_foldl start (Scan.begin b) rest
    rw [hfrom, Array.empty_append] at h
    dsimp only at h
    rw [← Array.getLast?_toList] at h
    split at h
    · cases h
    · rename_i hopen
      have hfalse : (rest.getLast?.map Record.isTerminator).getD false = false := by
        cases hlast : rest.getLast? with
        | none => rfl
        | some r => simpa [hlast] using hopen
      rw [scan, hrun, ← Except.error.inj h]
      exact if_neg (by rw [hclosed]; exact Bool.eq_false_iff.mp hfalse)

end Phases

/-- The states that a scan comes to. -/
inductive Reached (memory : Bytes) (start base : Nat) : Scan → Prop where
  | begin : checkHeader memory start base = .ok () → Reached memory start base (Scan.begin memory)
  | round {s next : Scan} : Reached memory start base s → s.offset < s.memory.size →
      s.round start base = .ok next → Reached memory start base next

section Loading
variable {b : Bytes} {start base first : Nat} {declared : UInt64} {s : Scan}

theorem header_of_checkHeader (h : b.checkHeader base (start % 8 == 0) = .ok ()) :
    start % 8 = 0 ∧ headerSize ≤ b.size := by
  obtain ⟨haligned, _, hheader, _⟩ := Bytes.checkHeader_eq_ok_iff.mp h
  exact ⟨beq_iff_eq.mp haligned, hheader⟩

section Headers
variable (hheader : b.checkHeader declared.toNat (start % 8 == 0) = .ok ())
include hheader

theorem load_of_header : load b start declared =
    scan b start declared.toNat >>= fun found => found.fixup start declared.toNat := by
  rw [load, checkHeader_eq, hheader]
  rfl

theorem load_of_scan (hscan : scan b start declared.toNat = .ok s) :
    load b start declared = s.fixup start declared.toNat := by
  rw [load_of_header hheader, hscan]
  rfl

theorem load_of_scan_error {e : Halt} (hscan : scan b start declared.toNat = .error e) :
    load b start declared = .error e := by
  rw [load_of_header hheader, hscan]
  rfl

theorem read_of_header : b.load declared (start % 8 == 0) first =
    b.records declared.toNat >>= resolveAll b declared.toNat first := by
  rw [Bytes.load, hheader]
  rfl

end Headers

variable (hsize : b.size ≤ sizeLimit) (hfits : start + b.size < wordLimit)
include hsize hfits

theorem load_of_error {cause : Corruption}
    (h : b.load declared (start % 8 == 0) first = .error cause) :
    load b start declared = .error (.corrupt cause) := by
  cases hheader : b.checkHeader declared.toNat (start % 8 == 0) with
  | error e =>
    rw [Bytes.load, hheader] at h
    rw [load, checkHeader_eq, hheader, ← Except.error.inj h]
    rfl
  | ok =>
    obtain ⟨_, hle⟩ := header_of_checkHeader hheader
    rw [read_of_header hheader] at h
    cases hrecords : b.records declared.toNat with
    | error e =>
      rw [hrecords] at h
      rw [← Except.error.inj h]
      exact load_of_scan_error hheader (scan_of_error hsize hfits hle hrecords)
    | ok records =>
      rw [hrecords] at h
      have htiling := (Bytes.tiling_of_records hle hrecords).1
      obtain ⟨others, hcauses⟩ := danglings_of_error htiling h
      rw [load_of_scan hheader (scan_of_records hsize hfits hle hrecords)]
      exact (found_foldl htiling start).fixup_eq htiling hfits hcauses

/-- What the reader accepts is relocated, each root as well. -/
theorem exists_relocated {g : ImageGraph} (h : b.load declared (start % 8 == 0) first = .ok g) :
    ∃ memory records, load b start declared = .ok (memory, (rootSlots records).map fun slot =>
        movedWord start declared.toNat (b.word slot)) ∧
      start % 8 = 0 ∧ IsImage b declared.toNat records ∧
      imageGraph b declared.toNat first records = g ∧
      Relocated start declared.toNat records b memory := by
  obtain ⟨_, hheader, records, hrecords, hresolve⟩ :
      ∃ _, b.checkHeader declared.toNat (start % 8 == 0) = .ok () ∧ ∃ records,
        b.records declared.toNat = .ok records ∧
          resolveAll b declared.toNat first records = .ok g := by
    simpa only [Bytes.load, bind_eq_ok_iff] using h
  obtain ⟨hstart, hle⟩ := header_of_checkHeader hheader
  obtain ⟨_, haligned, _, hmagic, hbase, hbaseAligned⟩ := Bytes.checkHeader_eq_ok_iff.mp hheader
  obtain ⟨htiling, hclosed⟩ := Bytes.tiling_of_records hle hrecords
  obtain ⟨hreferences, hgraph⟩ := (resolveAll_eq_ok_iff htiling).mp hresolve
  have himage : IsImage b declared.toNat records.toList :=
    ⟨haligned, hle, hmagic, hbase, hbaseAligned, htiling, hclosed, hreferences⟩
  have hcauses := danglings_of_ok htiling hresolve
  obtain ⟨memory, hfixup, hrelocated⟩ :=
    (found_foldl htiling start).fixup_eq htiling hfits hcauses
  rw [← load_of_scan hheader (scan_of_records hsize hfits hle hrecords)] at hfixup
  exact ⟨memory, records.toList, hfixup, hstart, himage, hgraph.symm, hrelocated⟩

/-- What the reader accepts is relocated, and its roots are the words that are returned. -/
theorem load_of_ok {g : ImageGraph} (h : b.load declared (start % 8 == 0) first = .ok g) :
    ∃ memory roots records, load b start declared = .ok (memory, roots) ∧
      memory.size = b.size ∧ IsImage b declared.toNat records ∧
      imageGraph memory start first records = g ∧
      roots.map (wordValue start first records) = g.roots.toList := by
  obtain ⟨memory, records, hload, hstart, himage, rfl, hrelocated⟩ :=
    exists_relocated hsize hfits h
  have htiling := himage.tiling
  have hall : ∀ slot ∈ records.flatMap Record.slots ++ rootSlots records,
      IsReference declared.toNat records (b.word slot) := by
    intro slot hslot
    obtain ⟨r, hr, hmem, _⟩ := bounds_of_reference htiling hslot
    exact himage.references r hr slot hmem
  refine ⟨memory, _, records, hload, hrelocated.size_eq, himage,
    hrelocated.imageGraph_eq htiling hstart hall first, ?_⟩
  rw [toList_roots_imageGraph, List.map_map]
  apply List.map_congr_left
  intro slot hslot
  rw [Function.comp_apply, wordValue_movedWord hstart (htiling.offset_mod rfl)
    (hall slot (List.mem_append_right _ hslot))]

/-- Whatever state a scan comes to, it still reads the bytes, and is inside of them. -/
theorem Reached.reads (h : Reached b start base s) : s.Reads b start ∧ s.offset ≤ b.size := by
  induction h with
  | begin hheader =>
    rw [checkHeader_eq] at hheader
    cases hchecked : b.checkHeader base (start % 8 == 0) with
    | error e =>
      rw [hchecked] at hheader
      cases hheader
    | ok => exact ⟨reads_begin hsize hfits, (header_of_checkHeader hchecked).2⟩
  | round _ hlt hround ih =>
    obtain ⟨hreads, _⟩ := ih
    rw [hreads.size_eq] at hlt
    rcases hreads.round_cases hlt base with ⟨cause, hrefused⟩ | ⟨r, hrecord, hoffset, hpassed⟩
    · rw [hrefused] at hround
      cases hround
    · rw [hpassed] at hround
      rw [← Except.ok.inj hround]
      exact ⟨hreads.add hrecord hoffset, hrecord.fits⟩

/-- Each round is refused, or goes on by some words and stays inside of the memory. -/
theorem Reached.round_advances (h : Reached b start base s) (hlt : s.offset < s.memory.size) :
    (∃ cause, s.round start base = .error (.corrupt cause)) ∨
      ∃ next k, s.round start base = .ok next ∧ 0 < k ∧ next.offset = s.offset + 8 * k ∧
        next.offset ≤ b.size ∧ next.memory.size = b.size := by
  obtain ⟨hreads, _⟩ := h.reads hsize hfits
  rw [hreads.size_eq] at hlt
  rcases hreads.round_cases hlt base with hrefused | ⟨r, hrecord, hoffset, hpassed⟩
  · exact .inl hrefused
  · have hpos := hrecord.size_pos
    have hmod := hrecord.size_mod
    refine .inr ⟨_, r.size / 8, hpassed, by omega, ?_, hrecord.fits,
      (hreads.add hrecord hoffset).size_eq⟩
    change r.offset + r.size = _
    omega

end Loading

/-- Loading in place has no faults. It comes to the same end as the reader for all bytes, declared
base addresses and load addresses, as long as the memory ends at an address; and each round of its
scan goes on by some words inside of the memory. -/
theorem load_faultless (b : Bytes) (start : Nat) (declared : UInt64) (first : Nat)
    (hsize : b.size ≤ sizeLimit) (hfits : start + b.size < wordLimit) :
    (match b.load declared (start % 8 == 0) first with
      | .error cause => load b start declared = .error (.corrupt cause)
      | .ok g => ∃ memory roots records, load b start declared = .ok (memory, roots) ∧
          memory.size = b.size ∧ IsImage b declared.toNat records ∧
          imageGraph memory start first records = g ∧
          roots.map (wordValue start first records) = g.roots.toList) ∧
      ∀ s, Reached b start declared.toNat s → s.offset < s.memory.size →
        (∃ cause, s.round start declared.toNat = .error (.corrupt cause)) ∨
          ∃ next k, s.round start declared.toNat = .ok next ∧ 0 < k ∧
            next.offset = s.offset + 8 * k ∧ next.offset ≤ b.size ∧ next.memory.size = b.size := by
  refine ⟨?_, fun s hreached hlt => hreached.round_advances hsize hfits hlt⟩
  generalize hread : b.load declared (start % 8 == 0) first = outcome
  cases outcome with
  | error cause => exact load_of_error hsize hfits hread
  | ok g => exact load_of_ok hsize hfits hread

set_option maxRecDepth 4096 in
/-- The knot can be loaded at another address than it was written for. -/
theorem knot_in_place : knot.size ≤ sizeLimit ∧ 65536 + knot.size < wordLimit ∧
    (∃ memory roots records, load knot 65536 4096 = .ok (memory, roots) ∧
      imageGraph memory 65536 0 records =
        ⟨#[.constructor 7 #[.object 0, .object 1] #[1, 2, 3], .string #[104, 105]], #[.object 0]⟩ ∧
      roots.map (wordValue 65536 0 records) = [.object 0]) ∧
    Reached knot 65536 4096 (Scan.begin knot) ∧
    ∃ next k, (Scan.begin knot).round 65536 4096 = .ok next ∧ 0 < k ∧
      next.offset = 16 + 8 * k ∧ next.offset ≤ knot.size := by
  have hsize : knot.size ≤ sizeLimit := by decide
  have hfits : 65536 + knot.size < wordLimit := by decide
  have hreached : Reached knot 65536 4096 (Scan.begin knot) := .begin (by cbv)
  have hlt : (Scan.begin knot).offset < (Scan.begin knot).memory.size := by decide
  have hpasses : ((Scan.begin knot).round 65536 4096).isOk = true := by cbv
  obtain ⟨hloaded, hrounds⟩ := load_faultless knot 65536 4096 0 hsize hfits
  rw [show (65536 % 8 == 0) = true from rfl, load_knot] at hloaded
  obtain ⟨memory, roots, records, hload, _, _, hgraph, hroots⟩ := hloaded
  refine ⟨hsize, hfits, ⟨memory, roots, records, hload, hgraph, hroots⟩, hreached, ?_⟩
  rcases hrounds _ hreached hlt with ⟨cause, hrefused⟩ | ⟨next, k, hpassed, hk, hoffset, hle, _⟩
  · rw [show (4096 : UInt64).toNat = 4096 from rfl] at hrefused
    rw [hrefused] at hpasses
    cases hpasses
  · exact ⟨next, k, hpassed, hk, hoffset, hle⟩

end InPlace
end HeapImage
