import HeapImage.Proofs.Disk.Serving
import HeapImage.Proofs.Image.Beginning
import HeapImage.Proofs.Image.Causes
import HeapImage.Proofs.Image.Loaded
import HeapImage.Proofs.Lifecycle
import HeapImage.Proofs.RoundTrip
import HeapImage.Proofs.Writer.History
import HeapImage.Storage

/-!
# Images in mapped files

A file is looked at twice when it is mapped: first its header is read, and the pages are mapped only
if it starts like an image. Still the outcome is the one of loading a copy of the bytes, declared
for the base address that they state themselves. The file itself is never changed, neither when
references are replaced in the mapped memory nor when it is given up.
-/

namespace HeapImage
set_option autoImplicit false

namespace Writer
variable {w : Writer} {hash : ContentHash} {c : WriterConfig}

theorem Reached.grownFrom (hw : Reached hash c w) :
    ∃ w₀, create? c = .ok w₀ ∧ w.GrownFrom w₀ := by
  induction hw with
  | create hw => exact ⟨_, hw, .refl _⟩
  | compact h root hw ih =>
    obtain ⟨w₀, hcreate, hgrown⟩ := ih
    exact ⟨w₀, hcreate, (hw.atRest.grownFrom_compact hash h root).trans hgrown⟩

theorem Reached.header (hw : Reached hash c w) :
    headerSize ≤ w.data.size ∧ w.data.word 0 = magic ∧ w.data.word 8 = w.base.toNat := by
  obtain ⟨w₀, hcreate, hgrown⟩ := hw.grownFrom
  obtain ⟨rest, hrest⟩ := hgrown.data
  have hstart : w₀.data.toList = imageBytes w₀.base.toNat (fun _ => 0) [] :=
    (holding_of_create? hcreate hash fun _ => .string #[]).laid.bytes
  have hbytes : w.data.toList = leBytes 8 magic ++ (leBytes 8 w.base.toNat ++ rest) := by
    rw [hgrown.base, ← hrest, hstart]
    simp [imageBytes, encodeAll, placed]
  exact header_of_toList hbytes w.base.toNat_lt

end Writer

namespace Region
variable {ε ε' : Type}

/-- The regions have the same size and base address, and hand out the same roots, which are all that
either of them has. -/
structure SameValues (r : Region ε) (r' : Region ε') : Prop where
  size_eq : r.size = r'.size
  base_eq : r.base = r'.base
  rootCount_eq : r.rootCount = r'.rootCount
  reads_eq : r.reads (r.rootCount + 1) = r'.roots.toList.map some ++ [none]
  copy_reads_eq : r'.reads (r'.rootCount + 1) = r'.roots.toList.map some ++ [none]

/-- Mapped and copied images come to the same: the same heap and the same values, or one cause. -/
def Agree (mapped : Except MapError (Heap × Region ε)) :
    Except Corruption (Heap × Region ε') → Prop
  | .ok (h, copy) => ∃ r, mapped = .ok (h, r) ∧ r.SameValues copy
  | .error cause => mapped = .error (.corrupt cause)

variable {h : Heap} {bytes : Bytes} {declared : UInt64} {aligned : Bool}

/-- A region that was just loaded, with its release action. -/
structure Fresh (r : Region ε) (mapped : Bool) (release : ε) : Prop where
  next_eq : r.next = 0
  mapped_eq : r.mapped = mapped
  guard_eq : r.guard.map Guard.consume = some release

/-- Neither the release action nor whether a region is mapped matters to how it is loaded. -/
theorem load_cases (h : Heap) (bytes : Bytes) (declared : UInt64) (aligned : Bool) (release : ε)
    (release' : ε') :
    (headerSize ≤ bytes.size ∧ bytes.word 0 = magic ∧ ∃ h' copy r,
        load h bytes declared aligned false release = (.ok (h', copy), []) ∧
        load h bytes declared aligned true release' = (.ok (h', r), []) ∧
        r.SameValues copy ∧ r.Fresh true release') ∨
      ∃ cause, bytes.load declared aligned h.size = .error cause ∧
        load h bytes declared aligned false release = (.error cause, [release]) ∧
        load h bytes declared aligned true release' = (.error cause, [release']) := by
  unfold load
  cases hgraph : bytes.load declared aligned h.size with
  | error cause => exact .inr ⟨cause, rfl, rfl, rfl⟩
  | ok graph =>
    obtain ⟨records, himage, _⟩ := isImage_of_load hgraph
    exact .inl ⟨himage.header, himage.magic_eq, _, _, _, rfl, rfl,
      ⟨rfl, rfl, rfl, reads_all _ rfl, reads_all _ rfl⟩, ⟨rfl, rfl, rfl⟩⟩

theorem Fresh.effects {r : Region ε} {mapped : Bool} {release : ε} (hr : r.Fresh mapped release)
    (uses : List Use) : ∀ effect ∈ (r.run uses).2.2 ++ (r.run uses).1.drop, effect = release := by
  have hused : Used r.roots.toList release [] r := by
    refine ⟨fun _ => ⟨(Array.toArray_toList).symm, ?_, hr.guard_eq⟩, nofun⟩
    rw [hr.next_eq]
    exact (Nat.zero_min _).symm
  obtain ⟨hdone, heffects, _⟩ := hused.run uses
  intro effect hmem
  rw [heffects, hdone.drop] at hmem
  rcases List.mem_append.mp hmem with hmem | hmem <;> split at hmem <;>
    first | exact List.mem_singleton.mp hmem | cases hmem

end Region

section Header
variable {file : Bytes} {declared : UInt64} {aligned : Bool} {bytes : Bytes}

/-- Bytes are never declared for another base address than the one that they state. -/
theorem checkHeader_ne_baseMismatch (hbase : declared.toNat = bytes.word 8) (stored other : Nat) :
    bytes.checkHeader declared.toNat aligned ≠ .error (.baseMismatch stored other) := by
  unfold Bytes.checkHeader
  dsimp only
  split_ifs with hsize hmagic hmod hne
  · exact nofun
  · exact nofun
  · exact nofun
  · exact absurd hbase.symm hne
  · exact nofun

theorem word_extract_zero {last : Nat} (pos : Nat) (hlast : last ≤ file.size)
    (hpos : pos + 8 ≤ last) : Bytes.word (file.extract 0 last) pos = file.word pos := by
  have hprefix : (file.extract 0 last).toList <+: file.toList := by
    rw [Array.toList_extract, List.extract_eq_take_drop, List.drop_zero]
    exact List.take_prefix _ _
  refine (Bytes.word_of_isPrefix hprefix ?_).symm
  rw [Array.size_extract]
  omega

end Header

section Mapping
variable {σ φ μ : Type} {sys : SystemCalls σ φ μ} {path : String} {handle : φ} {memory : μ}
variable {s t : σ} {file : Bytes} {base : UInt64}

namespace SystemCalls

theorem Offers.readExact_header (ho : sys.Offers handle t file) (hsize : headerSize ≤ file.size) :
    sys.readExact handle t 0 headerSize = .ok (file.extract 0 headerSize) := by
  have hread : Delivers (sys.readAt handle t) file (0 + headerSize) := by
    rw [Nat.zero_add]
    exact ho.delivers
  have hfill := hread.fill_eq 0 #[]
  rw [Nat.zero_add, if_pos (.inr hsize), Array.empty_append] at hfill
  exact hfill

theorem Offers.mapImage_cases (ho : sys.Offers handle t file)
    (hbase : headerSize ≤ file.size → base.toNat = file.word 8) :
    (headerSize ≤ file.size ∧ file.word 0 = magic ∧ ∃ memory u,
        sys.mapImage handle t = (.ok ⟨memory, file.size, base⟩, u) ∧ sys.SameFiles t u ∧
        sys.IsOwnCopy memory u file) ∨
      (¬(headerSize ≤ file.size ∧ file.word 0 = magic) ∧
        sys.mapImage handle t = (.error (.corrupt .badMagic), t)) := by
  unfold mapImage
  simp only [ho.size]
  by_cases hsize : headerSize ≤ file.size
  · rw [if_neg (Nat.not_lt.mpr hsize), ho.readExact_header hsize]
    simp only [word_extract_zero 0 hsize (by decide), word_extract_zero 8 hsize (by decide),
      ← hbase hsize, UInt64.ofNat_toNat]
    by_cases hmagic : file.word 0 = magic
    · have hpos : 0 < file.size := Nat.lt_of_lt_of_le (by decide) hsize
      obtain ⟨memory, u, hmap, hsame, hcopy⟩ :=
        ho.copied ⟨base, file.size, true, true, 0⟩ rfl rfl rfl hpos
      rw [if_neg (not_not.mpr hmagic), hmap]
      exact .inl ⟨hsize, hmagic, memory, u, rfl, hsame, hcopy⟩
    · rw [if_pos hmagic]
      exact .inr ⟨fun h => hmagic h.2, rfl⟩
  · rw [if_pos (Nat.lt_of_not_le hsize)]
    exact .inr ⟨fun h => hsize h.1, rfl⟩

theorem Serves.exists_withFile_eq {α : Type} (hserves : sys.Serves path s file) :
    ∃ handle t, sys.SameFiles s t ∧ sys.Offers handle t file ∧
      ∀ use : φ → σ → Except MapError α × σ,
        sys.withFile path use s = ((use handle t).1, sys.close handle (use handle t).2) := by
  obtain ⟨handle, t, hopen, hsame, ho⟩ := hserves.opens
  refine ⟨handle, t, hsame, ho, fun use => ?_⟩
  rw [withFile, hopen]

end SystemCalls

namespace Region

/-- In mapped memory an image is loaded like a copy of the file. No file is changed by this. -/
theorem ofMapped_eq (hcopy : sys.IsOwnCopy memory t file) (h : Heap) (base : UInt64)
    (scratch : Bytes) :
    (ofMapped sys h ⟨memory, file.size, base⟩ scratch t).1 =
        (load h file base true true (unmapping sys memory file.size)).1 ∧
      sys.SameFiles t (ofMapped sys h ⟨memory, file.size, base⟩ scratch t).2 := by
  have haligned : (sys.address memory % 8 == 0) = true := by
    have hpage := hcopy.aligned
    rw [pageSize] at hpage
    rw [beq_iff_eq]
    omega
  simp only [ofMapped, hcopy.shows, haligned, true_and]
  have hstored := hcopy.stored (InPlace.left file (sys.address memory) base scratch) t
  rcases load_cases h file base true () (unmapping sys memory file.size) with
    ⟨_, _, h', _, r, _, hload, _⟩ | ⟨cause, _, _, hload⟩
  · rw [hload]
    exact hstored
  · rw [hload]
    exact hstored.trans (hcopy.unmapped file.size _)

/-- Only the pages of a file that starts like an image are loaded. No file is changed. -/
theorem mapFile_eq (hserves : sys.Serves path s file)
    (hbase : headerSize ≤ file.size → base.toNat = file.word 8) (h : Heap) (scratch : Bytes) :
    sys.SameFiles s (mapFile sys h path scratch s).2 ∧
      ((headerSize ≤ file.size ∧ file.word 0 = magic ∧ ∃ memory u, sys.IsOwnCopy memory u file ∧
          (mapFile sys h path scratch s).1 =
            (load h file base true true (unmapping sys memory file.size)).1.mapError .corrupt) ∨
        (¬(headerSize ≤ file.size ∧ file.word 0 = magic) ∧
          (mapFile sys h path scratch s).1 = .error (.corrupt .badMagic))) := by
  obtain ⟨handle, t, hopened, ho, hwith⟩ := hserves.exists_withFile_eq
  unfold mapFile tryFile
  rw [hwith]
  rcases ho.mapImage_cases hbase with ⟨hsize, hmagic, memory, u, hmap, hsame, hcopy⟩ | ⟨hnot, hmap⟩
  · obtain ⟨hload, hkept⟩ := ofMapped_eq hcopy h base scratch
    simp only [hmap]
    refine ⟨((hopened.trans hsame).trans hkept).trans (ho.closed _), .inl ?_⟩
    exact ⟨hsize, hmagic, memory, u, hcopy, by rw [hload]⟩
  · simp only [hmap]
    exact ⟨hopened.trans (ho.closed t), .inr ⟨hnot, trivial⟩⟩

/-- Bytes that do not start like an image are rejected by both. Others are looked at by both. -/
theorem mapFile_cases {ε : Type} (hserves : sys.Serves path s file)
    (hbase : headerSize ≤ file.size → base.toNat = file.word 8) (h : Heap) (scratch : Bytes)
    (release : ε) :
    (headerSize ≤ file.size ∧ ∃ h' copy r memory u,
        load h file base true false release = (.ok (h', copy), []) ∧
        (mapFile sys h path scratch s).1 = .ok (h', r) ∧ r.SameValues copy ∧
        sys.IsOwnCopy memory u file ∧ r.Fresh true (unmapping sys memory file.size)) ∨
      ∃ found, load h file base true false release = (.error found, [release]) ∧
        ((mapFile sys h path scratch s).1 = .error (.corrupt .badMagic) ∨
          (∀ stored declared, found ≠ .baseMismatch stored declared) ∧
            (mapFile sys h path scratch s).1 = .error (.corrupt found)) := by
  obtain ⟨-, ⟨hsize, hmagic, memory, u, hcopy, hmapped⟩ | ⟨hnot, hmapped⟩⟩ :=
    mapFile_eq hserves hbase h scratch
  · rw [hmapped]
    rcases load_cases h file base true release (unmapping sys memory file.size) with
      ⟨-, -, h', copy, r, hload, hload', hvalues, hfresh⟩ | ⟨found, hfound, hload, hload'⟩
    · rw [hload']
      exact .inl ⟨hsize, h', copy, r, memory, u, hload, rfl, hvalues, hcopy, hfresh⟩
    · rw [hload']
      refine .inr ⟨found, hload, .inr ⟨fun stored declared hmismatch => ?_, rfl⟩⟩
      have hcause : found.OfHeader := by
        rw [hmismatch]
        trivial
      rw [load_eq_error_iff hcause, hmismatch] at hfound
      exact checkHeader_ne_baseMismatch (hbase hsize) stored declared hfound
  · rcases load_cases h file base true release release with
      ⟨hsize, hmagic, _⟩ | ⟨found, -, hload, -⟩
    · exact absurd ⟨hsize, hmagic⟩ hnot
    · exact .inr ⟨found, hload, .inl hmapped⟩

theorem Fresh.sameFiles {r : Region (σ → σ)} {size : Nat} {bytes : Bytes}
    (hcopy : sys.IsOwnCopy memory t bytes) (hr : r.Fresh true (unmapping sys memory size))
    (uses : List Use) :
    ∀ effect ∈ (r.run uses).2.2 ++ (r.run uses).1.drop, ∀ u, sys.SameFiles u (effect u) := by
  intro effect hmem u
  rw [hr.effects uses effect hmem]
  exact hcopy.unmapped size u

theorem mapFile_of_save {ε : Type} {hash : ContentHash} {c : WriterConfig} {w : Writer}
    (hw : Writer.Reached hash c w) (hserves : sys.Serves path s w.data) (h : Heap)
    (scratch : Bytes) (release : ε) :
    Agree (mapFile sys h path scratch s).1 (ofWriter h w release).1 := by
  obtain ⟨hsize, hmagic, hbase⟩ := hw.header
  obtain ⟨-, ⟨-, -, memory, u, hcopy, hmapped⟩ | ⟨hnot, -⟩⟩ :=
    mapFile_eq hserves (fun _ => hbase.symm) h scratch
  · rw [hmapped, ofWriter]
    rcases load_cases h w.data w.base true release (unmapping sys memory w.data.size) with
      ⟨-, -, h', copy, r, hload, hload', hvalues, -⟩ | ⟨found, -, hload, hload'⟩
    · rw [hload, hload']
      exact ⟨r, rfl, hvalues⟩
    · rw [hload, hload']
      rfl
  · exact absurd ⟨hsize, hmagic⟩ hnot

end Region

/-- Mapping a file that is served and loading a copy of its bytes, declared for the base address
that they state, give the same values in the same heap, or none. If mapping fails then the file is
found corrupt and so is the copy, for the same cause unless the file does not start like an image;
the base address is never the cause. No file is changed, neither by mapping nor by anything that is
done with the region. Saving what a writer has written is writing its bytes, and mapping them again
is as good as loading a copy of them. -/
theorem mapFile_agrees {ε : Type} (hserves : sys.Serves path s file)
    (hbase : headerSize ≤ file.size → base.toNat = file.word 8) (h : Heap) (scratch : Bytes)
    (release : ε) :
    (∀ h' r, (Region.mapFile sys h path scratch s).1 = .ok (h', r) →
      headerSize ≤ file.size ∧ r.mapped = true ∧ ∃ copy, r.SameValues copy ∧
        Region.load h file base true false release = (.ok (h', copy), [])) ∧
    (∀ h' copy effects, headerSize ≤ file.size →
      Region.load h file base true false release = (.ok (h', copy), effects) →
        ∃ r, r.SameValues copy ∧ (Region.mapFile sys h path scratch s).1 = .ok (h', r)) ∧
    (∀ cause, (Region.mapFile sys h path scratch s).1 = .error cause →
      ∃ found, Region.load h file base true false release = (.error found, [release]) ∧
        (cause = .corrupt .badMagic ∨ cause = .corrupt found ∧
          ∀ stored declared, found ≠ .baseMismatch stored declared)) ∧
    (sys.readFile path s = .ok file ∧ sys.SameFiles s (Region.mapFile sys h path scratch s).2 ∧
      ∀ h' r uses, (Region.mapFile sys h path scratch s).1 = .ok (h', r) →
        ∀ effect ∈ (r.run uses).2.2 ++ (r.run uses).1.drop, ∀ t, sys.SameFiles t (effect t)) ∧
    (∀ hash c w path₁ s₀ s₁, Writer.Reached hash c w →
      sys.writeFile path₁ w.data s₀ = (.ok (), s₁) → sys.Serves path₁ s₁ w.data →
        sys.save path₁ w s₀ = (.ok (), s₁) ∧
          Region.Agree (Region.mapFile sys h path₁ scratch s₁).1
            (Region.ofWriter h w release).1) := by
  have hcases := Region.mapFile_cases hserves hbase h scratch release
  refine ⟨?_, ?_, ?_, ⟨hserves.content, (Region.mapFile_eq hserves hbase h scratch).1, ?_⟩, ?_⟩
  · intro h' r hmapped
    obtain ⟨hsize, h₁, copy, r₁, _, _, hload, hok, hvalues, -, hfresh⟩ | ⟨_, _, hno | ⟨_, hno⟩⟩ :=
      hcases
    · rw [hmapped] at hok
      cases hok
      exact ⟨hsize, hfresh.mapped_eq, copy, hvalues, hload⟩
    · rw [hmapped] at hno
      cases hno
    · rw [hmapped] at hno
      cases hno
  · intro h' copy effects hsize hload
    obtain ⟨_, h₁, copy₁, r, _, _, hload₁, hok, hvalues, _⟩ | ⟨_, hno, _⟩ := hcases
    · rw [hload] at hload₁
      cases hload₁
      exact ⟨r, hvalues, hok⟩
    · rw [hload] at hno
      cases hno
  · intro cause hmapped
    obtain ⟨_, _, _, _, _, _, _, hno, _⟩ | ⟨found, hload, hok | ⟨hne, hok⟩⟩ := hcases
    · rw [hmapped] at hno
      cases hno
    · rw [hmapped] at hok
      cases hok
      exact ⟨found, hload, .inl rfl⟩
    · rw [hmapped] at hok
      cases hok
      exact ⟨found, hload, .inr ⟨rfl, hne⟩⟩
  · intro h' r uses hmapped
    obtain ⟨_, h₁, copy, r₁, memory, u, _, hok, _, hcopy, hfresh⟩ | ⟨_, _, hno | ⟨_, hno⟩⟩ := hcases
    · rw [hmapped] at hok
      cases hok
      exact hfresh.sameFiles hcopy uses
    · rw [hmapped] at hno
      cases hno
    · rw [hmapped] at hno
      cases hno
  · intro hash c w path₁ s₀ s₁ hw hwrite hsaved
    exact ⟨hwrite, Region.mapFile_of_save hw hsaved h scratch release⟩

end Mapping

def knotWorld : World := { disk := ⟨[("knot", knot)]⟩ }

set_option maxRecDepth 4096 in
theorem serves_knot : (World.calls .full).Serves "knot" knotWorld knot :=
  World.serves (by cbv) (by cbv) rfl fun _ => ⟨knot, by cbv⟩

def fiveWriter : Writer :=
  ((Writer.start {}).compact fingerprint .empty (.scalar ⟨5, five_lt_scalarLimit⟩)).1

def fiveWorld : World := { disk := ⟨[("five", fiveWriter.data)]⟩ }

set_option maxRecDepth 4096 in
theorem serves_five : (World.calls .full).Serves "five" fiveWorld fiveWriter.data :=
  World.serves (by cbv) (by cbv) rfl fun _ => ⟨fiveWriter.data, by cbv⟩

/-- The knot is mapped from a disk. What is saved to an empty disk is mapped from there. -/
theorem map_knot :
    (∃ r, (Region.mapFile (World.calls .full) .empty "knot" #[] knotWorld).1 = .ok (knotHeap, r) ∧
      r.mapped = true ∧ r.reads 2 = [some (.object 0), none]) ∧
    (World.calls .full).save "five" fiveWriter {} = (.ok (), fiveWorld) ∧
    ∃ r, (Region.mapFile (World.calls .full) .empty "five" #[] fiveWorld).1 = .ok (.empty, r) ∧
      r.reads 2 = [some (.scalar ⟨5, five_lt_scalarLimit⟩), none] := by
  have hbase : (4096 : UInt64).toNat = knot.word 8 := by decide
  obtain ⟨hcopied, hmapped, _, _, hsaved⟩ :=
    mapFile_agrees serves_knot (fun _ => hbase) .empty #[] ()
  obtain ⟨r, hvalues, hr⟩ := hmapped _ _ _ (by decide) load_knot_region
  have hfive : Writer.Reached fingerprint {} fiveWriter :=
    .compact .empty (.scalar ⟨5, five_lt_scalarLimit⟩) (.create rfl)
  obtain ⟨hsave, hagree⟩ := hsaved fingerprint {} fiveWriter "five" {} fiveWorld hfive (by cbv)
    serves_five
  have hcopy : (Region.ofWriter .empty fiveWriter ()).1 =
      .ok (.empty, ⟨32, 0, false, #[.scalar ⟨5, five_lt_scalarLimit⟩], 0,
        some ⟨.wrapped (.bare ())⟩⟩) := by
    cbv
  rw [hcopy] at hagree
  obtain ⟨r', hr', hvalues'⟩ := hagree
  have hreads := hvalues.reads_eq
  have hreads' := hvalues'.reads_eq
  rw [hvalues.rootCount_eq] at hreads
  rw [hvalues'.rootCount_eq] at hreads'
  exact ⟨⟨r, hr, (hcopied _ _ hr).2.1, hreads⟩, hsave, r', hr', hreads'⟩

end HeapImage
