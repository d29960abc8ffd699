import HeapImage.Disk.World
import HeapImage.Proofs.Disk.Reading
import HeapImage.Storage

/-!
# Files that are served

What a reader of files relies on: a file can be opened, its size is known, its bytes are delivered,
and it can be mapped as a copy of one's own. Nothing that is done to open a file, to use such a copy
or to close the file again gets into any file. A disk serves the files that it has.
-/

namespace HeapImage
set_option autoImplicit false

namespace SystemCalls
variable {σ φ μ : Type} (sys : SystemCalls σ φ μ)

/-- All files are the same in both states. -/
def SameFiles (s t : σ) : Prop := ∀ path, sys.readFile path t = sys.readFile path s

theorem SameFiles.refl (s : σ) : sys.SameFiles s s := fun _ => rfl

variable {sys} in
theorem SameFiles.trans {s t u : σ} (h : sys.SameFiles s t) (h' : sys.SameFiles t u) :
    sys.SameFiles s u :=
  fun path => (h' path).trans (h path)

/-- The memory starts at a page and shows the file. It is nobody else's, so that it does not matter
to any file what is stored there, or when it is unmapped. -/
structure IsOwnCopy (memory : μ) (s : σ) (file : Bytes) : Prop where
  aligned : sys.address memory % pageSize = 0
  shows : sys.memory memory file.size s = file
  stored : ∀ bytes t, sys.SameFiles t (sys.store memory bytes t)
  unmapped : ∀ length t, sys.SameFiles t (sys.unmap memory length t).2

/-- What can be done with an open file, of which a header is to be read. -/
structure Offers (handle : φ) (s : σ) (file : Bytes) : Prop where
  size : sys.fileSize handle s = .ok file.size
  delivers : Delivers (sys.readAt handle s) file headerSize
  copied : ∀ request, request.ownCopy = true → request.offset = 0 → request.length = file.size →
    0 < file.size → ∃ memory t, sys.map handle request s = (.ok memory, t) ∧ sys.SameFiles s t ∧
      sys.IsOwnCopy memory t file
  closed : ∀ t, sys.SameFiles t (sys.close handle t)

/-- At the path there is a file with these bytes, which can be opened and used. -/
structure Serves (path : String) (s : σ) (file : Bytes) : Prop where
  content : sys.readFile path s = .ok file
  opens : ∃ handle t, sys.openPath path .read s = (.ok handle, t) ∧ sys.SameFiles s t ∧
    sys.Offers handle t file

end SystemCalls

theorem mapPages_all {file pages : Bytes}
    (hpages : (Opened.file file).mapPages 0 file.size = .ok pages) : pages = file := by
  unfold Opened.mapPages at hpages
  dsimp only at hpages
  split_ifs at hpages
  cases hpages
  exact page_all file

namespace World
variable {w w' : World} {path : String} {file : Bytes} {schedule : Schedule}

theorem sameFiles_of_disk (h : w'.disk = w.disk) : (calls schedule).SameFiles w w' :=
  fun path => congrArg (Disk.readAll · path) h

theorem isOwnCopy_of_mapped {address : Nat} (haligned : address % pageSize = 0)
    (hmapped : w.mapped[address]? = some file) : (calls schedule).IsOwnCopy address w file where
  aligned := haligned
  shows := by
    change (w.mapped.getD address #[]).extract 0 file.size = file
    rw [Std.ExtTreeMap.getD_eq_getD_getElem?, hmapped]
    exact Array.extract_size
  stored _ _ := sameFiles_of_disk rfl
  unmapped _ _ := sameFiles_of_disk rfl

theorem offers (hfree : w.free % pageSize = 0)
    (hpages : 0 < file.size → ∃ pages, (Opened.file file).mapPages 0 file.size = .ok pages) :
    (calls schedule).Offers ⟨.file file, true⟩ w file where
  size := rfl
  delivers := delivers_readAt file schedule (by decide)
  copied := by
    rintro ⟨hint, length, writable, ownCopy, offset⟩ hown hoffset hlength hpos
    obtain ⟨pages, hmap⟩ := hpages hpos
    subst hoffset hlength
    have hall := mapPages_all hmap
    subst hall
    refine ⟨w.free, { w with
      mapped := w.mapped.insert w.free pages
      free := w.free + wholePages pages.size }, ?_, sameFiles_of_disk rfl,
      isOwnCopy_of_mapped hfree Std.ExtTreeMap.getElem?_insert_self⟩
    change World.map ⟨.file pages, true⟩ ⟨hint, pages.size, writable, ownCopy, 0⟩ w = _
    rw [World.map, if_pos hown]
    dsimp only
    rw [hmap]
  closed _ := sameFiles_of_disk rfl

/-- What is on the disk is served, if it can be mapped. -/
theorem serves (hname : path.contains '\x00' = false)
    (hfile : w.disk.lookUp path = .ok (.file file)) (hfree : w.free % pageSize = 0)
    (hpages : 0 < file.size → ∃ pages, (Opened.file file).mapPages 0 file.size = .ok pages) :
    (calls schedule).Serves path w file where
  content := by
    change w.disk.readAll path = .ok file
    rw [Disk.readAll, hname, hfile]
    rfl
  opens := by
    refine ⟨⟨.file file, true⟩, w, ?_, .refl _ w, offers hfree hpages⟩
    rw [SystemCalls.openPath, hname]
    change World.openFile path .read w = _
    rw [World.openFile, Disk.openFile, show (Access.read == Access.read) = true from rfl, hfile]
    rfl

end World
end HeapImage
