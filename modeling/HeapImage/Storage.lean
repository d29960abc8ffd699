import HeapImage.Image.InPlace
import HeapImage.Region
import HeapImage.SystemCalls
import HeapImage.Writer.Compact

/-!
# Images in files

Saving what a writer has written, and loading an image from a file by mapping it. The base address
is taken from the file itself, so a mapped image is never declared for another one. The memory is
the region's own: references are replaced there, and it is unmapped when the region is released.
-/

namespace HeapImage
set_option autoImplicit false

inductive MapError where
  | corrupt (cause : Corruption)
  | file (cause : FileError)
deriving DecidableEq

def MapError.message : MapError → String
  | corrupt cause => cause.message
  | file cause => cause.message

/-- A file that is mapped, and the base address that it was written for. -/
structure MappedImage (μ : Type) where
  memory : μ
  size : Nat
  base : UInt64

namespace SystemCalls
variable {σ φ μ α : Type} (sys : SystemCalls σ φ μ)

def save (path : String) (w : Writer) (s : σ) : Except FileError Unit × σ :=
  sys.writeFile path w.data s

def withFile (path : String) (use : φ → σ → Except MapError α × σ) (s : σ) :
    Except MapError α × σ :=
  match sys.openPath path .read s with
  | (.error e, s) => (.error (.file e), s)
  | (.ok file, s) =>
    let (result, s) := use file s
    (result, sys.close file s)

/-- Map a file that starts like an image, if possible at the base address. -/
def mapImage (file : φ) (s : σ) : Except MapError (MappedImage μ) × σ :=
  match sys.fileSize file s with
  | .error e => (.error (.file e), s)
  | .ok size =>
    if size < headerSize then (.error (.corrupt .badMagic), s)
    else
      match sys.readExact file s 0 headerSize with
      | .error e => (.error (.file e), s)
      | .ok header =>
        if header.word 0 ≠ magic then (.error (.corrupt .badMagic), s)
        else
          let base := UInt64.ofNat (header.word 8)
          let request : MapRequest :=
            { hint := base, length := size, writable := true, ownCopy := true, offset := 0 }
          match sys.map file request s with
          | (.error e, s) => (.error (.file e), s)
          | (.ok memory, s) => (.ok ⟨memory, size, base⟩, s)

end SystemCalls

/-- What stands in memory after an image was loaded in place. An image that is refused may have
been changed in part by then; this is not gone into, any bytes may be left behind. -/
def InPlace.left (memory : Bytes) (start : Nat) (declared : UInt64) (scratch : Bytes) : Bytes :=
  match InPlace.load memory start declared with
  | .ok (loaded, _) => loaded
  | .error _ => scratch

namespace Region
variable {σ φ μ : Type} (sys : SystemCalls σ φ μ)

def perform (effects : List (σ → σ)) (s : σ) : σ := effects.foldl (fun s effect => effect s) s

/-- The release action of mapped memory. Nothing is done about it if unmapping fails. -/
def unmapping (memory : μ) (size : Nat) (s : σ) : σ := (sys.unmap memory size s).2

/-- Load an image that is mapped. -/
def ofMapped (h : Heap) (image : MappedImage μ) (scratch : Bytes) (s : σ) :
    Except Corruption (Heap × Region (σ → σ)) × σ :=
  let bytes := sys.memory image.memory image.size s
  let start := sys.address image.memory
  let s := sys.store image.memory (InPlace.left bytes start image.base scratch) s
  let (result, effects) := load h bytes image.base (start % 8 == 0) true
    (unmapping sys image.memory image.size)
  (result, perform effects s)

/-- Map a file and load it, if it starts like an image. -/
def tryFile (h : Heap) (path : String) (scratch : Bytes) (s : σ) :
    Except MapError (MappedImage μ × Except Corruption (Heap × Region (σ → σ))) × σ :=
  sys.withFile path (fun file s =>
    match sys.mapImage file s with
    | (.error e, s) => (.error e, s)
    | (.ok image, s) =>
      let (result, s) := ofMapped sys h image scratch s
      (.ok (image, result), s)) s

def mapFile (h : Heap) (path : String) (scratch : Bytes) (s : σ) :
    Except MapError (Heap × Region (σ → σ)) × σ :=
  match tryFile sys h path scratch s with
  | (.error e, s) => (.error e, s)
  | (.ok (_, result), s) => (result.mapError .corrupt, s)

/-- Load an image from a copy of what a writer has written. -/
def ofWriter {ε : Type} (h : Heap) (w : Writer) (release : ε) :
    Except Corruption (Heap × Region ε) × List ε :=
  load h w.data w.base true false release

end Region
end HeapImage
