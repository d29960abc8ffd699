import HeapImage.Guard
import HeapImage.Image.Load

/-!
# Regions

A region is an image whose objects are in a heap. It hands out its roots one after the other, until
it is released. A release action guards the memory: it is performed once, when the region is
released or dropped, or at once if the image turns out to be corrupt. Operations return the effects
that took place.
-/

namespace HeapImage
set_option autoImplicit false

structure Region (ε : Type) where
  size : Nat
  base : UInt64
  mapped : Bool
  roots : Array Value
  /-- How many roots have been read. -/
  next : Nat
  guard : Option (Guard ε)

namespace Region
variable {ε : Type}

/-- Read an image into a heap. `aligned` says whether its memory is. -/
def load (h : Heap) (bytes : Bytes) (declared : UInt64) (aligned mapped : Bool) (release : ε) :
    Except Corruption (Heap × Region ε) × List ε :=
  let guard := Guard.arm (.bare release)
  match bytes.load declared aligned h.size with
  | .error e => (.error e, [guard.consume])
  | .ok graph =>
    (.ok (h.adopt graph.objects,
      { size := bytes.size
        base := declared
        mapped := mapped
        roots := graph.roots
        next := 0
        guard := some guard.wrap }), [])

/-- The next root, in the order in which the roots were written. -/
def read (r : Region ε) : Region ε × Option Value :=
  match r.roots[r.next]? with
  | some root => ({ r with next := r.next + 1 }, some root)
  | none => (r, none)

def rootCount (r : Region ε) : Nat := r.roots.size

/-- Give up the roots and the memory; the second time there is nothing left to do. -/
def release (r : Region ε) : Region ε × List ε :=
  match r.guard with
  | some guard => ({ r with roots := #[], guard := none }, [guard.consume])
  | none => ({ r with roots := #[] }, [])

/-- Dropping a region releases it. -/
def drop (r : Region ε) : List ε := r.release.2

end Region
end HeapImage
