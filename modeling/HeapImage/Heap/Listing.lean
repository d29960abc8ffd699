import HeapImage.Heap.Worklist
import Std.Data.ExtTreeMap

/-!
# Listings of object graphs

The objects reachable from some roots, breadth first: roots from left to right, then the children
of the first object, of the second, and so on. A listing shows each object once, and refers to
objects by their place in it, so it does not depend on how the heap numbers them.
-/

namespace HeapImage
set_option autoImplicit false

structure Discovery where
  order : Array Nat
  place : Std.ExtTreeMap Nat Nat

namespace Discovery

def empty : Discovery := ⟨#[], ∅⟩

def add (d : Discovery) (id : Nat) : Discovery :=
  let place := d.place.insert id d.order.size
  ⟨d.order.push id, place⟩

theorem contains_add_self (d : Discovery) (id : Nat) : (d.add id).place.contains id = true := by
  simp [add]

theorem contains_add {d : Discovery} {id other : Nat} (h : d.place.contains other = true) :
    (d.add id).place.contains other = true := by
  rw [add, Std.ExtTreeMap.contains_insert, h, Bool.or_true]

end Discovery

inductive ListingRef where
  | scalar (payload : Nat)
  | node (place : Nat)
deriving DecidableEq

structure ListingNode where
  object : Object ListingRef
  compacted : Bool
deriving DecidableEq

structure Listing where
  roots : List ListingRef
  /-- The first objects of the graph. -/
  nodes : List ListingNode
  /-- The number of all its objects. -/
  total : Nat
deriving DecidableEq

namespace Heap

/-- Go through the queue from `head` on, appending the children of what is new. -/
def discoverFrom (h : Heap) (queue : Array Nat) (head : Nat) (found : Discovery) : Discovery :=
  if hlt : head < queue.size then
    if _ : found.place.contains queue[head] = true then h.discoverFrom queue (head + 1) found
    else
      h.discoverFrom (queue ++ (h.objectChildren queue[head]).toArray) (head + 1) (found.add queue[head])
  else found
termination_by h.unvisited found.place.contains + (queue.size - head)
decreasing_by
  · omega
  · rename_i hnew
    have hmark := h.unvisited_mark (Bool.eq_false_iff.mpr hnew)
      (found.contains_add_self queue[head]) fun _ => Discovery.contains_add
    have hsize : (queue ++ (h.objectChildren queue[head]).toArray).size =
        queue.size + (h.objectChildren queue[head]).length := by simp
    omega

def discover (h : Heap) (roots : List Value) : Discovery :=
  h.discoverFrom (roots.filterMap Value.id?).toArray 0 .empty

end Heap

namespace Discovery

def ref (d : Discovery) : Value → ListingRef
  | .scalar payload => .scalar payload
  | .object id => .node (d.place.getD id 0)

end Discovery

def listingLimit : Nat := 200

def Heap.listing (h : Heap) (roots : List Value) : Listing :=
  let found := h.discover roots
  { roots := roots.map found.ref
    nodes := (found.order.toList.take listingLimit).map fun id =>
      ⟨(h.object id).map found.ref, (h.entry id).compacted⟩
    total := found.order.size }

end HeapImage
