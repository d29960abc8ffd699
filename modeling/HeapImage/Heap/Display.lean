import HeapImage.Heap.Basic
import HeapImage.Text.Hex
import HeapImage.Text.Shown

/-!
# Display of values

How scalars, objects and integers are shown. A scalar inside an object is shown by its stored word;
other references would show where an object is, so objects with such children are not shown.
-/

namespace HeapImage
set_option autoImplicit false

/-- Upper-case digits, with zeros up to sixteen characters including the radix mark. -/
def Value.wordText (payload : Nat) : String :=
  "Value(" ++ Hex.padded 16 (scalarWord payload) ++ ")"

def Bytes.shown (bytes : Bytes) : Shown := .list (bytes.toList.map fun b => .ofNat b.toNat)

def LimbInteger.shown (x : LimbInteger) : Shown :=
  .record "Int" ["negative", "limbs"]
    [.ofBool x.negative, .list (x.limbs.map fun limb => .ofNat limb.toNat)]

namespace Object
variable {ρ : Type}

def shown (ref : ρ → Shown) : Object ρ → Shown
  | constructor tag fields scalars =>
    .record "Constructor" ["tag", "fields", "scalars"]
      [.ofNat tag.toNat, .list (fields.toList.map ref), Bytes.shown scalars]
  | array elements => .tuple "Array" [.list (elements.toList.map ref)]
  | byteArray elemSize bytes =>
    .record "ByteArray" ["elem_size", "bytes"] [.ofNat elemSize.toNat, Bytes.shown bytes]
  | string bytes => .tuple "String" [Bytes.shown bytes]
  | thunk (.waiting _) => .tuple "Thunk" [.ofOption none]
  | thunk (.forced value) => .tuple "Thunk" [.ofOption (some (ref value))]
  | task result => .tuple "Task" [.ofOption (result.map ref)]
  | promise result => .tuple "Promise" [.ofOption (result.map ref)]
  | mutableRef contents => .tuple "MutableRef" [ref contents]
  | bigInteger value => .tuple "BigInteger" [value.shown]

end Object

def Value.payload? : Value → Option Nat
  | .scalar payload => some payload
  | .object _ => none

/-- A value and its parts, if no part is a reference to an object. -/
def Heap.shown? (h : Heap) : Value → Option Shown
  | .scalar payload => some (.tuple "Scalar" [.ofNat payload])
  | .object id =>
    let o := h.object id
    if o.children.all fun child => child.payload?.isSome then
      some (o.shown fun child => .atom (Value.wordText (child.payload?.getD 0)))
    else none

end HeapImage
