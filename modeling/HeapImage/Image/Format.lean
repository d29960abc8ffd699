import HeapImage.Heap.Object

/-!
# The format of images

An image is a header of two words, the magic and the base address, and then records. A record is
a zero half-word, a half-word with tag and extra data, and a payload that depends on the tag,
padded with zeros to a multiple of eight bytes. After the records for each root stands a
terminator, whose payload is the root. References are stored as the base address plus the offset of
the record they denote; scalars are stored as odd words.

Sizes are sums and products that have to stay below `2 ^ 64`; the functions that compute them
return nothing otherwise.
-/

namespace HeapImage
set_option autoImplicit false

/-- The first word of every image; its last byte is the version of the format. -/
def magic : Nat := 0x010054534f524650

/-- The header ends, and the first record starts, here. -/
def headerSize : Nat := 16

def terminatorSize : Nat := 16

def terminatorTag : Nat := 15

def sizeLimit : Nat := 0x7fffffffffffffff

def wordLimit : Nat := 0x10000000000000000

def add? (a b : Nat) : Option Nat := if a + b < wordLimit then some (a + b) else none

def mul? (a b : Nat) : Option Nat := if a * b < wordLimit then some (a * b) else none

def roundUp (n : Nat) : Nat := (n + 7) / 8 * 8

def recordSize? (payload : Nat) : Option Nat := do
  let size ← add? 8 payload
  if roundUp size < wordLimit then some (roundUp size) else none

namespace Payload

def constructor? (numFields scalarSize : Nat) : Option Nat := do
  let fields ← mul? numFields 8
  let data ← add? fields scalarSize
  add? data 16

def array? (length : Nat) : Option Nat := do
  let elements ← mul? length 8
  add? elements 8

def byteArray? (count : Nat) : Option Nat := add? 8 count

/-- A string is followed by a zero byte that does not count towards its length. -/
def string? (length : Nat) : Option Nat := do
  let bytes ← add? 8 length
  add? bytes 1

def thunk : Nat := 16

def cell : Nat := 8

def mutableRef : Nat := 16

def bigInteger? (length : Nat) : Option Nat := do
  let limbs ← mul? length 8
  add? limbs 16

end Payload

namespace Object
variable {ρ : Type}

def tagNumber : Object ρ → Nat
  | constructor .. => 0
  | array .. => 1
  | byteArray .. => 2
  | string .. => 3
  | thunk .. => 4
  | task .. => 5
  | promise .. => 6
  | mutableRef .. => 7
  | bigInteger .. => 8

def extra : Object ρ → Nat
  | constructor tag .. => tag.toNat
  | byteArray elemSize _ => elemSize.toNat
  | bigInteger value => value.negative.toNat
  | _ => 0

def payloadSize? : Object ρ → Option Nat
  | constructor _ fields scalars => Payload.constructor? fields.size scalars.size
  | array elements => Payload.array? elements.size
  | byteArray _ bytes => Payload.byteArray? bytes.size
  | string bytes => Payload.string? bytes.size
  | thunk _ => some Payload.thunk
  | task _ => some Payload.cell
  | promise _ => some Payload.cell
  | mutableRef _ => some Payload.mutableRef
  | bigInteger value => Payload.bigInteger? value.limbs.length

def recordSize? (o : Object ρ) : Option Nat := o.payloadSize? >>= HeapImage.recordSize?

def slotsAt : Object ρ → Nat
  | constructor .. => 24
  | array .. => 16
  | mutableRef .. => 16
  | _ => 8

/-- Where in the record of a leaf the contents start that decide whether two leaves are equal. The
limb reference of a big integer is left out, as it depends on where the record stands. -/
def contentsAt : Object ρ → Nat
  | bigInteger _ => 16
  | _ => 8

end Object

theorem le_roundUp (n : Nat) : n ≤ roundUp n := by
  unfold roundUp
  omega

theorem roundUp_mod (n : Nat) : roundUp n % 8 = 0 := by
  unfold roundUp
  omega

theorem roundUp_lt (n : Nat) : roundUp n < n + 8 := by
  unfold roundUp
  omega

@[simp] theorem add?_eq_some {a b n : Nat} : add? a b = some n ↔ a + b = n ∧ n < wordLimit := by
  unfold add?
  split <;> simp <;> omega

@[simp] theorem mul?_eq_some {a b n : Nat} : mul? a b = some n ↔ a * b = n ∧ n < wordLimit := by
  unfold mul?
  split
  · simp only [Option.some.injEq]
    constructor
    · rintro rfl
      exact ⟨rfl, by assumption⟩
    · exact fun h => h.1
  · simp only [reduceCtorEq, false_iff]
    rintro ⟨rfl, h⟩
    contradiction

theorem recordSize?_eq_some {payload n : Nat} :
    recordSize? payload = some n ↔ n = roundUp (8 + payload) ∧ n < wordLimit := by
  unfold recordSize?
  by_cases h : 8 + payload < wordLimit
  · have ha : add? 8 payload = some (8 + payload) := by simp [h]
    rw [ha]
    simp only [Option.bind_eq_bind, Option.bind_some]
    split <;> rename_i hr
    · simp only [Option.some.injEq]
      constructor
      · rintro rfl
        exact ⟨rfl, hr⟩
      · exact fun hn => hn.1.symm
    · simp only [reduceCtorEq, false_iff]
      rintro ⟨rfl, hn⟩
      exact hr hn
  · have ha : add? 8 payload = none := by simp [add?, h]
    have := le_roundUp (8 + payload)
    rw [ha]
    simp only [Option.bind_eq_bind, Option.bind_none, reduceCtorEq, false_iff]
    omega

theorem pos_of_recordSize? {payload n : Nat} (h : recordSize? payload = some n) : 0 < n := by
  have := (recordSize?_eq_some.mp h).1
  have := le_roundUp (8 + payload)
  omega

end HeapImage
