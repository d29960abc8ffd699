import HeapImage.Bytes.LittleEndian

/-!
# Fingerprints of byte strings

The 64-bit FNV-1a hash. It groups equal contents and identifies long byte strings in reports;
nothing relies on it being free of collisions.
-/

namespace HeapImage
set_option autoImplicit false

/-- A function that assigns a bucket to the contents of a record. -/
abbrev ContentHash := Bytes → UInt64

/-- Each byte is mixed in before the state is multiplied by the prime. -/
def fingerprint : ContentHash := fun bytes =>
  bytes.foldl (fun state b => (state ^^^ b.toUInt64) * 0x100000001b3) 0xcbf29ce484222325

end HeapImage
