import HeapImage.Bytes.LittleEndian

/-!
# Growing byte buffers

Bytes at the end of a buffer are reserved as zeros, filled in later, and possibly cut off again.
The capacity records how much room the buffer has taken so far; it never shrinks, and no byte
depends on it.
-/

namespace HeapImage
set_option autoImplicit false

structure Buffer where
  bytes : Bytes
  capacity : Nat
deriving DecidableEq

namespace Buffer

def empty (capacity : Nat) : Buffer := ⟨#[], capacity⟩

def size (b : Buffer) : Nat := b.bytes.size

/-- A buffer that has to grow at least doubles its capacity. -/
def grownCapacity (capacity needed : Nat) : Nat :=
  if needed ≤ capacity then capacity else max (2 * capacity) needed

def reserve (b : Buffer) (count : Nat) : Buffer :=
  let capacity := grownCapacity b.capacity (b.size + count)
  { bytes := b.bytes ++ Array.replicate count 0, capacity }

def truncate (b : Buffer) (size : Nat) : Buffer := { b with bytes := b.bytes.shrink size }

def overwrite (b : Buffer) (pos : Nat) (data : List UInt8) : Buffer :=
  { b with bytes := b.bytes.overwrite pos data }

def putWord (b : Buffer) (pos n : Nat) : Buffer := b.overwrite pos (leBytes 8 n)

def putHalf (b : Buffer) (pos n : Nat) : Buffer := b.overwrite pos (leBytes 4 n)

@[simp] theorem size_empty (capacity : Nat) : (empty capacity).size = 0 := rfl

@[simp] theorem size_reserve (b : Buffer) (count : Nat) :
    (b.reserve count).size = b.size + count := by
  simp [reserve, size]

@[simp] theorem size_truncate (b : Buffer) (n : Nat) : (b.truncate n).size = min n b.size := by
  simp [truncate, size]

@[simp] theorem size_overwrite (b : Buffer) (pos : Nat) (data : List UInt8) :
    (b.overwrite pos data).size = b.size := by
  simp [overwrite, size]

@[simp] theorem size_putWord (b : Buffer) (pos n : Nat) : (b.putWord pos n).size = b.size :=
  size_overwrite b pos _

@[simp] theorem size_putHalf (b : Buffer) (pos n : Nat) : (b.putHalf pos n).size = b.size :=
  size_overwrite b pos _

end Buffer
end HeapImage
