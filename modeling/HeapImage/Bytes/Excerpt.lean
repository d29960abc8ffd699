import HeapImage.Bytes.Fingerprint

/-!
# Excerpts

How byte strings appear in reports: short ones as they are, long ones by size, fingerprint and both
ends.
-/

namespace HeapImage
set_option autoImplicit false

inductive Excerpt where
  | whole (bytes : Bytes)
  | ends (size : Nat) (fingerprint : UInt64) (head tail : Bytes)
deriving DecidableEq

def excerptLimit : Nat := 8192

def Bytes.excerpt (bytes : Bytes) : Excerpt :=
  if bytes.size ≤ excerptLimit then .whole bytes
  else
    .ends bytes.size (fingerprint bytes) (bytes.extract 0 256)
      (bytes.extract (bytes.size - 64) bytes.size)

end HeapImage
