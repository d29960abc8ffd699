import HeapImage.Heap.Basic
import HeapImage.Image.Record
import Std.Data.ExtTreeMap

/-!
# Reading images

An image is read in two steps. First the bytes after the header are split into records, from the
first to the last. Then every stored reference is resolved: an odd word is a scalar, any other
must be the base address plus the offset of an object record. Objects are numbered in the order of
their records, from a number that the caller gives.
-/

namespace HeapImage
set_option autoImplicit false

structure ImageGraph where
  objects : Array (Object Value)
  roots : Array Value
deriving DecidableEq

namespace Bytes

def recordsFrom (bytes : Bytes) (base pos : Nat) (found : Array Record) :
    Except Corruption (Array Record) :=
  if pos < bytes.size then
    match _ : bytes.recordAt base pos with
    | .error e => .error e
    | .ok r => recordsFrom bytes base (pos + r.size) (found.push r)
  else .ok found
termination_by bytes.size - pos
decreasing_by
  rename_i hr
  have := size_pos_of_recordAt hr
  omega

/-- All records; the last one is a terminator. -/
def records (bytes : Bytes) (base : Nat) : Except Corruption (Array Record) :=
  match bytes.recordsFrom base headerSize #[] with
  | .error e => .error e
  | .ok records =>
    if records.back?.any Record.isTerminator then .ok records else .error .missingTerminator

def checkHeader (bytes : Bytes) (declared : Nat) (aligned : Bool) : Except Corruption Unit :=
  if !aligned || bytes.size % 8 != 0 then .error .misaligned
  else if bytes.size < headerSize || bytes.word 0 != magic then .error .badMagic
  else
    let stored := bytes.word 8
    if stored % 8 ≠ 0 then .error .misaligned
    else if stored ≠ declared then .error (.baseMismatch stored declared)
    else .ok ()

end Bytes

/-- The number of each object record among the object records, by its offset. -/
abbrev RecordIndex := Std.ExtTreeMap Nat Nat

def RecordIndex.ofRecords (records : Array Record) : RecordIndex :=
  (records.foldl (fun (index, count) r =>
    if r.isTerminator then (index, count) else (index.insert r.offset count, count + 1))
    ((∅ : Std.ExtTreeMap Nat Nat), 0)).1

def RawRef.resolve (index : RecordIndex) (base first : Nat) (ref : RawRef) :
    Except Corruption Value :=
  if ref.word % 2 = 1 then
    .ok (.scalar ⟨ref.word / 2 % scalarLimit, Nat.mod_lt _ (by decide)⟩)
  else if base ≤ ref.word then
    match index[ref.word - base]? with
    | some number => .ok (.object (first + number))
    | none => .error (.dangling ref.slot ref.word)
  else .error (.dangling ref.slot ref.word)

/-- Check the references of all objects, and resolve those of the roots. Only then the objects are
read, as a cell whose contents cannot be resolved may look like one that has none. -/
def resolveAll (bytes : Bytes) (base first : Nat) (records : Array Record) :
    Except Corruption ImageGraph := do
  let index := RecordIndex.ofRecords records
  (records.toList.flatMap Record.slots).forM fun slot =>
    discard <| (Record.rawRef bytes slot).resolve index base first
  let roots ← (records.filterMap (Record.root? bytes)).mapM (RawRef.resolve index base first)
  let objects ← (records.filterMap (Record.object? bytes)).mapM fun o =>
    o.mapM (RawRef.resolve index base first)
  return ⟨objects, roots⟩

/-- Read an image that was written for the declared base address. -/
def Bytes.load (bytes : Bytes) (declared : UInt64) (aligned : Bool) (first : Nat) :
    Except Corruption ImageGraph := do
  bytes.checkHeader declared.toNat aligned
  let records ← bytes.records declared.toNat
  resolveAll bytes declared.toNat first records

end HeapImage
