import HeapImage.Disk.Opened
import Std.Data.ExtTreeMap

/-!
# A disk that is called

The calls of the system for a disk and some mapped memory. Pages are mapped as copies, each at the
address behind the last one, wherever they would be welcome.
-/

namespace HeapImage
set_option autoImplicit false

structure World where
  disk : Disk := {}
  /-- Mapped memory by its address. -/
  mapped : Std.ExtTreeMap Nat Bytes := ∅
  /-- Where memory is mapped next. -/
  free : Nat := pageSize

structure Handle where
  opened : Opened
  readable : Bool

namespace World

def openFile (path : String) (access : Access) (w : World) : Except FileError Handle × World :=
  let readable := access == .read
  ((w.disk.openFile path readable).map fun opened => ⟨opened, readable⟩, w)

def map (file : Handle) (request : MapRequest) (w : World) : Except FileError Nat × World :=
  if request.ownCopy then
    match file.opened.mapPages request.offset request.length with
    | .error e => (.error e, w)
    | .ok pages =>
      (.ok w.free, { w with
        mapped := w.mapped.insert w.free pages
        free := w.free + wholePages request.length })
  else (.error .invalidArgument, w)

def writeFile (path : String) (bytes : Bytes) (w : World) : Except FileError Unit × World :=
  match w.disk.writeAll path bytes with
  | .error e => (.error e, w)
  | .ok disk => (.ok (), { w with disk := disk })

/-- The calls, with reads that deliver what the schedule says. -/
def calls (schedule : Schedule) : SystemCalls World Handle Nat where
  openFile := openFile
  fileSize file _ := .ok file.opened.size
  readAt file _ := file.opened.readAt file.readable schedule
  map := map
  address := id
  memory address length w := (w.mapped.getD address #[]).extract 0 length
  store address bytes w := { w with mapped := w.mapped.insert address bytes }
  unmap address _ w := (.ok (), { w with mapped := w.mapped.erase address })
  close _ w := w
  readFile path w := w.disk.readAll path
  writeFile := writeFile

end World
end HeapImage
