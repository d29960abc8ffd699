import HeapImage.Bytes.Excerpt
import HeapImage.Heap.Cell
import HeapImage.Heap.Listing
import HeapImage.Image.Corruption
import HeapImage.Session.Expr
import HeapImage.SystemCalls
import HeapImage.Writer.Basic

/-!
# Steps of a session

What can be asked of a session with named values, writers, regions and files, and what it answers.
-/

namespace HeapImage
set_option autoImplicit false

inductive ImageSource where
  | bytes (bytes : Bytes) (base : UInt64)
  | writer (name : String)

inductive Step where
  | bind (target : Option String) (value : Expr)
  | chain (target : Option String) (start : Expr) (count : Nat) (link : Link)
  | forget (name : String)
  | list (names : List String)
  | kindOf (name : String)
  | display (name : String)
  | child (name : String) (index : Nat) (target : Option String)
  | identical (left right : String)
  | equal (left right : String)
  | setField (name : String) (value : Expr) (index : Nat) (target : Option String)
  | force (name : String) (value : Expr)
  | resolveTask (name : String) (value : Expr)
  | resolvePromise (name : String) (value : Expr)
  | closure (name : String) (target : Option String)
  | getRef (name : String) (target : Option String)
  | setRef (name : String) (value : Expr) (target : Option String)
  | newWriter (target : String) (config : WriterConfig)
  | compact (name writer : String)
  | data (writer : String)
  | load (target : Option String) (source : ImageSource)
  /-- Load from memory that starts `shift` bytes after a multiple of eight, counting releases. -/
  | loadAt (target : Option String) (source : ImageSource) (shift : Nat) (mapped : Bool)
  | read (region : String) (target : Option String)
  | region (name : String)
  | release (region : String)
  | dropRegion (region : String)
  | save (path writer : String)
  | storeFile (path : String) (bytes : Bytes)
  | fetchFile (path : String)
  | mapFile (target : Option String) (path : String)
  | readAt (path : String) (offset : Int) (length : Nat) (exact readable : Bool)
  | mapPages (path : String) (offset : Int) (length : Nat)
  | takeLog

structure WriterView where
  size : Nat
  base : UInt64
  /-- Absent once the image has outgrown the capacity it was given at first. -/
  capacity : Option Nat
  stats : Stats

structure RegionView where
  size : Nat
  base : UInt64
  rootCount : Nat
  mapped : Bool
  /-- How often the release action was performed, for regions that count it. -/
  releases : Option Nat

inductive NameUse where
  | value
  | writer
  | region
deriving DecidableEq

inductive Failure where
  | unbound (use : NameUse) (name : String)
  | build (cause : BuildError)
  | misuse (cause : Misuse)
  | frozen (returned : Listing)
  | obstacle (cause : Obstacle) (state : WriterView)
  | corrupt (cause : Corruption) (releases : Option Nat)
  | file (cause : FileError)

def NameUse.noun : NameUse → String
  | value => "value"
  | writer => "compactor"
  | region => "region"

def Failure.message : Failure → String
  | unbound use name => "no " ++ use.noun ++ " " ++ name
  | build cause => cause.message
  | misuse cause => cause.message
  | frozen _ => RefError.frozenMessage
  | obstacle cause _ => cause.message
  | corrupt cause _ => cause.message
  | file cause => cause.message

inductive Answer where
  | kind (kind : Kind)
  | kindOf (kind : Kind) (compacted : Bool)
  | dropped (wasBound : Bool)
  | listing (listing : Listing)
  | nothing
  /-- The stored word of a scalar, and a value with its parts; either may be unshowable. -/
  | display (word : Option String) (shown : Option Shown)
  | equal (answer : Bool)
  | settled
  | handedBack (listing : Listing)
  | writer (config : Shown) (state : WriterView)
  | written (state : WriterView)
  | bytes (excerpt : Excerpt)
  | region (view : RegionView)
  | releases (count : Option Nat)
  | done
  | readAt (fileSize : Nat) (bytes : Bytes)
  | pages (bytes : Bytes)
  | log (lines : List String)

end HeapImage
