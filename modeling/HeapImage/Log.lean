import HeapImage.Image.Corruption
import HeapImage.Writer.Basic

/-!
# Log messages

What writers and regions report about themselves. Addresses depend on where things happen to be in
memory, so messages show a question mark in place of one.
-/

namespace HeapImage
set_option autoImplicit false

inductive LogLevel where
  | trace
  | debug
  | warn
deriving DecidableEq

def LogLevel.name : LogLevel → String
  | trace => "TRACE"
  | debug => "DEBUG"
  | warn => "WARN"

inductive LogEvent where
  | compacting (offset : Nat)
  /-- A root was written; `before` and `after` are sizes and counts around the call. -/
  | compacted (sizeBefore sizeAfter : Nat) (before after : Stats)
  | undone (cause : Obstacle)
  | saving (size : Nat)
  | rejected (size : Nat) (cause : Corruption)
  | loaded (size roots base : Nat)
  | releasing (size : Nat)
deriving DecidableEq

namespace LogEvent

def level : LogEvent → LogLevel
  | compacting .. => .trace
  | compacted .. => .debug
  | undone .. => .debug
  | saving .. => .debug
  | rejected .. => .warn
  | loaded .. => .debug
  | releasing .. => .trace

def text : LogEvent → String
  | compacting offset => "Compacting root Value(0x?) at offset " ++ toString offset
  | compacted sizeBefore sizeAfter before after =>
    "Compacted root " ++ toString after.roots ++ ": " ++ toString (sizeAfter - sizeBefore) ++
      " bytes, " ++ toString (after.objects - before.objects) ++ " objects, " ++
      toString (after.shared - before.shared) ++ " shared"
  | undone cause => "Compaction failed, rolled back: " ++ cause.message
  | saving size => "Saving region of " ++ toString size ++ " bytes"
  | rejected size cause =>
    "Rejected region of " ++ toString size ++ " bytes at 0x?: " ++ cause.message
  | loaded size roots base =>
    "Loaded region of " ++ toString size ++ " bytes with " ++ toString roots ++
      " roots at 0x? (base address " ++ Hex.marked base ++ ")"
  | releasing size => "Releasing region of " ++ toString size ++ " bytes at 0x?"

def line (e : LogEvent) : String := e.level.name ++ " " ++ e.text

end LogEvent
end HeapImage
