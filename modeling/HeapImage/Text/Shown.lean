/-!
# Shown values

Values as trees of names, fields and lists, and their two printed forms: on one line, or with one
item a line, indented by four blanks and followed by a comma.
-/

namespace HeapImage
set_option autoImplicit false

inductive Shown where
  | atom (text : String)
  | list (items : List Shown)
  | tuple (name : String) (items : List Shown)
  | record (name : String) (labels : List String) (items : List Shown)

namespace Shown

def ofNat (n : Nat) : Shown := atom (toString n)

def ofBool (b : Bool) : Shown := atom (if b then "true" else "false")

def ofOption : Option Shown → Shown
  | none => atom "None"
  | some item => tuple "Some" [item]

def labelled (label text : String) : String := label ++ ": " ++ text

mutual

def inline : Shown → String
  | atom text => text
  | list items => "[" ++ ", ".intercalate (inlineAll items) ++ "]"
  | tuple name items => name ++ "(" ++ ", ".intercalate (inlineAll items) ++ ")"
  | record name labels items =>
    name ++ " \x7b " ++ ", ".intercalate (labels.zipWith labelled (inlineAll items)) ++ " \x7d"

def inlineAll : List Shown → List String
  | [] => []
  | item :: rest => inline item :: inlineAll rest

end

/-- The lines of an item inside a larger one. -/
def nested : List String → List String
  | [] => []
  | [last] => ["    " ++ last ++ ","]
  | line :: rest => ("    " ++ line) :: nested rest

def labelledLines (label : String) : List String → List String
  | [] => []
  | line :: rest => labelled label line :: rest

mutual

def lines : Shown → List String
  | atom text => [text]
  | list [] => ["[]"]
  | list (item :: rest) => "[" :: (nested (lines item) ++ (linesAll rest).flatMap nested) ++ ["]"]
  | tuple name items => (name ++ "(") :: (linesAll items).flatMap nested ++ [")"]
  | record name labels items =>
    (name ++ " \x7b") ::
      (labels.zipWith labelledLines (linesAll items)).flatMap nested ++ ["\x7d"]

def linesAll : List Shown → List (List String)
  | [] => []
  | item :: rest => lines item :: linesAll rest

end

def pretty (s : Shown) : String := "\n".intercalate s.lines

end Shown
end HeapImage
