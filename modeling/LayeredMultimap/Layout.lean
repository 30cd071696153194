/-!
# Layouts

A layout is text with nested blocks. It can be written on one line, or with each item of a block on
lines of its own. In the second form every line inside a block starts with four more spaces; that
includes lines which begin in the middle of an item's text.
-/

namespace LayeredMultimap

/-- Text with nested blocks. The padding stands inside the delimiters when a block is written on one
line. -/
inductive Layout where
  | text (s : String)
  | labelled (label : String) (body : Layout)
  | block (opening padding : String) (items : List Layout) (closing : String)

namespace Layout

/-- Puts four spaces in front of every line. The flag says whether a line is about to start. -/
def indent : Bool → List Char → List Char
  | _, [] => []
  | true, c :: cs => ' ' :: ' ' :: ' ' :: ' ' :: c :: indent (c == '\n') cs
  | false, c :: cs => c :: indent (c == '\n') cs

/-- The text of a block on lines of its own, from the texts of its items. -/
def spread (opening closing : String) (items : List String) : String :=
  match items with
  | [] => opening ++ closing
  | items =>
    let lines := items.map fun s => String.ofList (indent true (s ++ ",\n").toList)
    opening ++ "\n" ++ String.join lines ++ closing

mutual

/-- The layout on one line. -/
def flat : Layout → String
  | .text s => s
  | .labelled label body => label ++ ": " ++ body.flat
  | .block opening padding items closing =>
    opening ++ padding ++ ", ".intercalate (flats items) ++ padding ++ closing

def flats : List Layout → List String
  | [] => []
  | i :: is => i.flat :: flats is

end

mutual

/-- The layout with every item on lines of its own. -/
def pretty : Layout → String
  | .text s => s
  | .labelled label body => label ++ ": " ++ body.pretty
  | .block opening _ items closing => spread opening closing (pretties items)

def pretties : List Layout → List String
  | [] => []
  | i :: is => i.pretty :: pretties is

end

end Layout

end LayeredMultimap
