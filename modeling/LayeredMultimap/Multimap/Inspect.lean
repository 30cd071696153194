import LayeredMultimap.Layout
import LayeredMultimap.Multimap

/-!
# Inspecting a multimap

The text that shows a multimap with its layers, for debugging. It is given only where it does not
hang on an order that a multimap leaves open: the order of keys, and the order inside a distinct
bag.
-/

namespace LayeredMultimap

variable {d : Discipline} {E K V : Type}

/-- A bag between brackets if it is a sequence, else between braces. -/
def Bag.layout [Ord V] (showValue : V → String) (b : Bag d V) : Layout :=
  let items := b.toList.map fun v => .text (showValue v)
  match d with
  | .sequence => .block "[" "" items "]"
  | .distinct | .ascending => .block "\x7b" "" items "\x7d"

/-- A transformer shows only whether it is there. -/
def Transformer.layout? {α : Type} : Option (Transformer E α) → Layout
  | none => .text "None"
  | some _ => .block "Some(" "" [.text "T"] ")"

namespace Multimap

variable [Ord V]

/-- The layers from the outermost to the base, and the content with keys whose bag is empty. -/
def layout (showKey : K → String) (showValue : V → String) : Multimap d E K V → Layout
  | .base b =>
    let entry (e : K × Bag d V) : Layout := .labelled (showKey e.1) (e.2.layout showValue)
    .block "\x7b" "" (b.content.entries.map entry) "\x7d"
  | .layered l m =>
    .block "TransformedMultiValuedMap \x7b" " "
      [.labelled "decorated" (m.layout showKey showValue),
        .labelled "key_transformer" (Transformer.layout? l.key),
        .labelled "value_transformer" (Transformer.layout? l.value)]
      "\x7d"

/-- Whether the text of a multimap is the same for all orders that are left open. -/
def isInspectable (m : Multimap d E K V) : Bool :=
  decide (m.content.entries.length ≤ 1) &&
    (d != .distinct || m.content.entries.all fun e => decide (e.2.size ≤ 1))

/-- The text that shows a multimap, on one line or on many. -/
def inspect? (showKey : K → String) (showValue : V → String) (spread : Bool)
    (m : Multimap d E K V) : Option String :=
  if m.isInspectable then
    let l := m.layout showKey showValue
    some (if spread then l.pretty else l.flat)
  else none

end Multimap

end LayeredMultimap
