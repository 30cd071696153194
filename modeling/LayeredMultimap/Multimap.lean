import LayeredMultimap.Base
import LayeredMultimap.Layer

/-!
# Layered multimaps

A multimap is a base map or a layer around another multimap. Reads and removals go to the base
with their arguments as given; what is put passes the layers from the outermost to the innermost
on its way to the base.
-/

namespace LayeredMultimap

/-- A base map under any number of layers. -/
inductive Multimap (d : Discipline) (E K V : Type) where
  | base (b : Base d E K V)
  | layered (l : Layer E K V) (inner : Multimap d E K V)

namespace Multimap

variable {d : Discipline} {E K V : Type}

/-! ## The parts of a multimap -/

/-- The base under all layers. -/
def root : Multimap d E K V → Base d E K V
  | .base b => b
  | .layered _ m => m.root

/-- What the base holds. -/
def content (m : Multimap d E K V) : Content d K V := m.root.content

/-- The number of layers. -/
def depth : Multimap d E K V → Nat
  | .base _ => 0
  | .layered _ m => m.depth + 1

/-- The outermost layer, as far as insertions can tell: a base transforms nothing. -/
def outer : Multimap d E K V → Layer E K V
  | .base _ => .empty
  | .layered l _ => l

/-- Which transformers the outermost layer has; nothing for a base. -/
def flags? : Multimap d E K V → Option (Bool × Bool)
  | .base _ => none
  | .layered l _ => some l.flags

/-- The multimap without its outermost layer; a base stays as it is. -/
def unwrap : Multimap d E K V → Multimap d E K V
  | .base b => .base b
  | .layered _ m => m

/-- Adds layers that transform nothing. -/
def wrap : Nat → Multimap d E K V → Multimap d E K V
  | 0, m => m
  | n + 1, m => .layered .empty (m.wrap n)

/-- The base map that holds the content and refuses nothing. -/
def ofContent (c : Content d K V) : Multimap d E K V := .base (.ofContent c)

/-- An empty base map that refuses nothing. -/
def empty : Multimap d E K V := ofContent .empty

/-- Operates on the multimap so many layers further in, or on the base if there are fewer. -/
def inside {α : Type} (m : Multimap d E K V) (n : Nat)
    (f : Multimap d E K V → Outcome (Multimap d E K V) E α) : Outcome (Multimap d E K V) E α :=
  match n, m with
  | 0, m => f m
  | _ + 1, .base b => f (.base b)
  | n + 1, .layered l m => (m.inside n f).mapState (.layered l)

/-- The multimap so many layers further in, or the base if there are fewer. -/
def peel : Nat → Multimap d E K V → Multimap d E K V
  | 0, m => m
  | n + 1, m => m.unwrap.peel n

/-- The same layers and the same rule around another content. -/
def withContent (m : Multimap d E K V) (c : Content d K V) : Multimap d E K V :=
  match m with
  | .base b => .base { b with content := c }
  | .layered l m => .layered l (m.withContent c)

/-- Operates on the content of the base. -/
def onContent {α : Type} (m : Multimap d E K V)
    (f : Content d K V → Outcome (Content d K V) E α) : Outcome (Multimap d E K V) E α :=
  (f m.content).mapState m.withContent

/-- Changes the content of the base and reports on the change. -/
def modify {α : Type} (m : Multimap d E K V) (f : Content d K V → α × Content d K V) :
    α × Multimap d E K V :=
  ((f m.content).1, m.withContent (f m.content).2)

@[simp] theorem content_base (b : Base d E K V) :
    (base b : Multimap d E K V).content = b.content := rfl

@[simp] theorem content_layered (l : Layer E K V) (m : Multimap d E K V) :
    (layered l m).content = m.content := rfl

@[simp] theorem content_withContent (m : Multimap d E K V) (c : Content d K V) :
    (m.withContent c).content = c := by
  induction m with
  | base b => rfl
  | layered l m ih => exact ih

@[simp] theorem withContent_content (m : Multimap d E K V) : m.withContent m.content = m := by
  induction m with
  | base b => rfl
  | layered l m ih => exact congrArg (layered l) ih

@[simp] theorem withContent_withContent (m : Multimap d E K V) (c c' : Content d K V) :
    (m.withContent c).withContent c' = m.withContent c' := by
  induction m with
  | base b => rfl
  | layered l m ih => exact congrArg (layered l) ih

theorem onContent_withContent {α : Type} (m : Multimap d E K V) (c : Content d K V)
    (f : Content d K V → Outcome (Content d K V) E α) :
    (m.withContent c).onContent f = (f c).mapState m.withContent := by
  have hback : (m.withContent c).withContent = m.withContent :=
    funext fun c' => m.withContent_withContent c c'
  rw [onContent, content_withContent, hback]

/-! ## Reads

Every read is one of the content of the base, so a layer forwards it to the multimap inside. -/

def size (m : Multimap d E K V) : Nat := m.content.size

def isEmpty (m : Multimap d E K V) : Bool := m.content.isEmpty

def keyCount (m : Multimap d E K V) : Nat := m.content.keyCount

def keys (m : Multimap d E K V) : List K := m.content.keys

def containsValue [DecidableEq V] (m : Multimap d E K V) (v : V) : Bool :=
  m.content.containsValue v

def mappings [Ord V] (m : Multimap d E K V) : List (K × V) := m.content.mappings

def values [Ord V] (m : Multimap d E K V) : List V := m.content.values

section

variable (l : Layer E K V) (m : Multimap d E K V)

@[simp] theorem size_layered : (layered l m).size = m.size := rfl

@[simp] theorem isEmpty_layered : (layered l m).isEmpty = m.isEmpty := rfl

@[simp] theorem keyCount_layered : (layered l m).keyCount = m.keyCount := rfl

@[simp] theorem keys_layered : (layered l m).keys = m.keys := rfl

@[simp] theorem containsValue_layered [DecidableEq V] (v : V) :
    (layered l m).containsValue v = m.containsValue v := rfl

@[simp] theorem mappings_layered [Ord V] : (layered l m).mappings = m.mappings := rfl

@[simp] theorem values_layered [Ord V] : (layered l m).values = m.values := rfl

end

section Lookup

variable [Ord K]

def get? (m : Multimap d E K V) (k : K) : Option (Bag d V) := m.content.get? k

def containsKey (m : Multimap d E K V) (k : K) : Bool := m.content.containsKey k

def containsMapping [DecidableEq V] (m : Multimap d E K V) (k : K) (v : V) : Bool :=
  m.content.containsMapping k v

section

variable (l : Layer E K V) (m : Multimap d E K V)

@[simp] theorem get?_layered (k : K) : (layered l m).get? k = m.get? k := rfl

@[simp] theorem containsKey_layered (k : K) : (layered l m).containsKey k = m.containsKey k := rfl

@[simp] theorem containsMapping_layered [DecidableEq V] (k : K) (v : V) :
    (layered l m).containsMapping k v = m.containsMapping k v := rfl

end

/-! ## Removals

A removal acts on the content of the base with its arguments as given; a layer forwards it. -/

def remove (m : Multimap d E K V) (k : K) : Option (Bag d V) × Multimap d E K V :=
  m.modify fun c => c.remove k

def removeMapping [DecidableEq V] (m : Multimap d E K V) (k : K) (v : V) :
    Bool × Multimap d E K V :=
  m.modify fun c => c.removeMapping k v

def clear (m : Multimap d E K V) : Multimap d E K V := m.withContent .empty

def drain (m : Multimap d E K V) : List (K × Bag d V) × Multimap d E K V :=
  m.modify fun c => c.drain

section

variable (l : Layer E K V) (m : Multimap d E K V)

@[simp] theorem remove_layered (k : K) :
    (layered l m).remove k = (m.remove k).map id (layered l) := rfl

@[simp] theorem removeMapping_layered [DecidableEq V] (k : K) (v : V) :
    (layered l m).removeMapping k v = (m.removeMapping k v).map id (layered l) := rfl

omit [Ord K] in
@[simp] theorem clear_layered : (layered l m).clear = layered l m.clear := rfl

omit [Ord K] in
@[simp] theorem drain_layered : (layered l m).drain = m.drain.map id (layered l) := rfl

end

/-! ## Insertions -/

variable [DecidableEq V] [Ord V]

/-- Edits the bag of a key directly. No layer sees the values, and nothing is refused. -/
def edit (m : Multimap d E K V) (k : K) (es : List (Edit V)) :
    List (Reply V) × Multimap d E K V :=
  m.modify fun c => c.edit k es

@[simp] theorem edit_layered (l : Layer E K V) (m : Multimap d E K V) (k : K)
    (es : List (Edit V)) : (layered l m).edit k es = (m.edit k es).map id (layered l) := rfl

variable [DecidableEq K]

/-- Puts a mapping: every layer transforms it in turn, and the base stores or refuses what
arrives. A failure on the way changes nothing. -/
def put (m : Multimap d E K V) (k : K) (v : V) : Outcome (Multimap d E K V) E Bool :=
  match m with
  | .base b => (b.put k v).mapState .base
  | .layered l m =>
    (Outcome.ofAttempt (l.pass k v) (.layered l m)).andThen fun p _ =>
      (m.put p.1 p.2).mapState (.layered l)

end Lookup

end Multimap

end LayeredMultimap
