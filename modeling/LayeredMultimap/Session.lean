import LayeredMultimap.Builder
import LayeredMultimap.Multimap.Inspect
import LayeredMultimap.Multimap.Operation

/-!
# Sessions

A session is a run of steps on a current multimap. Steps read and change it, put layers around it,
take them off, or build a new one in its place; a fork runs steps on the side and leaves the
current multimap as it is. Each step is answered with its report or error, its trace, and the
content of the base after it.
-/

namespace LayeredMultimap

/-- Where the mappings of a merge come from. -/
inductive Donor (E K V : Type) where
  /-- The multimap that is merged into, as it is. -/
  | self
  /-- A base map with the given mappings, and keys that get an empty bag if they have none. -/
  | plain (d : Discipline) (ps : List (K × V)) (touched : List K)
  /-- A layer around an empty base map, into which the mappings are put. -/
  | layered (l : Layer E K V) (ps : List (K × V))

/-- What becomes of the multimap that a failed recast hands back. -/
inductive Recovery where
  | keep
  | discard

/-- One call on a builder. The current multimap can be given to it, or a new one with as many
layers and the given mappings. -/
inductive BuildCall (E K V : Type) where
  | current
  | fresh (ps : List (K × V))
  | key (t : Transformer E K)
  | value (t : Transformer E V)
  | existing (b : Bool)

/-- One step of a session. A depth says how many layers further in the step acts. -/
inductive Step (E K V : Type) where
  | operate (depth : Nat) (o : Operation E K V)
  | merge (depth : Nat) (donor : Option (Donor E K V))
  | extend (depth : Nat) (ps : Source E (K × V))
  | flags (depth : Nat)
  | inspect (depth : Nat) (spread : Bool)
  | listing
  | decorate (l : Layer E K V) (existing : Bool) (recovery : Recovery)
  | unwrap
  | build (calls : List (BuildCall E K V))
  | fork (steps : List (Step E K V))

/-- What is seen of a step: its report or error, its trace, the failed recast if a multimap was
handed back, and the content of the base after it. A fork shows the answers to its steps. -/
inductive Answer (d : Discipline) (E K V : Type) where
  | step (result : Except MapError (Report K V)) (trace : List E)
    (returned : Option (RecastError (Multimap d E K V))) (content : Content d K V)
  | fork (answers : List (Answer d E K V)) (content : Content d K V)

namespace Multimap

variable {d : Discipline} {E K V : Type}

variable [DecidableEq K] [Ord K] [DecidableEq V] [Ord V]

/-- Adds drawn mappings to the bags of the base directly. -/
def extend (m : Multimap d E K V) (ps : Source E (K × V)) :
    Outcome (Multimap d E K V) E Unit :=
  ⟨.ok (), m.withContent (m.content.extend ps.items), ps.drawn⟩

/-- Merges the mappings of a donor. A donor that cannot be filled leaves the multimap alone. -/
def merge (m : Multimap d E K V) :
    Option (Donor E K V) → Outcome (Multimap d E K V) E Bool
  | none => m.putFrom? (none : Option (Multimap d E K V))
  | some .self => m.putFrom? (some m)
  | some (.plain d' ps touched) =>
    let c : Content d' K V := touched.foldl Content.touch (Content.ofMappings ps)
    m.putFrom? (some (ofContent c))
  | some (.layered l ps) =>
    let filled := (empty (d := .sequence).under l).putPairs (Source.ofList ps)
    match filled.result with
    | .ok _ => (m.putFrom? (some filled.state)).after filled.trace
    | .error e => ⟨.error e, m, filled.trace⟩

/-- The settings of a builder that calls stand for. -/
def settings (m : Multimap d E K V) (calls : List (BuildCall E K V)) :
    List (Setting d E K V) :=
  calls.map fun
    | .current => .map m
    | .fresh ps => .map ((ofContent (Content.ofMappings ps)).wrap m.depth)
    | .key t => .key t
    | .value t => .value t
    | .existing b => .existing b

end Multimap

namespace BuildCall

/-- Whether a call gives the current multimap away. -/
def takesCurrent {E K V : Type} : BuildCall E K V → Bool
  | .current => true
  | _ => false

end BuildCall

namespace Step

variable {d : Discipline} {E K V : Type} [DecidableEq K] [Ord K] [DecidableEq V] [Ord V]

/-- The answer that an outcome gives, and the multimap after it. -/
def conclude (o : Outcome (Multimap d E K V) E (Report K V)) :
    Answer d E K V × Multimap d E K V :=
  (.step o.result o.trace none o.state.content, o.state)

/-- The answer to a recast. If it has failed, the multimap that is handed back stays current, or an
empty one takes its place. -/
def concludeRecast (recovery : Recovery)
    (recast : Traced E (Except (RecastError (Multimap d E K V)) (Multimap d E K V))) :
    Answer d E K V × Multimap d E K V :=
  match recast.value with
  | .ok m => conclude ⟨.ok (.flags m.flags?), m, recast.trace⟩
  | .error e =>
    let next := match recovery with
      | .keep => e.map
      | .discard => .empty
    (.step (.error e.error) recast.trace (some e) next.content, next)

/-- Puts a layer around the current multimap. -/
def decorateWith [Logging E] (l : Layer E K V) (existing : Bool) (recovery : Recovery)
    (m : Multimap d E K V) : Answer d E K V × Multimap d E K V :=
  if existing then concludeRecast recovery (m.recast l)
  else
    let m := m.under l
    conclude ⟨.ok (.flags m.flags?), m, []⟩

/-- The answer to a build. If it has failed, the current multimap stays unless it was given away. -/
def concludeBuild (calls : List (BuildCall E K V)) (m : Multimap d E K V)
    (built : Traced E (Except MapError (Multimap d E K V))) : Answer d E K V × Multimap d E K V :=
  match built.value with
  | .ok m => conclude ⟨.ok (.flags m.flags?), m, built.trace⟩
  | .error e =>
    conclude ⟨.error e, if calls.any BuildCall.takesCurrent then .empty else m, built.trace⟩

/-- Builds a multimap in place of the current one. -/
def buildWith [Logging E] (calls : List (BuildCall E K V)) (m : Multimap d E K V) :
    Answer d E K V × Multimap d E K V :=
  concludeBuild calls m (Builder.new.setAll (m.settings calls)).build

variable [Logging E] [ToString K] [ToString V]

mutual

/-- The answer to a step and the current multimap after it. -/
def run : Step E K V → Multimap d E K V → Answer d E K V × Multimap d E K V
  | .operate n o, m => conclude (m.inside n (·.operate o))
  | .merge n donor, m => conclude (m.inside n fun m => (m.merge donor).map .flag)
  | .extend n ps, m => conclude (m.inside n fun m => (m.extend ps).map fun _ => .done)
  | .flags n, m => conclude ⟨.ok (.flags (m.peel n).flags?), m, []⟩
  | .inspect n spread, m =>
    conclude ⟨.ok (.text ((m.peel n).inspect? toString toString spread)), m, []⟩
  | .listing, m => conclude ⟨.ok (.groups m.content.listing), m, []⟩
  | .decorate l existing recovery, m => decorateWith l existing recovery m
  | .unwrap, m => conclude ⟨.ok .done, m.unwrap, []⟩
  | .build calls, m => buildWith calls m
  | .fork steps, m => (.fork (runAll steps m).1 m.content, m)

/-- The answers to the steps of a session and the current multimap after them. -/
def runAll : List (Step E K V) → Multimap d E K V → List (Answer d E K V) × Multimap d E K V
  | [], m => ([], m)
  | s :: r, m =>
    let first := run s m
    let rest := runAll r first.2
    (first.1 :: rest.1, rest.2)

end

end Step

end LayeredMultimap
