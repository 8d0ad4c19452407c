import Unmask.Expansion.Basic
import Unmask.Template.Fragment
import Unmask.Text.ByteLength

/-!
# Expansion

Expanding a text puts the value of its variable for each reference.  A value is itself a text
with references and is expanded first.

## Algorithm

A name on the chain stands for the value it had before the one in progress, and where there is
none the reference is a cycle, worth nothing.  So no chain is longer than the number of
definitions, which bounds the depth.

A finished value is kept in the memory if none of the names met again while it was expanded
belongs to the chain above it.
-/

namespace Unmask.Expansion

/-- The most bytes an expansion may have. -/
def limit : Nat := 8191

/-- What references are expanded against. -/
structure Scope where
  definitions : Definitions
  dialect : Dialect
  unknownNames : UnknownNames

/-- What a name stands for under a chain. -/
inductive Finding where
  /-- The name has no value. -/
  | unknown
  /-- Every value of the name is in progress. -/
  | exhausted (key : Text)
  /-- The value to expand, and whether a newer one is in progress. -/
  | value (generation : Generation) (text : Text) (hit : Bool)
deriving DecidableEq, Repr

/-- How the text of a definition is expanded under the chain that it heads. -/
abbrev Descent := Chain → Text → Memory → Except Fault (Outcome × Memory)

namespace Scope

/-- Looks a name up: the newest value, or the one before the value in progress. -/
def find (scope : Scope) (chain : Chain) (name : Text) : Finding :=
  let key := Definitions.key name
  let values := scope.definitions.valuesOf key
  let (index, hit) :=
    match chain.current? key with
    | none => (values.length, false)
    | some index => (index, true)
  match index with
  | 0 => if hit then .exhausted key else .unknown
  | index + 1 =>
    match values[index]? with
    | none => .unknown
    | some text => .value ⟨key, index⟩ text hit

def missing (scope : Scope) (token : Text) (r : Reference) (memory : Memory) : Outcome × Memory :=
  match r.modifier with
  | .fallback text => (.literal text, memory)
  | _ =>
    (.literal (if scope.unknownNames = .keep then token else []),
      memory.report (.unresolvedReference r.name))

def resolveWith (descend : Descent) (scope : Scope) (chain : Chain) (token : Text) (r : Reference)
    (memory : Memory) : Except Fault (Outcome × Memory) :=
  match scope.find chain r.name with
  | .unknown => .ok (scope.missing token r memory)
  | .exhausted key =>
    .ok (⟨r.modifier.apply ⟨[], true⟩, [key]⟩, memory.report (.cyclicReference r.name))
  | .value g text hit =>
    let hits := if hit then [g.key] else []
    match memory.known? g with
    | some known => .ok (⟨r.modifier.apply known, hits⟩, memory)
    | none => do
      let (inner, memory) ← descend (g :: chain) text memory
      let independent := inner.hits.all fun key => key = g.key || (chain.current? key).isNone
      let memory := if independent then memory.keep g inner.resolution else memory
      return (⟨r.modifier.apply inner.resolution, hits ++ inner.hits⟩, memory)

def expandPieceWith (descend : Descent) (scope : Scope) (chain : Chain) (piece : Piece)
    (memory : Memory) : Except Fault (Outcome × Memory) :=
  match piece.expr with
  | .literal text => .ok (.literal text, memory)
  | .reference r => scope.resolveWith descend chain piece.token r memory

/--
Expands the pieces of a template up to `budget` bytes; what lies behind the cut is not looked
at.
-/
def expandPiecesWith (descend : Descent) (scope : Scope) (chain : Chain) :
    (budget : Nat) → Template → Memory → Except Fault (Outcome × Memory)
  | _, [], memory => .ok (.literal [], memory)
  | budget, piece :: pieces, memory => do
    let (head, memory) ← scope.expandPieceWith descend chain piece memory
    let size := Text.byteLength head.resolution.value
    if budget < size then
      let value := Text.takeBytes budget head.resolution.value
      return ({ head with resolution := { head.resolution with value } }, memory)
    else
      let (tail, memory) ← scope.expandPiecesWith descend chain (budget - size) pieces memory
      return (head.append tail, memory)

/-- Expands the text of a definition, following at most `depth` definitions one inside the other. -/
def descend (scope : Scope) : (depth : Nat) → Descent
  | 0, _, _, memory => .ok (.literal [], memory)
  | depth + 1, chain, text, memory => do
    let template ← Template.read scope.dialect text
    scope.expandPiecesWith (scope.descend depth) chain limit template memory

/-- Resolves a reference that was written as `token`, outside of any definition. -/
def resolve (scope : Scope) (token : Text) (r : Reference) (memory : Memory) :
    Except Fault (Resolution × Memory) := do
  let (outcome, memory) ←
    scope.resolveWith (scope.descend scope.definitions.total) [] token r memory
  return (outcome.resolution, memory)

def expandTemplate (scope : Scope) (template : Template) (memory : Memory) :
    Except Fault (Resolution × Memory) := do
  let (outcome, memory) ←
    scope.expandPiecesWith (scope.descend scope.definitions.total) [] limit template memory
  return (outcome.resolution, memory)

/-- Reads a text as a template and expands it. -/
def expand (scope : Scope) (text : Text) (memory : Memory) :
    Except Fault (Resolution × Memory) := do
  let template ← Template.read scope.dialect text
  scope.expandTemplate template memory

/-- The tokens of the references in a text whose names are defined. -/
def liveReferences (scope : Scope) (text : Text) : Except Fault (List Text) := do
  let template ← Template.read scope.dialect text
  return template.filterMap fun piece =>
    match piece.expr with
    | .literal _ => none
    | .reference r => if scope.definitions.contains r.name then some piece.token else none

end Scope

end Unmask.Expansion
