import Unmask.Definitions.Basic
import Unmask.Expansion.Value

/-!
# Outcomes of expansions

Expanding a text gives a value, and on the way some things are noticed.  The chain holds the
definitions that are being expanded, and a memory carries finished values and diagnostics from
one expansion to the next.
-/

namespace Unmask

/-- What was noticed on the way. -/
inductive Diagnostic where
  /-- A reference to a name without a value. -/
  | unresolvedReference (name : Text)
  /-- A reference to a name all of whose values are being expanded. -/
  | cyclicReference (name : Text)
  /-- A reference to a defined name that is left in the output. -/
  | ambiguousExpansion (token : Text)
deriving DecidableEq, Repr

namespace Diagnostic

def message : Diagnostic → Text
  | unresolvedReference name =>
    "UnresolvedReference: Variable \"".toList ++ name ++ "\" is not defined".toList
  | cyclicReference name =>
    "CyclicReference: Variable \"".toList ++ name ++ "\" refers back to itself".toList
  | ambiguousExpansion token =>
    "AmbiguousExpansion: \"".toList ++ token ++ "\" would expand again, review manually".toList

def add (d : Diagnostic) (ds : List Diagnostic) : List Diagnostic :=
  if d ∈ ds then ds else ds ++ [d]

end Diagnostic

/-- What a reference to an undefined name becomes. -/
inductive UnknownNames where
  /-- Nothing. -/
  | erase
  /-- The reference as it stands. -/
  | keep
deriving DecidableEq, Repr

namespace Expansion

/-- One of the values given to a name, counted from the oldest. -/
structure Generation where
  key : Text
  index : Nat
deriving DecidableEq, Repr

/-- The definitions in progress, the newest first. -/
abbrev Chain := List Generation

/-- The generation of a name that is in progress. -/
def Chain.current? (chain : Chain) (key : Text) : Option Nat :=
  (chain.find? (·.key = key)).map Generation.index

/-- A resolution with the names that were met while they were in progress. -/
structure Outcome where
  resolution : Resolution
  hits : List Text
deriving DecidableEq, Repr

namespace Outcome

/-- A text as its own value. -/
def literal (text : Text) : Outcome :=
  ⟨⟨text, false⟩, []⟩

def append (a b : Outcome) : Outcome :=
  ⟨⟨a.resolution.value ++ b.resolution.value, a.resolution.cyclic || b.resolution.cyclic⟩,
    a.hits ++ b.hits⟩

end Outcome

/-- What is carried from one expansion to the next. -/
structure Memory where
  values : List (Generation × Resolution)
  diagnostics : List Diagnostic
deriving DecidableEq, Repr

namespace Memory

def empty : Memory :=
  ⟨[], []⟩

def known? (memory : Memory) (g : Generation) : Option Resolution :=
  memory.values.lookup g

def keep (g : Generation) (r : Resolution) (memory : Memory) : Memory :=
  { memory with values := (g, r) :: memory.values }

def report (d : Diagnostic) (memory : Memory) : Memory :=
  { memory with diagnostics := d.add memory.diagnostics }

end Memory

end Expansion

end Unmask
