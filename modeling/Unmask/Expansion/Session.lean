import Unmask.Expansion.Scope

/-!
# Sessions

Several things can be asked of one scope in turn, and the memory goes from each to the next.
-/

namespace Unmask.Expansion

/-- One thing asked of a scope. -/
inductive Step where
  /-- A text to expand. -/
  | expand (text : Text)
  /-- A text to expand whose own references are written in a given dialect. -/
  | expandAs (dialect : Dialect) (text : Text)
  /-- A single piece of a template. -/
  | resolve (expr : Expr)
deriving DecidableEq, Repr

namespace Scope

def step (scope : Scope) : Step → Memory → Except Fault (Resolution × Memory)
  | .expand text, memory => scope.expand text memory
  | .expandAs dialect text, memory => do
    let template ← Template.read dialect text
    scope.expandTemplate template memory
  | .resolve (.literal text), memory => .ok (⟨text, false⟩, memory)
  | .resolve (.reference r), memory => scope.resolve r.toText r memory

def run (scope : Scope) : List Step → Memory → Except Fault Memory
  | [], memory => .ok memory
  | step :: steps, memory => do
    let (_, memory) ← scope.step step memory
    scope.run steps memory

end Scope

end Unmask.Expansion
