import Unmask.Expansion.Basic

/-!
# Results

What is told about an input: the text behind the obfuscation, the definitions met on the way,
and what was noticed.
-/

namespace Unmask

/-- What was found out about an input. -/
structure Revealed where
  output : Text
  assignments : List Assignment
  diagnostics : List Diagnostic
  /-- Whether some reference led back to itself. -/
  cyclic : Bool
deriving DecidableEq, Repr

/-- Whether a diagnostic says that the output would expand again. -/
def Diagnostic.isAmbiguity : Diagnostic → Bool
  | ambiguousExpansion _ => true
  | _ => false

/-- Whether the output depends on how often it is expanded. -/
def Revealed.isAmbiguous (r : Revealed) : Bool :=
  r.diagnostics.any Diagnostic.isAmbiguity

end Unmask
