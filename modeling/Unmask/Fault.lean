/-!
# Faults

What stops a run without a result.
-/

namespace Unmask

/-- What stops a run. -/
inductive Fault where
  /-- An offset of -2^63 stood behind a minus sign. -/
  | offsetOverflow
  /-- A loop goes on for ever, and the run with it. -/
  | endlessLoop
deriving DecidableEq, Repr

/-- The wording of a fault.  No run gets as far as telling that it goes on for ever. -/
def Fault.message : Fault → String
  | .offsetOverflow => "attempt to negate with overflow"
  | .endlessLoop => "a loop goes on for ever"

end Unmask
