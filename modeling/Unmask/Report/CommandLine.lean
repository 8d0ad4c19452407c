import Unmask.Report.Json

/-!
# Command lines of reports

A report on a shortcut file tells the arguments of the command that the shortcut runs.
-/

namespace Unmask.Report

/-- The arguments in a report, unless they are missing or blank. -/
def arguments? (report : Json) : Option Text := do
  let data ← report.member? "data"
  let value ← data.member? "command_line_arguments"
  let text ← value.string?
  if (Text.trim text).isEmpty then none else some text

end Unmask.Report
