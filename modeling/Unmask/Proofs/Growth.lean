import Unmask.Proofs.Lines
import Unmask.Proofs.Review

/-!
# Later lines

A run goes from one statement to the next, and each statement only adds to what the run has recorded,
noticed and written.  So what stands on later lines never changes what the lines in front of them
came to, as long as the line break between them ends a statement.

    kept_extends          each operation on where a run stands adds to it
    run_line              a run over more lines goes on where the run over the first ones ends
    reveal_append_line    the result for more lines starts with the result for the first ones
-/

namespace Unmask.Script

namespace Transcript

theorem output_isPrefix_write (statement : Text) (t : Transcript) :
    t.output <+: (t.write statement).output := by
  unfold write
  split
  · exact List.prefix_refl _
  · exact (List.prefix_append _ _).trans (List.prefix_append _ _)
  · exact List.prefix_append _ _

end Transcript

namespace Progress

variable {settings : Settings}

/-- A run stands where it stood before or further on. -/
structure Extends (p q : Progress) : Prop where
  assignments : p.assignments <+: q.assignments
  diagnostics : p.diagnostics <+: q.diagnostics
  output : p.transcript.output <+: q.transcript.output
  cyclic : p.cyclic = true → q.cyclic = true

theorem Extends.refl (p : Progress) : Extends p p :=
  ⟨List.prefix_refl _, List.prefix_refl _, List.prefix_refl _, id⟩

/-- Each operation adds to what a run has recorded, noticed and written. -/
theorem kept_extends (p : Progress) : Kept settings (Extends p) where
  facing _ h := ⟨h.assignments, h.diagnostics, h.output, h.cyclic⟩
  expand {q q' text value} h hexpand := by
    obtain ⟨cyclic, memory, -, rfl⟩ := expand_eq_ok hexpand
    exact ⟨h.assignments, h.diagnostics.trans (Diagnostic.isPrefix_foldl_add _ _), h.output,
      fun hcyclic => by rw [h.cyclic hcyclic, Bool.true_or]⟩
  write statement h :=
    ⟨h.assignments, h.diagnostics,
      h.output.trans (Transcript.output_isPrefix_write statement _), h.cyclic⟩
  define definition h :=
    ⟨h.assignments.trans (List.prefix_append _ _), h.diagnostics, h.output, h.cyclic⟩
  separate {q} separator h := by
    refine ⟨h.assignments, h.diagnostics, ?_, h.cyclic⟩
    rw [Transcript.output_separate]
    exact h.output

theorem takeAll_append (rest rest' : List (Separator × Statement)) (p : Progress) :
    p.takeAll settings (rest ++ rest') =
      p.takeAll settings rest >>= fun q => q.takeAll settings rest' := by
  induction rest generalizing p with
  | nil => rfl
  | cons next rest ih =>
    rw [List.cons_append, takeAll, takeAll, bind_assoc]
    exact bind_congr fun q => ih q

end Progress

/-! ## Whole runs -/

/-- A run over more lines goes on behind the line break where the run over the first ones ends. -/
theorem run_line {settings : Settings} {a b : Text} (ha : Ended a) {q : Progress}
    (h : run settings (a ++ '\n' :: b) = .ok q) : ∃ p, run settings a = .ok p ∧
      p.takeAll settings ((.newline, (read b).head) :: (read b).tail) = .ok q := by
  have hbreak : Separator.first? '\n' b = some (.newline, 0) := rfl
  obtain ⟨hends, first, hfirst, hall⟩ := run_eq_ok.1 h
  rw [← ends_read_iff, read_line b hbreak ha.settled, List.drop_zero] at hends
  rw [read_line b hbreak ha.settled, List.drop_zero] at hfirst hall
  rw [Progress.takeAll_append] at hall
  obtain ⟨p, hp, hall⟩ := bind_eq_ok.1 hall
  exact ⟨p, run_eq_ok.2 ⟨ends_read_iff.1 (ends_of_append hends), first, hfirst, hp⟩, hall⟩

/-- What the run over the first lines comes to, the run over more lines adds to. -/
theorem run_line_extends {settings : Settings} {a b : Text} (ha : Ended a) {p q : Progress}
    (hp : run settings a = .ok p) (hq : run settings (a ++ '\n' :: b) = .ok q) :
    p.Extends q := by
  obtain ⟨p', hp', hall⟩ := run_line ha hq
  cases hp.symm.trans hp'
  have kept : Progress.Kept settings p.Extends := Progress.kept_extends p
  exact kept.takeAll (.refl p) hall

/--
Where no quotes are open and neither a caret nor a carriage return stands in front of the line break,
the result for more lines starts with the result for the first ones: what is assigned, what is
written and what is noticed before the review, and a cycle stays one.
-/
theorem reveal_append_line (settings : Settings) (hraw : settings.raw = true) (a b : Text)
    (hquote : '"' ∉ a) (hcaret : a.getLast? ≠ some '^') (hreturn : a.getLast? ≠ some '\r')
    (r r' : Revealed) (h : reveal settings a = .ok r)
    (h' : reveal settings (a ++ '\n' :: b) = .ok r') :
    r.assignments <+: r'.assignments ∧ r.output <+: r'.output ∧ r.noticed <+: r'.noticed ∧
      (r.cyclic = true → r'.cyclic = true) := by
  obtain ⟨p, hp, houtput, hassignments, hcyclic, hnoticed⟩ := exists_run h
  obtain ⟨q, hq, houtput', hassignments', hcyclic', hnoticed'⟩ := exists_run h'
  have hextends := run_line_extends ⟨hquote, hcaret, hreturn⟩ hp hq
  have hlaid : ∀ p : Progress, p.output settings = p.transcript.output := fun p => if_pos hraw
  rw [hassignments, hassignments', houtput, houtput', hlaid, hlaid, hnoticed, hnoticed', hcyclic,
    hcyclic']
  exact ⟨hextends.assignments, hextends.output, hextends.diagnostics, hextends.cyclic⟩

/-- The first line meets a cycle, and the second one gives the name another value. -/
theorem reveal_append_line_reassigned :
    let settings : Settings := { raw := true }
    let a := "set A=%B%&set B=%A%&echo %A%%NO% |".toList
    let b := "set A=1 & echo \"%A%\n%B%".toList
    let assignments : List Assignment := [⟨['A'], "%B%".toList, 0⟩, ⟨['B'], "%A%".toList, 1⟩]
    let diagnostics : List Diagnostic :=
      [.cyclicReference ['A'], .unresolvedReference "NO".toList]
    let r : Revealed := ⟨"echo".toList, assignments, diagnostics, true⟩
    let r' : Revealed :=
      ⟨"echo\necho \"1\n1".toList, assignments ++ [⟨['A'], ['1'], 2⟩], diagnostics, true⟩
    (settings.raw = true ∧ '"' ∉ a ∧ a.getLast? ≠ some '^' ∧ a.getLast? ≠ some '\r') ∧
      reveal settings a = .ok r ∧ reveal settings (a ++ '\n' :: b) = .ok r' ∧
      r.assignments <+: r'.assignments ∧ r.output <+: r'.output ∧ r.noticed <+: r'.noticed ∧
      (r.cyclic = true → r'.cyclic = true) := by
  intro settings a b assignments diagnostics r r'
  have hends : settings.raw = true ∧ '"' ∉ a ∧ a.getLast? ≠ some '^' ∧ a.getLast? ≠ some '\r' := by
    decide +kernel
  have h : reveal settings a = .ok r := by decide +kernel
  have h' : reveal settings (a ++ '\n' :: b) = .ok r' := by decide +kernel
  have ⟨hraw, hquote, hcaret, hreturn⟩ := hends
  exact ⟨hends, h, h', reveal_append_line settings hraw a b hquote hcaret hreturn r r' h h'⟩

end Unmask.Script
