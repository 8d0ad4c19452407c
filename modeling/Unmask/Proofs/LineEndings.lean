import Unmask.Proofs.ScriptAlphabets

/-!
# Line endings

A line feed ends a statement with or without a carriage return in front of it, but a caret takes one
character only.  So where a caret stands at the end of a line, it makes a lone line feed ordinary; of
a carriage return and a line feed it takes the carriage return, and the line feed ends the statement.
Elsewhere the two ways to end a line make no difference.

    escapes_withReturns      where a caret stands in front of an end of line
    read_withReturns_iff     when a script is the same with both ends of line
-/

namespace Unmask.Script

def withReturns (s : Text) : Text :=
  Text.replaceMark '\n' ['\r', '\n'] s

/-! ## Carets -/

namespace Mode

/-- Whether a caret makes a character `mark` of the text ordinary. -/
def escapes (mark : Char) : Mode → Text → Bool
  | _, [] => false
  | mode, c :: s => mode == escaped && c == mark || escapes mark (mode.next c) s

variable {mark : Char}

theorem escapes_append (mode : Mode) (s t : Text) :
    mode.escapes mark (s ++ t) = (mode.escapes mark s || (s.foldl next mode).escapes mark t) := by
  induction s generalizing mode with
  | nil => rfl
  | cons c s ih => rw [List.cons_append, escapes, escapes, ih, Bool.or_assoc, List.foldl_cons]

theorem escapes_of_notMem {s : Text} (hs : mark ∉ s) (mode : Mode) :
    mode.escapes mark s = false := by
  induction s generalizing mode with
  | nil => rfl
  | cons c s ih =>
    rw [List.mem_cons, not_or] at hs
    rw [escapes, ih hs.2, Bool.or_false, beq_eq_false_iff_ne.2 (Ne.symm hs.1), Bool.and_false]

/-- The carets in front of line feeds stand in front of carriage returns then. -/
theorem escapes_withReturns {s : Text} (hs : '\r' ∉ s) (mode : Mode) :
    mode.escapes '\r' (withReturns s) = mode.escapes '\n' s := by
  unfold withReturns
  induction s generalizing mode with
  | nil => rfl
  | cons c s ih =>
    rw [List.mem_cons, not_or] at hs
    by_cases hc : c = '\n'
    · subst hc
      rw [Text.replaceMark_mark, List.cons_append, List.singleton_append, escapes, escapes, ih hs.2,
        escapes]
      cases mode <;> rfl
    · rw [Text.replaceMark_cons hc, escapes, escapes, ih hs.2,
        beq_eq_false_iff_ne.2 (Ne.symm hs.1), beq_eq_false_iff_ne.2 hc]

end Mode

/-! ## Scripts -/

theorem escapes_separator {c : Char} {s : Text} {separator : Separator} {width : Nat}
    (h : Separator.first? c s = some (separator, width)) :
    Mode.plain.escapes '\r' (c :: s.take width) = false := by
  have hspellings : (Separator.spellings.all fun p => !Mode.plain.escapes '\r' p) = true := by decide
  simpa using List.all_eq_true.1 hspellings _ (Separator.mem_spellings h)

/-- What a caret makes ordinary is part of a statement. -/
theorem escapes_of_statements {s : Text} (hquote : '"' ∉ s)
    (h : ∀ statement ∈ (read s).statements, '\r' ∉ statement.text) :
    Mode.plain.escapes '\r' s = false := by
  induction s using read_induction with
  | last s hrest =>
    have hhead : '\r' ∉ (Statement.first s).text := h _ (by rw [read_last hrest]; exact List.mem_cons_self)
    have htext := text_first_append s
    rw [hrest, List.append_nil] at htext
    rw [htext] at hhead
    exact Mode.escapes_of_notMem hhead _
  | next s c t separator width hrest hfirst ih =>
    rw [read_next hrest hfirst] at h
    have htext := text_first_append s
    rw [hrest, ← List.take_append_drop width t, ← List.cons_append] at htext
    have hplain := foldl_text_first hquote (by rw [hrest]; exact List.cons_ne_nil _ _)
    have hhead : '\r' ∉ (Statement.first s).text := h _ List.mem_cons_self
    have hbehind : Mode.plain.escapes '\r' (t.drop width) = false := by
      refine ih (fun hmem => hquote ?_) fun statement hmem => h statement (List.mem_cons_of_mem _ hmem)
      rw [← htext]
      exact List.mem_append_right _ (List.mem_append_right _ hmem)
    rw [← htext, Mode.escapes_append, Mode.escapes_append, hplain, foldl_separator hfirst,
      Mode.escapes_of_notMem hhead, escapes_separator hfirst, hbehind]
    rfl

/-- Where no caret stands in front of a line feed, a carriage return in front of it adds nothing. -/
theorem read_withReturns {s : Text} (hquote : '"' ∉ s) (hreturn : '\r' ∉ s)
    (h : Mode.plain.escapes '\n' s = false) : read (withReturns s) = read s := by
  unfold withReturns
  -- by induction on the length, line by line
  generalize hn : s.length = n
  induction n using Nat.strongRecOn generalizing s with
  | ind n ih =>
    by_cases hfeed : '\n' ∈ s
    · obtain ⟨a, b, rfl, ha⟩ := List.eq_append_cons_of_mem hfeed
      rw [List.mem_append, not_or, List.mem_cons, not_or] at hquote hreturn
      rw [Mode.escapes_append, Bool.or_eq_false_iff, Mode.escapes, Bool.or_eq_false_iff] at h
      have hplain : a.foldl Mode.next .plain = .plain := by
        cases hmode : a.foldl Mode.next .plain with
        | plain => rfl
        | quoted => exact absurd hmode (Mode.foldl_next_ne_quoted hquote.1 (by decide))
        | escaped =>
          rw [hmode] at h
          exact absurd h.2.1 (by decide)
      have hlast : a.getLast? ≠ some '\r' := fun hlast =>
        hreturn.1 (List.mem_of_getLast? hlast)
      have hb : read (Text.replaceMark '\n' ['\r', '\n'] b) = read b := by
        rw [hplain] at h
        refine ih b.length ?_ hquote.2.2 hreturn.2.2 h.2.2 rfl
        rw [List.length_append, List.length_cons] at hn
        omega
      have hfirst : Separator.first? '\n' b = some (.newline, 0) := rfl
      have hfirst' : Separator.first? '\r' ('\n' :: Text.replaceMark '\n' ['\r', '\n'] b) =
          some (.newline, 1) := rfl
      rw [Text.replaceMark_append, Text.replaceMark_mark, Text.replaceMark_eq_self ha,
        List.cons_append, List.singleton_append, read_line b hfirst ⟨hquote.1, hplain, fun _ => hlast⟩,
        read_line _ hfirst' ⟨hquote.1, hplain, fun hmark => absurd hmark (by decide)⟩]
      rw [List.drop_zero, List.drop_succ_cons, List.drop_zero, hb]
    · rw [Text.replaceMark_eq_self hfeed]

/--
Without quotes and carriage returns, a text is the same script with a carriage return in front of
each line feed if and only if no caret makes a line feed ordinary.
-/
theorem read_withReturns_iff (s : Text) (hquote : '"' ∉ s) (hreturn : '\r' ∉ s) :
    read (withReturns s) = read s ↔ Mode.plain.escapes '\n' s = false := by
  refine ⟨fun h => ?_, read_withReturns hquote hreturn⟩
  have hquoteless : Text.Over (· ≠ '"') s := fun c hc hquote' => hquote (hquote' ▸ hc)
  have hquote' : '"' ∉ withReturns s := fun hmem =>
    hquoteless.replaceMark (by simp [Text.Over]) '"' hmem rfl
  have hover : Text.Over (· ≠ '\r') s := fun c hc hreturn' => hreturn (hreturn' ▸ hc)
  rw [← Mode.escapes_withReturns hreturn]
  refine escapes_of_statements hquote' fun statement hmem hmem' => ?_
  rw [h] at hmem
  exact (statements_over hover statement hmem).text '\r' hmem' rfl

/-- Of two carets the first one makes the second one ordinary, and the line ends behind them. -/
theorem read_withReturns_caretPair :
    let s := "set A=1^^\n@for %i in (x,y^) do set %i=%A%^&2 | more\necho ^|%A%&cmd /c exit^\t\n".toList
    ('"' ∉ s ∧ '\r' ∉ s) ∧ (read s).statements.length = 6 ∧ read (withReturns s) = read s := by
  intro s
  have hs : '"' ∉ s ∧ '\r' ∉ s := by decide +kernel
  have hescapes : Mode.plain.escapes '\n' s = false := by decide +kernel
  exact ⟨hs, by decide +kernel, (read_withReturns_iff s hs.1 hs.2).2 hescapes⟩

/-- With a caret at the end of a line there is one assignment, or there are two. -/
theorem read_withReturns_caretLine :
    let s := "set A=1^\nset B=2".toList
    ('"' ∉ s ∧ '\r' ∉ s) ∧ Mode.plain.escapes '\n' s = true ∧
      (read s).statements.map Statement.kind = [.assignment ['A'] "1^\nset B=2".toList] ∧
      (read (withReturns s)).statements.map Statement.kind =
        [.assignment ['A'] "1^".toList, .assignment ['B'] ['2']] := by
  decide +kernel

end Unmask.Script
