import Unmask.Proofs.EndlessLoops

/-!
# Items of a script

A script goes from a statement over a separator to the next statement, up to a last statement.  Each
of these items has its place in the text, a statement as it stands there and a separator in one of
its spellings, and there is nothing else in the text.  What each statement defines is told for all of
them or for none, as one loop that goes on for ever keeps the items back.

    alternates_items        statements and separators take turns
    spelled_items_read      the items in order make up the text
    exists_spelled_items    the texts that are scanned, and their items
-/

namespace Unmask.Script

/-- One part of a script. -/
inductive Item where
  | statement (statement : Statement)
  | separator (separator : Separator)
deriving DecidableEq, Repr

def items (script : Script) : List Item :=
  .statement script.head ::
    script.tail.flatMap fun next => [.separator next.1, .statement next.2]

/-- From a first statement to a last one, with one separator between neighbours. -/
inductive Alternates : List Item → Prop
  | last (statement : Statement) : Alternates [.statement statement]
  | next (statement : Statement) (separator : Separator) {rest : List Item} :
      Alternates rest → Alternates (.statement statement :: .separator separator :: rest)

/-- Whether an item stands in a script as the text `spelled`. -/
def Item.IsSpelled : Item → (spelled : Text) → Prop
  | statement s, spelled => spelled = s.text
  | separator s, spelled => spelled ∈ s.sources

theorem items_cons (head : Statement) (separator : Separator) (script : Script) :
    items ⟨head, (separator, script.head) :: script.tail⟩ =
      .statement head :: .separator separator :: script.items :=
  rfl

theorem alternates_items (script : Script) : Alternates script.items := by
  obtain ⟨head, tail⟩ := script
  induction tail generalizing head with
  | nil => exact .last head
  | cons next tail ih => exact .next head next.1 (ih next.2)

/--
With one of its spellings for each separator the items of a script make up the text that was read,
all of it and in order.
-/
theorem spelled_items_read (s : Text) :
    ∃ spelled, List.Forall₂ Item.IsSpelled (read s).items spelled ∧ spelled.flatten = s := by
  induction s using read_induction with
  | last s h =>
    rw [read_last h]
    refine ⟨[(Statement.first s).text], .cons rfl .nil, ?_⟩
    rw [List.flatten_singleton]
    have htext := text_first_append s
    rwa [h, List.append_nil] at htext
  | next s c t separator width h hfirst ih =>
    obtain ⟨spelled, hspelled, hflatten⟩ := ih
    rw [read_next h hfirst, items_cons]
    refine ⟨(Statement.first s).text :: (c :: t.take width) :: spelled,
      .cons rfl (.cons (Separator.mem_sources hfirst) hspelled), ?_⟩
    rw [List.flatten_cons, List.flatten_cons, hflatten, List.cons_append, List.take_append_drop, ← h,
      text_first_append]

/--
A text is scanned exactly if none of its statements goes on for ever, and then the items take turns
and make up the text.  Any other text stops the scan at an endless loop.
-/
theorem exists_spelled_items (s : Text) :
    ((∃ script, scan s = .ok script) ↔ LoopsEnd s) ∧
      (∀ script, scan s = .ok script → Alternates script.items ∧
        ∃ spelled, List.Forall₂ Item.IsSpelled script.items spelled ∧ spelled.flatten = s) ∧
      (¬LoopsEnd s → scan s = .error .endlessLoop) := by
  refine ⟨?_, fun script h => ?_, fun hends => scan_eq_error_iff.2 ⟨hends, rfl⟩⟩
  · constructor
    · rintro ⟨script, h⟩
      exact (scan_eq_ok_iff.1 h).1
    · exact fun hends => ⟨read s, scan_eq_ok_iff.2 ⟨hends, rfl⟩⟩
  · obtain ⟨-, rfl⟩ := scan_eq_ok_iff.1 h
    exact ⟨alternates_items (read s), spelled_items_read s⟩

/-- Sixteen loops in one another, with ten items each. -/
def longText : Text :=
  ("abcdefghijklmnop".toList.flatMap fun letter =>
    "for %".toList ++ letter :: " in (1 2 3 4 5 6 7 8 9 0) do ".toList) ++ "echo".toList

/-- The endless loop has no items, alone or behind a loop of 10^16 instances. -/
theorem scan_endless :
    scan "for %y in (\"for %x in (%y) do for %u in (%u %~x) do for %y in (%x) do %~y\") do %~y".toList =
        .error .endlessLoop ∧
      scan (longText ++ '&' :: endlessText) = .error .endlessLoop := by
  refine ⟨scan_eq_error_iff.2 ⟨not_loopsEnd_endlessText, rfl⟩, scan_eq_error_iff.2 ⟨?_, rfl⟩⟩
  have hrest : (readForm (longText ++ '&' :: endlessText)).2 = '&' :: endlessText := by decide +kernel
  exact not_loopsEnd_of_behind hrest rfl not_loopsEnd_endlessText

end Unmask.Script
