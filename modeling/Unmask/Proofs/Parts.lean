import Unmask.Text.Basic

/-!
# Parts of a text

A text is cut at the characters of a class, or at the occurrences of another text.  Its parts with
what stands between them make it up again, and what is put together from lines has these lines.
What is said of characters is said of bytes as well.

    join_fields     the lines of a text make it up
    fields_join     the lines of what is put together from lines
    join_splitOn    the parts between the occurrences of a text make it up
-/

namespace Unmask.Text

variable {α : Type}

/-! ## Putting together -/

theorem join_consFirst (sep : List α) (c : α) {parts : List (List α)} (h : parts ≠ []) :
    join sep (consFirst c parts) = c :: join sep parts := by
  cases parts with
  | nil => exact absurd rfl h
  | cons part parts => cases parts <;> rfl

theorem join_cons (sep part : List α) {parts : List (List α)} (h : parts ≠ []) :
    join sep (part :: parts) = part ++ sep ++ join sep parts := by
  cases parts with
  | nil => exact absurd rfl h
  | cons next parts => rfl

theorem join_append (sep : List α) {parts parts' : List (List α)} (h : parts ≠ []) (h' : parts' ≠ []) :
    join sep (parts ++ parts') = join sep parts ++ sep ++ join sep parts' := by
  induction parts with
  | nil => exact absurd rfl h
  | cons part parts ih =>
    by_cases hne : parts = []
    · subst hne
      exact join_cons sep part h'
    · rw [List.cons_append, join_cons _ _ (List.append_ne_nil_of_left_ne_nil hne _), ih hne,
        join_cons _ _ hne]
      simp only [List.append_assoc]

theorem consFirst_ne_nil (c : α) (parts : List (List α)) : consFirst c parts ≠ [] := by
  cases parts <;> exact List.cons_ne_nil _ _

/-! ## Cutting at characters -/

section

variable {stop : α → Bool}

theorem fields_ne_nil (stop : α → Bool) (s : List α) : fields stop s ≠ [] := by
  cases s with
  | nil => exact List.cons_ne_nil _ _
  | cons c s =>
    rw [fields]
    split
    · exact List.cons_ne_nil _ _
    · exact consFirst_ne_nil _ _

theorem fields_append_stop {c : α} (hc : stop c = true) (s t : List α) :
    fields stop (s ++ c :: t) = fields stop s ++ fields stop t := by
  induction s with
  | nil =>
    rw [List.nil_append, fields.eq_2, if_pos hc]
    rfl
  | cons a s ih =>
    rw [List.cons_append, fields.eq_2, ih, fields.eq_2]
    split
    · rfl
    · cases hs : fields stop s with
      | nil => exact absurd hs (fields_ne_nil stop s)
      | cons part parts => rfl

theorem fields_eq_singleton {s : List α} (h : ∀ c ∈ s, stop c = false) : fields stop s = [s] := by
  induction s with
  | nil => rfl
  | cons c s ih =>
    rw [fields, h c List.mem_cons_self, if_neg Bool.false_ne_true,
      ih fun a ha => h a (List.mem_cons_of_mem _ ha)]
    rfl

/-- A part is made of characters of the text, and of none that the text is cut at. -/
theorem mem_of_mem_fields {s part : List α} {a : α} (hpart : part ∈ fields stop s) (ha : a ∈ part) :
    a ∈ s ∧ stop a = false := by
  induction s generalizing part with
  | nil =>
    rw [List.mem_singleton.1 hpart] at ha
    cases ha
  | cons c s ih =>
    rw [fields] at hpart
    by_cases hc : stop c = true
    · rw [if_pos hc] at hpart
      rcases List.mem_cons.1 hpart with rfl | hpart
      · cases ha
      · exact ⟨List.mem_cons_of_mem c (ih hpart ha).1, (ih hpart ha).2⟩
    · rw [if_neg hc] at hpart
      obtain ⟨first, parts, hs⟩ := List.exists_cons_of_ne_nil (fields_ne_nil stop s)
      rw [hs] at hpart ih
      rcases List.mem_cons.1 hpart with rfl | hpart
      · rcases List.mem_cons.1 ha with rfl | ha
        · exact ⟨List.mem_cons_self, eq_false_of_ne_true hc⟩
        · have hmem := ih List.mem_cons_self ha
          exact ⟨List.mem_cons_of_mem c hmem.1, hmem.2⟩
      · have hmem := ih (List.mem_cons_of_mem first hpart) ha
        exact ⟨List.mem_cons_of_mem c hmem.1, hmem.2⟩

theorem join_fields [BEq α] [LawfulBEq α] (mark : α) (s : List α) : join [mark] (fields (· == mark) s) = s := by
  induction s with
  | nil => rfl
  | cons c s ih =>
    rw [fields]
    split
    · next hc =>
      rw [join_cons _ _ (fields_ne_nil _ s), ih, beq_iff_eq.1 hc]
      rfl
    · rw [join_consFirst _ _ (fields_ne_nil _ s), ih]

theorem fields_join [BEq α] [LawfulBEq α] {mark : α} {lines : List (List α)} (hne : lines ≠ [])
    (h : ∀ line ∈ lines, ∀ c ∈ line, c ≠ mark) :
    fields (· == mark) (join [mark] lines) = lines := by
  induction lines with
  | nil => exact absurd rfl hne
  | cons line lines ih =>
    have hline : fields (· == mark) line = [line] :=
      fields_eq_singleton fun c hc => beq_eq_false_iff_ne.2 (h line List.mem_cons_self c hc)
    by_cases hlines : lines = []
    · subst hlines
      exact hline
    · have hmark : (fun c => c == mark) mark = true := beq_self_eq_true mark
      rw [join_cons _ _ hlines, List.append_assoc, List.singleton_append,
        @fields_append_stop α (fun c => c == mark) mark hmark, hline,
        ih hlines fun line hl => h line (List.mem_cons_of_mem _ hl)]
      rfl

end

/-! ## Cutting at the occurrences of a text -/

theorem splitFrom_ne_nil (sep : Text) (skip : Nat) (s : Text) : splitFrom sep skip s ≠ [] := by
  induction s generalizing skip with
  | nil =>
    rw [splitFrom]
    exact List.cons_ne_nil _ _
  | cons c s ih =>
    cases skip with
    | succ skip =>
      rw [splitFrom]
      exact ih skip
    | zero =>
      rw [splitFrom]
      split
      · exact List.cons_ne_nil _ _
      · exact consFirst_ne_nil _ _

theorem join_splitOn {sep : Text} (hsep : sep ≠ []) (s : Text) : join sep (splitOn sep s) = s := by
  have hdrop : ∀ skip, join sep (splitFrom sep skip s) = s.drop skip := by
    induction s with
    | nil =>
      intro skip
      rw [splitFrom, List.drop_nil]
      rfl
    | cons c s ih =>
      intro skip
      cases skip with
      | succ skip => rw [splitFrom, ih, List.drop_succ_cons]
      | zero =>
        rw [splitFrom]
        split
        · next rest hstrip =>
          have hs := stripStart?_eq_some.1 hstrip
          rw [join_cons _ _ (splitFrom_ne_nil _ _ _), ih, drop_pred_length hsep hs.symm]
          exact hs.symm
        · rw [join_consFirst _ _ (splitFrom_ne_nil _ _ _), ih, List.drop_zero, List.drop_zero]
  exact hdrop 0

end Unmask.Text
