import Unmask.Proofs.LiteralRuns

/-!
# Texts that are laid out

A transcript holds the statements without the white space around them, and what it writes for the
separators.  Such a text is read as the statements that make it up: behind each of them the machine
stops at the separator as it is written, and none of them sets anything at its place.

    Laid.cons       a piece in front of a text that is laid out
    Laid.readsAs    what is laid out is read as commands that make it up
-/

namespace Unmask

/-! ## White space at the ends -/

namespace Text

theorem isSpace_of_isBlank {c : Char} (h : isBlank c = true) : isSpace c = true := by
  simp only [isBlank, Bool.or_eq_true, beq_iff_eq] at h
  rcases h with rfl | rfl <;> rfl

theorem trim_space_append {spaces : Text} (h : ∀ c ∈ spaces, isSpace c = true) (s : Text) :
    trim (spaces ++ s) = trim s := by
  unfold trim trimStart
  rw [List.dropWhile_append_of_pos h]

theorem trimEnd_append_space {spaces : Text} (h : ∀ c ∈ spaces, isSpace c = true) (s : Text) :
    trimEnd (s ++ spaces) = trimEnd s := by
  unfold trimEnd
  rw [List.reverse_append, List.dropWhile_append_of_pos fun c hc => h c (List.mem_reverse.1 hc)]

theorem trim_append_space {spaces : Text} (h : ∀ c ∈ spaces, isSpace c = true) (s : Text) :
    trim (s ++ spaces) = trim s := by
  unfold trim trimStart
  rw [List.dropWhile_append]
  split
  · next hempty =>
    have hspaces : spaces.dropWhile isSpace = [] := List.dropWhile_eq_nil_iff.2 h
    rw [hspaces, List.isEmpty_iff.1 hempty]
  · exact trimEnd_append_space h _

theorem trimEnd_append (s : Text) :
    ∃ after, s = trimEnd s ++ after ∧ ∀ c ∈ after, isSpace c = true := by
  refine ⟨(s.reverse.takeWhile isSpace).reverse, ?_,
    fun c hc => List.mem_takeWhile_imp (List.mem_reverse.1 hc)⟩
  unfold trimEnd
  rw [← List.reverse_append, List.takeWhile_append_dropWhile, List.reverse_reverse]

/-- A text is what is left of it when it is trimmed, between white space. -/
theorem trim_between (s : Text) : ∃ before after, s = before ++ (trim s ++ after) ∧
    (∀ c ∈ before, isSpace c = true) ∧ ∀ c ∈ after, isSpace c = true := by
  obtain ⟨after, hafter, hspace⟩ := trimEnd_append (trimStart s)
  refine ⟨s.takeWhile isSpace, after, ?_, fun c hc => List.mem_takeWhile_imp hc, hspace⟩
  unfold trim
  rw [← hafter]
  exact List.takeWhile_append_dropWhile.symm

/-- The limit cuts nothing off a text that fits it but white space at the end. -/
theorem trim_takeBytes {budget : Nat} {s : Text} (h : byteLength (trimEnd s) ≤ budget) :
    trim (takeBytes budget s) = trim s := by
  obtain ⟨after, hafter, hspace⟩ := trimEnd_append s
  have htake : ∀ c ∈ takeBytes (budget - byteLength (trimEnd s)) after, isSpace c = true :=
    fun c hc => hspace c ((takeBytes_isPrefix _ after).mem hc)
  rw [hafter, takeBytes_append h, trim_append_space htake, trim_append_space hspace]

/-- Neither end of a text is white space. -/
structure Trimmed (s : Text) : Prop where
  head : ∀ c ∈ s.head?, isSpace c = false
  last : ∀ c ∈ s.getLast?, isSpace c = false

theorem trimmed_trim (s : Text) : Trimmed (trim s) where
  head c hc := by
    obtain ⟨rest, hrest⟩ : trim s <+: trimStart s := trimEnd_isPrefix _
    have hstart : (trimStart s).head? = some c := by
      rw [← hrest, List.head?_append, Option.mem_def.1 hc]
      rfl
    have h := List.head?_dropWhile_not isSpace s
    unfold trimStart at hstart
    rw [hstart] at h
    exact h
  last c hc := by
    unfold trim trimEnd at hc
    rw [List.getLast?_reverse] at hc
    have h := List.head?_dropWhile_not isSpace (trimStart s).reverse
    rw [Option.mem_def.1 hc] at h
    exact h

theorem Trimmed.append {s t : Text} (hs : Trimmed s) (ht : Trimmed t) (hs' : s ≠ []) (ht' : t ≠ [])
    (u : Text) : Trimmed (s ++ (u ++ t)) where
  head c hc := by
    rw [List.head?_append_of_ne_nil _ hs'] at hc
    exact hs.head c hc
  last c hc := by
    rw [List.getLast?_append_of_ne_nil _ (List.append_ne_nil_of_right_ne_nil u ht'),
      List.getLast?_append_of_ne_nil _ ht'] at hc
    exact ht.last c hc

theorem Trimmed.trim_eq {s : Text} (h : Trimmed s) : trim s = s :=
  trim_eq_self h.head h.last

end Text

namespace Script

/-! ## The machine between statements -/

namespace Mode

theorem pass_append_iff {mode : Mode} {s t : Text} :
    mode.pass (s ++ t) = s ++ t ↔ mode.pass s = s ∧ (s.foldl next mode).pass t = t := by
  by_cases hs : mode.pass s = s
  · rw [pass_append_of_eq hs, List.append_cancel_left_eq]
    exact (and_iff_right hs).symm
  · rw [pass_append_of_ne hs]
    refine ⟨fun h => absurd ?_ hs, fun h => absurd h.1 hs⟩
    have hpass := pass_isPrefix mode s
    rw [h] at hpass ⊢
    exact hpass.eq_of_length_le (by rw [List.length_append]; exact Nat.le_add_right _ _)

theorem foldl_next_space {spaces : Text} (h : ∀ c ∈ spaces, Text.isSpace c = true) {mode : Mode}
    (hmode : mode ≠ escaped) : spaces.foldl next mode = mode := by
  induction spaces generalizing mode with
  | nil => rfl
  | cons c spaces ih =>
    have hc : c ≠ '"' ∧ c ≠ '^' := by
      have hspace := h c List.mem_cons_self
      constructor <;> rintro rfl <;> cases hspace
    have hnext : mode.next c = mode := by
      cases mode with
      | plain => rw [next, if_neg hc.1, if_neg hc.2]
      | quoted => rw [next, if_neg hc.1]
      | escaped => exact absurd rfl hmode
    rw [List.foldl_cons, hnext]
    exact ih (fun c hc => h c (List.mem_cons_of_mem _ hc)) hmode

theorem pass_blanks {blanks : Text} (h : ∀ c ∈ blanks, Text.isBlank c = true) (s : Text) :
    plain.pass (blanks ++ s) = blanks ++ plain.pass s := by
  induction blanks with
  | nil => rfl
  | cons c blanks ih =>
    have hc := h c List.mem_cons_self
    have hrest := ih fun c hc => h c (List.mem_cons_of_mem _ hc)
    simp only [Text.isBlank, Bool.or_eq_true, beq_iff_eq] at hc
    rcases hc with rfl | rfl <;> exact congrArg (List.cons _) hrest

/-- In front of what the machine does not pass over, it stops. -/
theorem stops_of_pass {mode : Mode} {s t : Text} {c : Char} (h : mode.pass (s ++ c :: t) = s) :
    (s.foldl next mode).stops c = true := by
  by_cases hs : mode.pass s = s
  · rw [pass_append_of_eq hs, List.append_right_eq_self, pass] at h
    split at h
    · assumption
    · cases h
  · rw [pass_append_of_ne hs] at h
    exact absurd h hs

end Mode

/-! ## Transcripts -/

namespace Transcript

/-- What is written in front of the next statement. -/
def joiner (t : Transcript) : Text :=
  match t.pending with
  | none => []
  | some separator => if t.output.isEmpty then [] else separator.written

theorem write_trimmed {s : Text} (h : Text.Trimmed s) (hne : s ≠ []) (t : Transcript) :
    t.write s = ⟨t.output ++ (t.joiner ++ s), none⟩ := by
  obtain ⟨output, pending⟩ := t
  cases s with
  | nil => exact absurd rfl hne
  | cons c s =>
    unfold write joiner
    rw [h.trim_eq]
    cases pending with
    | none => rfl
    | some separator =>
      dsimp only
      rw [List.append_assoc]

theorem write_first {s : Text} (h : Text.Trimmed s) (hne : s ≠ []) (pending : Option Separator) :
    (write s ⟨[], pending⟩).output = s := by
  rw [write_trimmed h hne]
  cases pending <;> rfl

theorem write_of_trim_eq {s s' : Text} (h : Text.trim s = Text.trim s') (t : Transcript) :
    t.write s = t.write s' := by
  unfold write
  rw [h]

theorem write_trim (s : Text) (t : Transcript) : t.write (Text.trim s) = t.write s :=
  write_of_trim_eq (Text.trimmed_trim s).trim_eq t

theorem write_space {s : Text} (h : Text.trim s = []) (t : Transcript) : t.write s = t := by
  unfold write
  rw [h]

theorem joiner_separate (separator : Separator) {output : Text} (hne : output ≠ []) :
    (separate separator ⟨output, none⟩).joiner = separator.written := by
  cases output with
  | nil => exact absurd rfl hne
  | cons c output => cases separator <;> rfl

/-- Two statements are written like one that holds what is written between them. -/
theorem write_separate_write {s s' : Text} (hs : Text.Trimmed s) (hs' : Text.Trimmed s')
    (hne : s ≠ []) (hne' : s' ≠ []) (separator : Separator) (t : Transcript) :
    ((t.write s).separate separator).write s' = t.write (s ++ (separator.written ++ s')) := by
  have hwhole : s ++ (separator.written ++ s') ≠ [] := List.append_ne_nil_of_left_ne_nil hne _
  have hjoiner := joiner_separate separator
    (List.append_ne_nil_of_right_ne_nil t.output (List.append_ne_nil_of_right_ne_nil t.joiner hne))
  rw [write_trimmed hs hne, write_trimmed hs' hne', hjoiner, output_separate,
    write_trimmed (hs.append hs' hne hne' separator.written) hwhole]
  simp only [List.append_assoc]

end Transcript

/-! ## Texts that are laid out -/

/-- What is left of a statement: some text that the machine passes over. -/
structure IsPiece (s : Text) : Prop where
  ne_nil : s ≠ []
  trimmed : Text.Trimmed s
  whole : Mode.plain.pass s = s

/-- Behind a text the machine stops at a separator as it is written. -/
def StopsAt (s : Text) (separator : Separator) : Prop :=
  s.foldl Mode.next .plain ≠ if separator = .newline then .escaped else .quoted

/-- Pieces with separators between them, none of which sets anything at its place. -/
inductive Laid : Text → Prop
  | last {s : Text} : IsPiece s → SetsNothing s → Laid s
  | next {s t : Text} {separator : Separator} : IsPiece s → StopsAt s separator →
      SetsNothing (s ++ (separator.written ++ t)) → Laid t → Laid (s ++ (separator.written ++ t))

/-- Behind a caret a line break belongs to the piece. -/
theorem IsPiece.append_break {s t : Text} (hs : IsPiece s) (ht : IsPiece t)
    (hescaped : s.foldl Mode.next .plain = .escaped) : IsPiece (s ++ '\n' :: t) where
  ne_nil := List.append_ne_nil_of_left_ne_nil hs.ne_nil _
  trimmed := hs.trimmed.append ht.trimmed hs.ne_nil ht.ne_nil ['\n']
  whole := by
    rw [Mode.pass_append_iff]
    refine ⟨hs.whole, ?_⟩
    rw [hescaped]
    exact congrArg ('\n' :: ·) ht.whole

namespace Laid

theorem ne_nil {s : Text} (h : Laid s) : s ≠ [] := by
  cases h with
  | last hpiece _ => exact hpiece.ne_nil
  | next hpiece _ _ _ => exact List.append_ne_nil_of_left_ne_nil hpiece.ne_nil _

theorem trimmed {s : Text} (h : Laid s) : Text.Trimmed s := by
  induction h with
  | last hpiece _ => exact hpiece.trimmed
  | next hpiece _ _ hlaid ih => exact hpiece.trimmed.append ih hpiece.ne_nil hlaid.ne_nil _

/-- A piece may be put in front, and becomes one with the next piece if it makes the break ordinary. -/
theorem cons {s t : Text} {separator : Separator} (hs : IsPiece s) (ht : Laid t)
    (hset : SetsNothing (s ++ (separator.written ++ t)))
    (hquoted : s.foldl Mode.next .plain = .quoted → separator = .newline) :
    Laid (s ++ (separator.written ++ t)) := by
  by_cases hstops : StopsAt s separator
  · exact .next hs hstops hset ht
  · have hmode := not_not.1 hstops
    split at hmode
    · next hnewline =>
      subst hnewline
      cases ht with
      | last hpiece _ => exact .last (hs.append_break hpiece hmode) hset
      | @next s' t' separator' hpiece hstops' _ ht' =>
        have hsame : s ++ (Separator.newline.written ++ (s' ++ (separator'.written ++ t'))) =
            (s ++ '\n' :: s') ++ (separator'.written ++ t') := by
          rw [List.append_assoc]
          rfl
        rw [hsame] at hset ⊢
        refine .next (hs.append_break hpiece hmode) ?_ hset ht'
        unfold StopsAt at hstops' ⊢
        rw [List.foldl_append, hmode]
        exact hstops'
    · next hne => exact absurd (hquoted hmode) hne

end Laid

/-! ## Reading what is laid out -/

theorem setsNothing_blanks {blanks : Text} (hblanks : ∀ c ∈ blanks, Text.isBlank c = true) {s : Text}
    (h : SetsNothing s) : SetsNothing (blanks ++ s) := by
  induction blanks with
  | nil => exact h
  | cons c blanks ih =>
    unfold SetsNothing
    rw [List.cons_append, opening?_blank (hblanks c List.mem_cons_self)]
    exact ih fun c hc => hblanks c (List.mem_cons_of_mem _ hc)

/-- A command and what stands behind it, by what the machine passes over. -/
theorem SetsNothing.first_append {s body rest : Text} (hpercent : '%' ∉ s) (h : SetsNothing s)
    (hs : s = body ++ rest) (hbody : Mode.plain.pass s = body) :
    Statement.first s = ⟨body, .command⟩ ∧ (readForm s).2 = rest := by
  refine ⟨hbody ▸ h.first_eq hpercent, ?_⟩
  rw [h.readForm_eq hpercent, takeBody_eq_pass, if_neg Bool.false_ne_true, hbody, hs, List.drop_left]

/-- Whether the statements of a script are commands that are written like one text. -/
structure ReadsAs (text : Text) (script : Script) : Prop where
  commands : ∀ statement ∈ script.statements, statement.kind = .command
  written : ∀ t : Transcript, writeWith id script t = t.write text

/-- A command, a separator and a script make up what is written of them. -/
theorem ReadsAs.cons {s t body : Text} {separator : Separator} {script : Script}
    (hbody : Text.trim body = s) (hs : Text.Trimmed s) (hne : s ≠ []) (ht : Laid t)
    (h : ReadsAs t script) :
    ReadsAs (s ++ (separator.written ++ t))
      ⟨⟨body, .command⟩, (separator, script.head) :: script.tail⟩ where
  commands statement hmem := by
    rcases List.mem_cons.1 hmem with rfl | hmem
    · rfl
    · exact h.commands statement hmem
  written transcript := by
    have hwrite : writeWith id ⟨⟨body, .command⟩, (separator, script.head) :: script.tail⟩ transcript =
        writeWith id script ((transcript.write body).separate separator) := rfl
    rw [hwrite, h.written, ← Transcript.write_trim body, hbody,
      Transcript.write_separate_write hs ht.trimmed hne ht.ne_nil]

section

variable {blanks s : Text} (hblanks : ∀ c ∈ blanks, Text.isBlank c = true) (hs : IsPiece s)

include hblanks hs

theorem trim_piece {spaces : Text} (hspaces : ∀ c ∈ spaces, Text.isSpace c = true) :
    Text.trim (blanks ++ (s ++ spaces)) = s := by
  have hspace : ∀ c ∈ blanks, Text.isSpace c = true := fun c hc =>
    Text.isSpace_of_isBlank (hblanks c hc)
  rw [Text.trim_space_append hspace, Text.trim_append_space hspaces, hs.trimmed.trim_eq]

theorem pass_piece (t : Text) :
    Mode.plain.pass (blanks ++ (s ++ t)) = blanks ++ (s ++ (s.foldl Mode.next .plain).pass t) := by
  rw [Mode.pass_blanks hblanks, Mode.pass_append_of_eq hs.whole]

theorem read_piece (hset : SetsNothing s) (hpercent : '%' ∉ blanks ++ s) :
    read (blanks ++ s) = ⟨⟨blanks ++ s, .command⟩, []⟩ := by
  have hpass : Mode.plain.pass (blanks ++ s) = blanks ++ s := by
    rw [Mode.pass_blanks hblanks, hs.whole]
  obtain ⟨hfirst, hrest⟩ := (setsNothing_blanks hblanks hset).first_append hpercent
    (List.append_nil _).symm hpass
  rw [read_last hrest, hfirst]

theorem readsAs_last (hset : SetsNothing s) (hpercent : '%' ∉ blanks ++ s) :
    ReadsAs s (read (blanks ++ s)) := by
  have hnone : ∀ c ∈ ([] : Text), Text.isSpace c = true := fun c hc => by cases hc
  have htrim : Text.trim (blanks ++ s) = Text.trim s := by
    have hpiece := trim_piece hblanks hs hnone
    rw [List.append_nil] at hpiece
    rw [hpiece, hs.trimmed.trim_eq]
  rw [read_piece hblanks hs hset hpercent]
  refine ⟨fun statement hmem => ?_, fun transcript => Transcript.write_of_trim_eq htrim transcript⟩
  rw [List.mem_singleton.1 hmem]

/-- A piece is read as one command, and the text behind it by itself. -/
theorem readsAs_next {t : Text} {separator : Separator} (hstops : StopsAt s separator)
    (hset : SetsNothing (s ++ (separator.written ++ t)))
    (hpercent : '%' ∉ blanks ++ (s ++ (separator.written ++ t))) (ht : Laid t)
    (hrest : ∀ {blanks : Text}, (∀ c ∈ blanks, Text.isBlank c = true) → ReadsAs t (read (blanks ++ t))) :
    ReadsAs (s ++ (separator.written ++ t)) (read (blanks ++ (s ++ (separator.written ++ t)))) := by
  have hcut : ∀ {front behind u : Text} {c : Char} {width : Nat},
      separator.written ++ t = front ++ c :: u →
      (s.foldl Mode.next .plain).pass (front ++ c :: u) = front →
      (∀ c ∈ front, Text.isSpace c = true) → (∀ c ∈ behind, Text.isBlank c = true) →
      Separator.first? c u = some (separator, width) → u.drop width = behind ++ t →
      ReadsAs (s ++ (separator.written ++ t))
        (read (blanks ++ (s ++ (separator.written ++ t)))) := by
    intro front behind u c width hwritten hpass hfront hbehind hfirst? hdrop
    have hbody : Mode.plain.pass (blanks ++ (s ++ (separator.written ++ t))) =
        blanks ++ (s ++ front) := by
      rw [pass_piece hblanks hs, hwritten, hpass]
    have hwhole : blanks ++ (s ++ (separator.written ++ t)) = blanks ++ (s ++ front) ++ c :: u := by
      rw [hwritten]
      simp only [List.append_assoc]
    obtain ⟨hfirst, hbehind'⟩ := (setsNothing_blanks hblanks hset).first_append hpercent hwhole hbody
    rw [read_next hbehind' hfirst?, hfirst, hdrop]
    exact (hrest hbehind).cons (trim_piece hblanks hs hfront) hs.trimmed hs.ne_nil ht
  have hnone : ∀ {p : Char → Bool}, ∀ c ∈ ([] : Text), p c = true := fun c hc => by cases hc
  have hblank : ∀ {p : Char → Bool}, p ' ' = true → ∀ c ∈ [' '], p c = true :=
    fun hp c hc => List.mem_singleton.1 hc ▸ hp
  by_cases hbreak : separator = .newline
  · subst hbreak
    have hpass : (s.foldl Mode.next .plain).pass ('\n' :: t) = [] := by
      cases hmode : s.foldl Mode.next .plain with
      | plain | quoted => rfl
      | escaped => exact absurd hmode hstops
    exact hcut rfl hpass hnone hnone rfl rfl
  · have hpass : ∀ {c : Char} {u : Text}, Separator.isStart c = true →
        (s.foldl Mode.next .plain).pass (' ' :: c :: u) = [' '] := by
      intro c u hc
      have hplain : Mode.plain.pass (c :: u) = [] := if_pos hc
      cases hmode : s.foldl Mode.next .plain with
      | plain | escaped => exact congrArg (' ' :: ·) hplain
      | quoted => exact absurd (hmode.trans (if_neg hbreak).symm) hstops
    cases separator with
    | newline => exact absurd rfl hbreak
    | sequence | and | or | pipe => exact hcut rfl (hpass rfl) (hblank rfl) (hblank rfl) rfl rfl

end

/-- What is laid out is read as commands that make it up. -/
theorem Laid.readsAs {s : Text} (h : Laid s) (hpercent : '%' ∉ s) {blanks : Text}
    (hblanks : ∀ c ∈ blanks, Text.isBlank c = true) : ReadsAs s (read (blanks ++ s)) := by
  have hblank : ∀ {blanks : Text}, (∀ c ∈ blanks, Text.isBlank c = true) → '%' ∉ blanks :=
    fun h hmem => absurd (h '%' hmem) (by decide)
  induction h generalizing blanks with
  | last hs hset =>
    exact readsAs_last hblanks hs hset fun hmem =>
      (List.mem_append.1 hmem).elim (hblank hblanks) hpercent
  | next hs hstops hset ht ih =>
    have hpercent' := fun hmem => hpercent (List.mem_append_right _ (List.mem_append_right _ hmem))
    exact readsAs_next hblanks hs hstops hset
      (fun hmem => (List.mem_append.1 hmem).elim (hblank hblanks) hpercent) ht
      fun hblanks' => ih hpercent' hblanks'

end Script

end Unmask
