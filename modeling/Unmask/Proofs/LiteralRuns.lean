import Unmask.Proofs.Alphabets
import Unmask.Proofs.Commands
import Unmask.Proofs.Cuts
import Unmask.Proofs.RoundTrip

/-!
# Scripts without references

A command without marks expands to itself, cut to the limit, and what is left of it is a command
again.  So a run over such commands records and notices nothing: it only writes them down.

    take_literal       one command is written as far as the limit goes
    reveal_literal     the whole run
-/

namespace Unmask

/-- A text without marks expands to itself, cut to the limit. -/
theorem Expansion.Scope.expand_plain {scope : Scope} {text : Text}
    (htext : ∀ c ∈ text, Template.isMark scope.dialect c = false) :
    scope.expand text .empty = .ok (⟨Text.takeBytes limit text, false⟩, .empty) := by
  by_cases hne : text = []
  · subst hne
    simp only [expand, Template.read, Template.Fragment.cut]
    rfl
  · have hpieces := expandPiecesWith_literals scope (scope.descend scope.definitions.total) []
      (.cons text text .nil) limit .empty
    rw [List.append_nil] at hpieces
    simp only [expand, expandTemplate, Template.read_plain hne htext, hpieces, bind, Except.bind]
    rfl

namespace Script

/-! ## Runs -/

/-- Without marks in either dialect. -/
structure Literal (s : Text) : Prop where
  percent : '%' ∉ s
  exclamation : '!' ∉ s

theorem Literal.isMark_eq_false {s : Text} (h : Literal s) (delayed : Bool) :
    ∀ c ∈ s, Template.isMark (dialect delayed) c = false := by
  intro c hc
  have hpercent : c ≠ '%' := fun he => h.percent (he ▸ hc)
  have hexclamation : c ≠ '!' := fun he => h.exclamation (he ▸ hc)
  cases delayed <;> simp [dialect, Template.isMark, hpercent, hexclamation]

theorem Literal.of_subset {s t : Text} (h : Literal s) (hsubset : ∀ c ∈ t, c ∈ s) : Literal t :=
  ⟨fun hmem => h.percent (hsubset _ hmem), fun hmem => h.exclamation (hsubset _ hmem)⟩

theorem Literal.append {s t : Text} (hs : Literal s) (ht : Literal t) : Literal (s ++ t) :=
  ⟨fun hmem => (List.mem_append.1 hmem).elim hs.percent ht.percent,
    fun hmem => (List.mem_append.1 hmem).elim hs.exclamation ht.exclamation⟩

theorem literal_written (separator : Separator) : Literal separator.written := by
  cases separator <;> exact ⟨by decide, by decide⟩

/-- What is written is made of the characters of the statements and of the separators. -/
theorem over_write {p : Char → Prop} (hwritten : ∀ separator, Text.Over p (Separator.written separator))
    {statement : Text} (hs : Text.Over p statement) {t : Transcript} (ht : Text.Over p t.output) :
    Text.Over p (t.write statement).output := by
  have htrim := hs.trim
  unfold Transcript.write
  split
  · exact ht
  · next c u separator htext _ =>
    rw [htext] at htrim
    refine (ht.append ?_).append htrim
    split
    · exact Text.over_nil
    · exact hwritten separator
  · next c u htext _ =>
    rw [htext] at htrim
    exact ht.append htrim

theorem literal_iff {s : Text} : Literal s ↔ Text.Over (fun c => c ≠ '%' ∧ c ≠ '!') s := by
  refine ⟨fun h c hc => ⟨fun he => h.percent (he ▸ hc), fun he => h.exclamation (he ▸ hc)⟩, fun h => ?_⟩
  exact ⟨fun hmem => (h _ hmem).1 rfl, fun hmem => (h _ hmem).2 rfl⟩

theorem literal_write {statement : Text} (hs : Literal statement) {t : Transcript}
    (ht : Literal t.output) : Literal (t.write statement).output :=
  literal_iff.2 (over_write (fun separator => literal_iff.1 (literal_written separator))
    (literal_iff.1 hs) (literal_iff.1 ht))

theorem expandedKind_isPrefix {t value : Text} (hpercent : '%' ∉ t) (h : SetsNothing t)
    (hvalue : value <+: t) (text : Text) : Progress.expandedKind text value = .command := by
  obtain ⟨rest, rfl⟩ := hvalue
  have hform := h.of_append.readForm_eq fun hmem => hpercent (List.mem_append_left rest hmem)
  exact Progress.expandedKind_eq_command text (congrArg Prod.fst hform)

/-- The transcript behind the statements of a script, each of them written as `f` says. -/
def writeWith (f : Text → Text) (script : Script) (t : Transcript) : Transcript :=
  script.tail.foldl (fun t next => (t.separate next.1).write (f next.2.text))
    (t.write (f script.head.text))

theorem literal_writeWith {f : Text → Text} {script : Script}
    (h : ∀ statement ∈ script.statements, Literal (f statement.text)) {t : Transcript}
    (ht : Literal t.output) : Literal (writeWith f script t).output := by
  obtain ⟨head, tail⟩ := script
  have htail : ∀ {t : Transcript}, Literal t.output →
      Literal (tail.foldl (fun t next => (t.separate next.1).write (f next.2.text)) t).output := by
    have hmem : ∀ next ∈ tail, Literal (f next.2.text) := fun next hnext =>
      h next.2 (List.mem_cons_of_mem _ (List.mem_map_of_mem hnext))
    clear h
    induction tail with
    | nil => exact fun _ ht => ht
    | cons next tail ih =>
      intro t ht
      refine ih (fun next hnext => hmem next (List.mem_cons_of_mem _ hnext)) ?_
      refine literal_write (hmem next List.mem_cons_self) ?_
      rwa [Transcript.output_separate]
  exact htail (literal_write (h head List.mem_cons_self) ht)

namespace Progress

variable {settings : Settings}

/-- A command without marks is written as far as the limit goes. -/
theorem take_literal {t : Text} (hliteral : Literal t) (h : SetsNothing t) (p : Progress) :
    p.take settings (Statement.first t) = .ok { p with
      delayed := p.delayed || (Statement.first t).switchesDelayed
      transcript :=
        p.transcript.write (Text.takeBytes Expansion.limit (Statement.first t).text) } := by
  rw [h.first_eq hliteral.percent]
  have htext : Mode.plain.pass t <+: t := pass_isPrefix .plain t
  obtain ⟨q, hq⟩ : ∃ q, p.facing ⟨Mode.plain.pass t, .command⟩ = q := ⟨_, rfl⟩
  have hplain : ∀ c ∈ Mode.plain.pass t, Template.isMark (q.scope settings).dialect c = false :=
    fun c hc => hliteral.isMark_eq_false q.delayed c (htext.mem hc)
  have hexpand : q.expand settings (Mode.plain.pass t) =
      .ok (Text.takeBytes Expansion.limit (Mode.plain.pass t), q) :=
    expand_of_silent (Expansion.Scope.expand_plain hplain) rfl
  have hkind := expandedKind_isPrefix hliteral.percent h
    ((Text.takeBytes_isPrefix Expansion.limit _).trans htext) (Mode.plain.pass t)
  have htake : p.take settings ⟨Mode.plain.pass t, .command⟩ =
      .ok (q.write (Text.takeBytes Expansion.limit (Mode.plain.pass t))) := by
    rw [← hq] at hexpand ⊢
    exact bind_eq_ok.2 ⟨_, hexpand, if_pos hkind⟩
  rw [htake, ← hq]
  rfl

/-- So are all of them, and nothing else changes but the dialect. -/
theorem takeAll_literal {rest : List (Separator × Statement)}
    (h : ∀ next ∈ rest, ∃ t, Literal t ∧ SetsNothing t ∧ next.2 = Statement.first t)
    (p : Progress) : ∃ delayed, p.takeAll settings rest = .ok { p with
      delayed
      transcript := rest.foldl (fun t next =>
        (t.separate next.1).write (Text.takeBytes Expansion.limit next.2.text)) p.transcript } := by
  induction rest generalizing p with
  | nil => exact ⟨p.delayed, rfl⟩
  | cons next rest ih =>
    obtain ⟨t, hliteral, hset, hnext⟩ := h next List.mem_cons_self
    have htake : Progress.take settings (Statement.first t)
        { p with transcript := p.transcript.separate next.1 } = _ := take_literal hliteral hset _
    rw [← hnext] at htake
    obtain ⟨delayed, hrest⟩ := ih (fun next hmem => h next (List.mem_cons_of_mem _ hmem)) { p with
      delayed := p.delayed || next.2.switchesDelayed
      transcript := (p.transcript.separate next.1).write
        (Text.takeBytes Expansion.limit next.2.text) }
    exact ⟨delayed, bind_eq_ok.2 ⟨_, htake, hrest⟩⟩

end Progress

/-- A text without marks refers to nothing, be it empty or not. -/
theorem liveReferences_literal (scope : Expansion.Scope) {text : Text}
    (htext : ∀ c ∈ text, Template.isMark scope.dialect c = false) :
    scope.liveReferences text = .ok [] := by
  by_cases hne : text = []
  · subst hne
    simp only [Expansion.Scope.liveReferences, Template.read, Template.Fragment.cut]
    rfl
  · exact liveReferences_plain scope hne htext

theorem finish_literal (delayed : Bool) {transcript : Transcript}
    (h : Literal transcript.output) :
    Progress.finish { raw := true }
        { Progress.start { raw := true } with delayed, transcript } =
      .ok ⟨transcript.output, [], [], false⟩ :=
  bind_eq_ok.2 ⟨[], liveReferences_literal _ (h.isMark_eq_false delayed), rfl⟩

/-- The statements of a text hold nothing that the text does not hold. -/
theorem literal_text {s : Text} (hliteral : Literal s) {statement : Statement}
    (hmem : statement ∈ (read s).statements) : Literal statement.text := by
  rw [statements_read] at hmem
  obtain ⟨t, ht, rfl⟩ := List.mem_map.1 hmem
  have htext : (Statement.first t).text <+: t := ⟨_, text_first_append t⟩
  exact hliteral.of_subset fun c hc => (isSuffix_of_mem_starts ht).mem (htext.mem hc)

section

variable {s : Text} (hliteral : Literal s) (h : ∀ t ∈ starts firstText s, SetsNothing t)

include hliteral h

theorem exists_first {statement : Statement} (hmem : statement ∈ (read s).statements) :
    ∃ t, Literal t ∧ SetsNothing t ∧ statement = Statement.first t := by
  rw [statements_read] at hmem
  obtain ⟨t, ht, rfl⟩ := List.mem_map.1 hmem
  exact ⟨t, hliteral.of_subset fun c hc => (isSuffix_of_mem_starts ht).mem hc, h t ht, rfl⟩

/-- A run over commands without marks only writes them. -/
theorem run_literal (settings : Settings) : ∃ delayed, run settings s = .ok
    { Progress.start settings with
      delayed
      transcript := writeWith (Text.takeBytes Expansion.limit) (read s) .empty } := by
  have hends : LoopsEnd s := by
    intro u hu
    have hpercent : '%' ∉ u := fun hmem => hliteral.percent ((isSuffix_of_mem_starts hu).mem hmem)
    rw [(h u hu).readForm_eq hpercent]
    exact Form.ends_command
  obtain ⟨t, ht, hset, hhead⟩ := exists_first hliteral h List.mem_cons_self
  have htake : (Progress.start settings).take settings (Statement.first t) = _ :=
    Progress.take_literal ht hset _
  have hempty : (Progress.start settings).transcript = .empty := rfl
  rw [← hhead, hempty] at htake
  unfold writeWith
  generalize Transcript.empty.write (Text.takeBytes Expansion.limit (read s).head.text) = first
    at htake ⊢
  obtain ⟨delayed, htakeAll⟩ : ∃ delayed, Progress.takeAll settings (read s).tail
      { Progress.start settings with
        delayed := (Progress.start settings).delayed || (read s).head.switchesDelayed
        transcript := first } = _ :=
    Progress.takeAll_literal
      (fun next hnext => exists_first hliteral h (List.mem_cons_of_mem _ (List.mem_map_of_mem hnext))) _
  exact ⟨delayed, run_eq_ok.2 ⟨hends, _, htake, htakeAll⟩⟩

/-- So the output is what is written, each command as far as the limit goes. -/
theorem reveal_literal : reveal { raw := true } s =
    .ok ⟨(writeWith (Text.takeBytes Expansion.limit) (read s) .empty).output, [], [], false⟩ := by
  obtain ⟨delayed, hrun⟩ := run_literal hliteral h { raw := true }
  have houtput : Literal (writeWith (Text.takeBytes Expansion.limit) (read s) .empty).output := by
    refine literal_writeWith (fun statement hmem => ?_) ⟨List.not_mem_nil, List.not_mem_nil⟩
    exact (literal_text hliteral hmem).of_subset fun c hc => (Text.takeBytes_isPrefix _ _).mem hc
  rw [reveal_eq_run, hrun]
  exact finish_literal delayed houtput

end

end Script

end Unmask
