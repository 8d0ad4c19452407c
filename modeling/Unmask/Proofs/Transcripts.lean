import Unmask.Proofs.Pieces

/-!
# Transcripts

A transcript is fed the separators of a script and what its statements are written as.  Most of
this may be silent: separators, statements that are dropped, statements of white space alone.  The
others are written in order, and between two of them stands what separates them in the script, over
all that is silent in between.

    Passage                 a statement that is written, with what is silent behind it
    output_ofEvents         what is written, however much is silent
    run_events              what a run over a script feeds its transcript
    output_eq_laidOut       the output is laid out from the passages
-/

namespace Unmask.Script

/-! ## Events -/

/-- What a transcript is fed. -/
inductive Event where
  /-- What stands between two statements. -/
  | separator (separator : Separator)
  /-- A statement and what it is written as; it may be dropped. -/
  | statement (written : Option Text)
deriving DecidableEq, Repr

namespace Event

def Silent : Event → Prop
  | .separator _ => True
  | .statement none => True
  | .statement (some text) => Text.trim text = []

def separator? : Event → Option Separator
  | .separator s => some s
  | .statement _ => none

def separators (events : List Event) : List Separator :=
  events.filterMap separator?

instance (event : Event) : Decidable event.Silent :=
  match event with
  | .separator _ => isTrue trivial
  | .statement none => isTrue trivial
  | .statement (some text) => inferInstanceAs (Decidable (Text.trim text = []))

end Event

namespace Transcript

def record (t : Transcript) : Event → Transcript
  | .separator separator => t.separate separator
  | .statement none => t
  | .statement (some text) => t.write text

def ofEvents (events : List Event) : Transcript :=
  events.foldl record .empty

end Transcript

/-! ## Passages -/

/-- A statement that is written, and the silent events behind it. -/
structure Passage where
  text : Text
  behind : List Event
  kept : Text.trim text ≠ []
  silent : ∀ event ∈ behind, event.Silent

namespace Passage

def events (passage : Passage) : List Event :=
  .statement (some passage.text) :: passage.behind

end Passage

/-- Events, cut into what is silent in front and the passages. -/
structure Parted (events front : List Event) (passages : List Passage) : Prop where
  whole : events = front ++ passages.flatMap Passage.events
  silent : ∀ event ∈ front, event.Silent

/-- What stands between two statements: a line break if there is one, else the last separator. -/
def joint (separators : List Separator) : Text :=
  if .newline ∈ separators then Separator.newline.written
  else (separators.getLast?.map Separator.written).getD []

/-- The statements without the white space around them, and between two of them their joint. -/
def laidOut : List Passage → Text
  | [] => []
  | [passage] => Text.trim passage.text
  | passage :: next :: passages =>
    Text.trim passage.text ++ (joint (Event.separators passage.behind) ++ laidOut (next :: passages))

/-- Every sequence of events is cut at the statements that are written. -/
theorem exists_parted (events : List Event) : ∃ front passages, Parted events front passages := by
  induction events with
  | nil => exact ⟨[], [], rfl, fun _ hmem => absurd hmem List.not_mem_nil⟩
  | cons event events ih =>
    obtain ⟨front, passages, hwhole, hsilent⟩ := ih
    have hfront : event.Silent → ∃ front passages, Parted (event :: events) front passages := by
      intro hevent
      refine ⟨event :: front, passages, ?_, List.forall_mem_cons.2 ⟨hevent, hsilent⟩⟩
      rw [hwhole]
      rfl
    cases event with
    | separator separator => exact hfront trivial
    | statement written =>
      cases written with
      | none => exact hfront trivial
      | some text =>
        by_cases htext : Text.trim text = []
        · exact hfront htext
        · refine ⟨[], ⟨text, front, htext, hsilent⟩ :: passages, ?_,
            fun _ hmem => absurd hmem List.not_mem_nil⟩
          rw [hwhole]
          rfl

/-! ## Separators between statements -/

/-- Behind a statement comes a separator. -/
def Spaced (events : List Event) : Prop :=
  events.IsChain fun event next => event.separator? = none → next.separator? ≠ none

/-- Between two passages stands a separator. -/
def Separated (passages : List Passage) : Prop :=
  passages.IsChain fun passage _ => Event.separators passage.behind ≠ []

theorem Spaced.separators_ne_nil {passage next : Passage} {behind : List Event}
    (h : Spaced (passage.events ++ (next.events ++ behind))) :
    Event.separators passage.behind ≠ [] := by
  intro hnone
  have hfirst := (List.isChain_cons.1 h).1
  cases hbehind : passage.behind with
  | nil =>
    rw [hbehind] at hfirst
    exact hfirst _ rfl rfl rfl
  | cons event events =>
    rw [hbehind] at hfirst hnone
    exact hfirst event rfl rfl (List.filterMap_eq_nil_iff.1 hnone event List.mem_cons_self)

theorem Spaced.separated {passages : List Passage} (h : Spaced (passages.flatMap Passage.events)) :
    Separated passages := by
  induction passages with
  | nil => exact List.isChain_nil
  | cons passage passages ih =>
    cases passages with
    | nil => exact List.isChain_singleton passage
    | cons next passages =>
      exact List.isChain_cons_cons.2 ⟨h.separators_ne_nil, ih (List.IsChain.right_of_append h)⟩

/-! ## The separator that waits -/

/-- Which of two separators waits to be written. -/
def outranking (pending : Option Separator) (separator : Separator) : Option Separator :=
  if pending = some .newline then pending else some separator

theorem foldl_outranking (pending : Option Separator) (separators : List Separator) :
    separators.foldl outranking pending =
      if pending = some .newline ∨ .newline ∈ separators then some .newline
      else separators.getLast?.or pending := by
  induction separators generalizing pending with
  | nil =>
    by_cases hpending : pending = some .newline
    · rw [if_pos (.inl hpending)]
      exact hpending
    · rw [if_neg fun h => h.elim hpending List.not_mem_nil]
      rfl
  | cons separator separators ih =>
    rw [List.foldl_cons, ih]
    by_cases hpending : pending = some .newline
    · have hfirst : outranking pending separator = some .newline := (if_pos hpending).trans hpending
      rw [if_pos (.inl hfirst), if_pos (.inl hpending)]
    · have hfirst : outranking pending separator = some separator := if_neg hpending
      have hiff : (some separator = some Separator.newline ∨ .newline ∈ separators) ↔
          (pending = some .newline ∨ .newline ∈ separator :: separators) := by
        rw [Option.some.injEq, List.mem_cons, eq_comm]
        exact (or_iff_right hpending).symm
      rw [hfirst, if_congr hiff rfl rfl, List.getLast?_cons]
      congr 1
      cases separators.getLast? <;> rfl

namespace Transcript

theorem separate_eq (separator : Separator) (t : Transcript) :
    t.separate separator = ⟨t.output, outranking t.pending separator⟩ := by
  unfold separate outranking
  split <;> rfl

/-- What is silent leaves the output as it is, and its separators wait. -/
theorem foldl_record_silent {events : List Event} (h : ∀ event ∈ events, event.Silent)
    (t : Transcript) :
    events.foldl record t = ⟨t.output, (Event.separators events).foldl outranking t.pending⟩ := by
  induction events generalizing t with
  | nil => rfl
  | cons event events ih =>
    obtain ⟨hevent, hrest⟩ := List.forall_mem_cons.1 h
    rw [List.foldl_cons, ih hrest]
    cases event with
    | separator separator =>
      have hrecord : t.record (.separator separator) = ⟨t.output, outranking t.pending separator⟩ :=
        separate_eq separator t
      rw [hrecord]
      rfl
    | statement written =>
      cases written with
      | none => rfl
      | some text =>
        have hrecord : t.record (.statement (some text)) = t := write_space hevent t
        rw [hrecord]
        rfl

/-- Behind a statement the separators that follow are written as their joint. -/
theorem joiner_behind {output : Text} (hne : output ≠ []) (separators : List Separator) :
    (⟨output, separators.foldl outranking none⟩ : Transcript).joiner = joint separators := by
  have hsome : ∀ separator, (⟨output, some separator⟩ : Transcript).joiner = separator.written :=
    fun separator => if_neg fun hempty => hne (List.isEmpty_iff.1 hempty)
  rw [foldl_outranking, joint]
  by_cases hnewline : .newline ∈ separators
  · rw [if_pos (.inr hnewline), if_pos hnewline]
    exact hsome .newline
  · rw [if_neg fun h => h.elim (by rintro ⟨⟩) hnewline, if_neg hnewline]
    cases separators.getLast? with
    | none => rfl
    | some separator => exact hsome separator

theorem joiner_front (pending : Option Separator) :
    (⟨[], pending⟩ : Transcript).joiner = [] := by
  cases pending <;> rfl

theorem foldl_record_passage (passage : Passage) (t : Transcript) :
    passage.events.foldl record t =
      ⟨t.output ++ (t.joiner ++ Text.trim passage.text),
        (Event.separators passage.behind).foldl outranking none⟩ := by
  have hwrite : t.write passage.text = ⟨t.output ++ (t.joiner ++ Text.trim passage.text), none⟩ := by
    rw [← write_trim, write_trimmed (Text.trimmed_trim _) passage.kept]
  show passage.behind.foldl record (t.write passage.text) = _
  rw [foldl_record_silent passage.silent, hwrite]

theorem output_passages {passages : List Passage} (hne : passages ≠ []) (t : Transcript) :
    ((passages.flatMap Passage.events).foldl record t).output =
      t.output ++ (t.joiner ++ laidOut passages) := by
  induction passages generalizing t with
  | nil => exact absurd rfl hne
  | cons passage passages ih =>
    rw [List.flatMap_cons, List.foldl_append, foldl_record_passage]
    cases passages with
    | nil => rfl
    | cons next passages =>
      have hwritten : t.output ++ (t.joiner ++ Text.trim passage.text) ≠ [] :=
        List.append_ne_nil_of_right_ne_nil _ (List.append_ne_nil_of_right_ne_nil _ passage.kept)
      rw [ih (List.cons_ne_nil _ _), joiner_behind hwritten, laidOut]
      simp only [List.append_assoc]

theorem output_ofEvents {events front : List Event} {passages : List Passage}
    (h : Parted events front passages) : (ofEvents events).output = laidOut passages := by
  rw [ofEvents, h.whole, List.foldl_append, foldl_record_silent h.silent]
  by_cases hne : passages = []
  · subst hne
    rfl
  · rw [output_passages hne]
    show [] ++ (_ ++ _) = _
    rw [empty, joiner_front]
    rfl

end Transcript

/-! ## The events of a run -/

namespace Progress

variable {settings : Settings}

/--
What a statement is written as.  A command is expanded and written, unless it expands to a statement
that sets variables; such statements are dropped or kept as the settings say.
-/
def written? (settings : Settings) (statement : Statement) (p : Progress) :
    Except Fault (Option Text) := do
  let value ←
    if isExpanded settings statement.kind then
      ((p.facing statement).expand settings statement.text).map Prod.fst
    else .ok statement.text
  let isCommand := statement.kind = .command ∧ expandedKind statement.text value = .command
  return if isCommand ∨ settings.keepAssignments = true then some value else none

/-- The events from a separator on. -/
def eventsFrom (settings : Settings) :
    (rest : List (Separator × Statement)) → Progress → Except Fault (List Event)
  | [], _ => .ok []
  | next :: rest, p => do
    let p : Progress := { p with transcript := p.transcript.separate next.1 }
    let written ← p.written? settings next.2
    let events ← eventsFrom settings rest (← p.take settings next.2)
    return .separator next.1 :: .statement written :: events

theorem spaced_eventsFrom {rest : List (Separator × Statement)} {p : Progress}
    {events : List Event} (h : p.eventsFrom settings rest = .ok events) (written : Option Text) :
    Spaced (.statement written :: events) := by
  induction rest generalizing p events written with
  | nil =>
    cases h
    exact List.isChain_singleton _
  | cons next rest ih =>
    obtain ⟨written', -, h⟩ := bind_eq_ok.1 h
    obtain ⟨q, -, h⟩ := bind_eq_ok.1 h
    obtain ⟨events', hevents, h⟩ := bind_eq_ok.1 h
    cases h
    refine List.isChain_cons_cons.2 ⟨fun _ => Option.some_ne_none _, ?_⟩
    exact List.isChain_cons_cons.2 ⟨fun h => absurd h (Option.some_ne_none _), ih hevents written'⟩

theorem transcript_assign (kind : Kind) (rendered : Text) (p : Progress) :
    (p.assign settings kind rendered).transcript =
      p.transcript.record
        (.statement (if settings.keepAssignments = true then some rendered else none)) := by
  unfold assign
  split
  · obtain ⟨known, assignments, hfold⟩ := foldl_define_eq kind.definitions (p.write rendered)
    rw [hfold]
    rfl
  · obtain ⟨known, assignments, hfold⟩ := foldl_define_eq kind.definitions p
    rw [hfold]
    rfl

/-- A statement has one event, and the transcript behind it tells the event and nothing else. -/
theorem take_event {statement : Statement} {p q : Progress}
    (h : p.take settings statement = .ok q) :
    ∃ written, p.written? settings statement = .ok written ∧
      q.transcript = p.transcript.record (.statement written) := by
  have hexpand : ∀ {text value : Text} {q : Progress},
      (p.facing statement).expand settings text = .ok (value, q) →
        q.transcript = p.transcript := by
    intro text value q hq
    obtain ⟨cyclic, memory, -, rfl⟩ := expand_eq_ok hq
    rfl
  have hexpanded : ∀ {value : Text} {q : Progress}, isExpanded settings statement.kind = true →
      (p.facing statement).expand settings statement.text = .ok (value, q) →
        p.written? settings statement = .ok
          (if (statement.kind = .command ∧ expandedKind statement.text value = .command) ∨
              settings.keepAssignments = true then some value else none) := by
    intro value q hkind hq
    unfold written?
    rw [if_pos hkind, hq]
    rfl
  cases take_takes h with
  | @command value q hkind hq hvalue =>
    refine ⟨some value, ?_, ?_⟩
    · rw [hexpanded (by rw [hkind]; rfl) hq, if_pos (.inl ⟨hkind, hvalue⟩)]
    · show q.transcript.write value = _
      rw [hexpand hq]
      rfl
  | @dynamic value q hkind hq hvalue _ =>
    refine ⟨_, hexpanded (by rw [hkind]; rfl) hq, ?_⟩
    rw [transcript_assign, hexpand hq, if_congr (or_iff_right fun h => hvalue h.2) rfl rfl]
  | @rendered value q hkind hkeep hq =>
    refine ⟨_, hexpanded hkeep hq, ?_⟩
    rw [transcript_assign, hexpand hq, if_congr (or_iff_right fun h => hkind h.1) rfl rfl]
  | recorded hkeep _ =>
    have hkind : statement.kind ≠ .command := by
      intro hkind
      rw [hkind] at hkeep
      cases hkeep
    refine ⟨if settings.keepAssignments = true then some statement.text else none, ?_, ?_⟩
    · unfold written?
      rw [hkeep, if_neg Bool.false_ne_true]
      show Except.ok _ = _
      rw [if_congr (or_iff_right fun h => hkind h.1) rfl rfl]
    · exact transcript_assign _ _ _

/-- So do the statements behind separators. -/
theorem takeAll_events {rest : List (Separator × Statement)} {p q : Progress}
    (h : p.takeAll settings rest = .ok q) :
    ∃ events, p.eventsFrom settings rest = .ok events ∧
      q.transcript = events.foldl Transcript.record p.transcript := by
  induction rest generalizing p with
  | nil =>
    cases h
    exact ⟨[], rfl, rfl⟩
  | cons next rest ih =>
    obtain ⟨p', hnext, hrest⟩ := bind_eq_ok.1 h
    obtain ⟨written, hwritten, htranscript⟩ := take_event hnext
    obtain ⟨events, hevents, hbehind⟩ := ih hrest
    refine ⟨.separator next.1 :: .statement written :: events, ?_, ?_⟩
    · exact bind_eq_ok.2 ⟨written, hwritten, bind_eq_ok.2 ⟨p', hnext,
        bind_eq_ok.2 ⟨events, hevents, rfl⟩⟩⟩
    · rw [hbehind, htranscript]
      rfl

end Progress

/-- What a run over a script feeds its transcript. -/
def events (settings : Settings) (s : Text) : Except Fault (List Event) := do
  let p := Progress.start settings
  let written ← p.written? settings (read s).head
  let events ← (← p.take settings (read s).head).eventsFrom settings (read s).tail
  return .statement written :: events

theorem spaced_events {settings : Settings} {s : Text} {events : List Event}
    (h : Script.events settings s = .ok events) : Spaced events := by
  obtain ⟨written, -, h⟩ := bind_eq_ok.1 h
  obtain ⟨q, -, h⟩ := bind_eq_ok.1 h
  obtain ⟨events', hevents, h⟩ := bind_eq_ok.1 h
  cases h
  exact Progress.spaced_eventsFrom hevents written

theorem run_events {settings : Settings} {s : Text} {p : Progress}
    (h : run settings s = .ok p) :
    ∃ events, Script.events settings s = .ok events ∧ p.transcript = .ofEvents events := by
  obtain ⟨-, q, htake, htakeAll⟩ := run_eq_ok.1 h
  obtain ⟨written, hwritten, htranscript⟩ := Progress.take_event htake
  obtain ⟨events, hevents, hbehind⟩ := Progress.takeAll_events htakeAll
  refine ⟨.statement written :: events, ?_, ?_⟩
  · exact bind_eq_ok.2 ⟨written, hwritten, bind_eq_ok.2 ⟨q, htake,
      bind_eq_ok.2 ⟨events, hevents, rfl⟩⟩⟩
  · rw [hbehind, htranscript]
    rfl

/--
The output, before long lines are broken, is the statements that are written, and between two of
them a line break if there is one between them in the script, else the last separator there.
Nothing stands in front of the first and behind the last.
-/
theorem output_eq_laidOut :
    (∀ events, ∃ front passages, Parted events front passages) ∧
    (∀ events front passages, Parted events front passages →
      (Transcript.ofEvents events).output = laidOut passages) ∧
    ∀ settings s r, settings.raw = true → reveal settings s = .ok r →
      ∃ events front passages, Script.events settings s = .ok events ∧
        Parted events front passages ∧ Separated passages ∧ r.output = laidOut passages := by
  refine ⟨exists_parted, fun events front passages => Transcript.output_ofEvents, ?_⟩
  intro settings s r hraw hreveal
  obtain ⟨p, hrun, hfinish⟩ := reveal_eq_ok.1 hreveal
  obtain ⟨live, -, rfl⟩ := Progress.finish_eq_ok hfinish
  obtain ⟨events, hevents, htranscript⟩ := run_events hrun
  obtain ⟨front, passages, hparted⟩ := exists_parted events
  have hspaced := spaced_events hevents
  rw [hparted.whole] at hspaced
  refine ⟨events, front, passages, hevents, hparted, Spaced.separated hspaced.right_of_append, ?_⟩
  calc p.output settings
      = p.transcript.output := if_pos hraw
    _ = (Transcript.ofEvents events).output := congrArg Transcript.output htranscript
    _ = laidOut passages := Transcript.output_ofEvents hparted

/--
Blank and dropped statements in front, between and behind: a line break outranks the bars behind
it, and of an ampersand and two bars the bars are written.
-/
theorem output_eq_laidOut_dropped :
    let s := " \n& set x=1\necho %x% && \n| set \"y=2\" || echo b & set z=3 || echo c &".toList
    let front : List Event := [.statement (some " ".toList), .separator .newline,
      .statement (some []), .separator .sequence, .statement none, .separator .newline]
    let passages : List Passage := [
      ⟨"echo 1 ".toList, [.separator .and, .statement (some " ".toList), .separator .newline,
        .statement (some []), .separator .pipe, .statement none, .separator .or],
        by decide, by decide⟩,
      ⟨" echo b ".toList, [.separator .sequence, .statement none, .separator .or],
        by decide, by decide⟩,
      ⟨" echo c ".toList, [.separator .sequence, .statement (some [])], by decide, by decide⟩]
    let events := front ++ passages.flatMap Passage.events
    let output := "echo 1\necho b || echo c".toList
    Script.events { raw := true } s = .ok events ∧
      Parted events front passages ∧ (Transcript.ofEvents events).output = output ∧
      reveal { raw := true } s =
        .ok ⟨output, [⟨['x'], ['1'], 0⟩, ⟨['y'], ['2'], 1⟩, ⟨['z'], ['3'], 2⟩], [], false⟩ ∧
      ∃ events' front' passages', Script.events { raw := true } s = .ok events' ∧
        Parted events' front' passages' ∧ Separated passages' ∧ output = laidOut passages' := by
  intro s front passages events output
  obtain ⟨-, hlaid, hrun⟩ := output_eq_laidOut
  have hevents : Script.events { raw := true } s = .ok events := by decide +kernel
  have hparted : Parted events front passages := ⟨rfl, by decide⟩
  have hwritten : (Transcript.ofEvents events).output = output := hlaid events front passages hparted
  have hreveal : reveal { raw := true } s =
      .ok ⟨output, [⟨['x'], ['1'], 0⟩, ⟨['y'], ['2'], 1⟩, ⟨['z'], ['3'], 2⟩], [], false⟩ := by
    decide +kernel
  exact ⟨hevents, hparted, hwritten, hreveal, hrun _ s _ rfl hreveal⟩

end Unmask.Script
