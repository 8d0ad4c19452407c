import Unmask.InfFile.Reveal
import Unmask.Proofs.LoopTermination
import Unmask.Proofs.Overflows
import Unmask.Proofs.Slices
import Unmask.Script.Reveal

/-!
# What stops a run

A run reads texts as templates: the statements of a script, the values it enters on the way, and in
the end its output.  `Reads` says which ones, in the order of the run.  It reads texts as statements,
too: those of the script, and what a command expands to.  `Rereads` says which ones these are.

A run stops at a text that slices by an offset which overflows, and at a loop that goes on for ever,
and at nothing else.  In an INF file no site has an offset and there are no loops, so nothing stops
the run.

    expand_eq_error_iff      the texts whose expansion stops
    reveal_eq_error_iff      the runs that stop, and at what
    reveal_completes_iff     which runs give a result
-/

namespace Unmask

open Template (Overflows)

/-! ## Expansions -/

namespace Expansion.Scope

variable {scope : Scope}

/-- The piece is a reference for which the text of a definition is expanded. -/
def Enters (scope : Scope) (chain : Chain) (memory : Memory) (piece : Piece) (g : Generation)
    (text : Text) : Prop :=
  ∃ r hit, piece.expr = .reference r ∧ scope.find chain r.name = .value g text hit ∧
    memory.known? g = none

/-- The texts that are read while the pieces of a template are expanded. -/
inductive Reads (scope : Scope) :
    (depth : Nat) → Chain → (budget : Nat) → Template → Memory → Text → Prop
  /-- The text of a definition that is entered. -/
  | definition {depth chain budget piece pieces memory g text} :
      scope.Enters chain memory piece g text →
      Reads scope (depth + 1) chain budget (piece :: pieces) memory text
  /-- What is read inside of a definition that is entered. -/
  | inside {depth chain budget piece pieces memory g text template s} :
      scope.Enters chain memory piece g text → Template.read scope.dialect text = .ok template →
      Reads scope depth (g :: chain) limit template memory s →
      Reads scope (depth + 1) chain budget (piece :: pieces) memory s
  /-- What is read behind the first piece, if that leaves room. -/
  | behind {depth chain budget piece pieces memory memory' s} {head : Outcome} :
      scope.expandPieceWith (scope.descend depth) chain piece memory = .ok (head, memory') →
      Text.byteLength head.resolution.value ≤ budget →
      Reads scope depth chain (budget - Text.byteLength head.resolution.value) pieces memory' s →
      Reads scope depth chain budget (piece :: pieces) memory s

/-- A piece stops where the definition that it enters does. -/
theorem expandPieceWith_eq_error_iff {descend : Descent} {chain : Chain} {piece : Piece}
    {memory : Memory} {fault : Fault} :
    scope.expandPieceWith descend chain piece memory = .error fault ↔
      ∃ g text, scope.Enters chain memory piece g text ∧
        descend (g :: chain) text memory = .error fault := by
  unfold expandPieceWith
  cases he : piece.expr with
  | literal text =>
    constructor
    · intro h
      cases h
    · rintro ⟨g, text, ⟨r, hit, hr, -⟩, -⟩
      rw [he] at hr
      cases hr
  | reference r =>
    simp only [resolveWith]
    constructor
    · intro h
      split at h
      · cases h
      · cases h
      · next g text hit hf =>
        split at h
        · cases h
        · next hk =>
          rcases bind_eq_error.1 h with h | ⟨found, -, h⟩
          · exact ⟨g, text, ⟨r, hit, he, hf, hk⟩, h⟩
          · cases h
    · rintro ⟨g, text, ⟨r', hit, hr, hf, hk⟩, h⟩
      rw [he] at hr
      cases hr
      simp only [hf, hk]
      exact bind_eq_error.2 (.inl h)

theorem descend_eq_error_iff {depth : Nat} {chain : Chain} {text : Text} {memory : Memory}
    {fault : Fault} :
    scope.descend (depth + 1) chain text memory = .error fault ↔
      (fault = .offsetOverflow ∧ Overflows scope.dialect text) ∨
      ∃ template, Template.read scope.dialect text = .ok template ∧
        scope.expandPiecesWith (scope.descend depth) chain limit template memory = .error fault := by
  rw [descend, bind_eq_error, Template.read_eq_error_iff]

theorem expandPiecesWith_cons_eq_error_iff {descend : Descent} {chain : Chain} {budget : Nat}
    {piece : Piece} {pieces : Template} {memory : Memory} {fault : Fault} :
    scope.expandPiecesWith descend chain budget (piece :: pieces) memory = .error fault ↔
      scope.expandPieceWith descend chain piece memory = .error fault ∨
        ∃ head memory', scope.expandPieceWith descend chain piece memory = .ok (head, memory') ∧
          Text.byteLength head.resolution.value ≤ budget ∧
          scope.expandPiecesWith descend chain (budget - Text.byteLength head.resolution.value)
            pieces memory' = .error fault := by
  rw [expandPiecesWith, bind_eq_error]
  refine or_congr Iff.rfl ⟨?_, ?_⟩
  · rintro ⟨⟨head, memory'⟩, hhead, h⟩
    refine ⟨head, memory', hhead, ?_⟩
    dsimp only at h
    by_cases hcut : budget < Text.byteLength head.resolution.value
    · rw [if_pos hcut] at h
      cases h
    · rw [if_neg hcut] at h
      rcases bind_eq_error.1 h with h | ⟨found, -, h⟩
      · exact ⟨Nat.le_of_not_lt hcut, h⟩
      · cases h
  · rintro ⟨head, memory', hhead, hfits, h⟩
    refine ⟨(head, memory'), hhead, ?_⟩
    dsimp only
    rw [if_neg (Nat.not_lt.2 hfits)]
    exact bind_eq_error.2 (.inl h)

theorem exists_reads_of_error {depth : Nat} {chain : Chain} {budget : Nat} {pieces : Template}
    {memory : Memory} {fault : Fault}
    (h : scope.expandPiecesWith (scope.descend depth) chain budget pieces memory = .error fault) :
    fault = .offsetOverflow ∧
      ∃ s, scope.Reads depth chain budget pieces memory s ∧ Overflows scope.dialect s := by
  -- the pieces are walked again at each depth, as a definition is entered one level deeper
  induction depth generalizing chain budget pieces memory with
  | zero =>
    induction pieces generalizing budget memory with
    | nil => cases h
    | cons piece pieces ih =>
      rcases expandPiecesWith_cons_eq_error_iff.1 h with h | ⟨head, memory', hhead, hfits, h⟩
      · -- at depth 0 a definition is not read
        obtain ⟨g, text, -, h⟩ := expandPieceWith_eq_error_iff.1 h
        cases h
      · obtain ⟨hfault, s, hs, hover⟩ := ih h
        exact ⟨hfault, s, .behind hhead hfits hs, hover⟩
  | succ depth deeper =>
    induction pieces generalizing budget memory with
    | nil => cases h
    | cons piece pieces ih =>
      rcases expandPiecesWith_cons_eq_error_iff.1 h with h | ⟨head, memory', hhead, hfits, h⟩
      · obtain ⟨g, text, henters, h⟩ := expandPieceWith_eq_error_iff.1 h
        rcases descend_eq_error_iff.1 h with ⟨hfault, hover⟩ | ⟨template, hread, h⟩
        · exact ⟨hfault, text, .definition henters, hover⟩
        · obtain ⟨hfault, s, hs, hover⟩ := deeper h
          exact ⟨hfault, s, .inside henters hread hs, hover⟩
      · obtain ⟨hfault, s, hs, hover⟩ := ih h
        exact ⟨hfault, s, .behind hhead hfits hs, hover⟩

theorem Reads.error {depth : Nat} {chain : Chain} {budget : Nat} {pieces : Template}
    {memory : Memory} {s : Text} (h : scope.Reads depth chain budget pieces memory s)
    (hover : Overflows scope.dialect s) :
    scope.expandPiecesWith (scope.descend depth) chain budget pieces memory =
      .error .offsetOverflow := by
  induction h with
  | definition henters =>
    exact expandPiecesWith_cons_eq_error_iff.2 (.inl (expandPieceWith_eq_error_iff.2
      ⟨_, _, henters, descend_eq_error_iff.2 (.inl ⟨rfl, hover⟩)⟩))
  | inside henters hread _ ih =>
    exact expandPiecesWith_cons_eq_error_iff.2 (.inl (expandPieceWith_eq_error_iff.2
      ⟨_, _, henters, descend_eq_error_iff.2 (.inr ⟨_, hread, ih hover⟩)⟩))
  | behind hhead hfits _ ih =>
    exact expandPiecesWith_cons_eq_error_iff.2 (.inr ⟨_, _, hhead, hfits, ih hover⟩)

/-- The texts that are read while `text` is expanded outside of any definition. -/
inductive ReadsIn (scope : Scope) (text : Text) (memory : Memory) : Text → Prop
  /-- The text itself. -/
  | itself : ReadsIn scope text memory text
  /-- What its references lead to. -/
  | inside {template s} : Template.read scope.dialect text = .ok template →
      scope.Reads scope.definitions.total [] limit template memory s → ReadsIn scope text memory s

/-- The expansion of a text stops at a text it reads that overflows. -/
theorem expand_eq_error_iff {text : Text} {memory : Memory} {fault : Fault} :
    scope.expand text memory = .error fault ↔ fault = .offsetOverflow ∧
      ∃ s, scope.ReadsIn text memory s ∧ Overflows scope.dialect s := by
  unfold expand
  constructor
  · intro h
    rcases bind_eq_error.1 h with h | ⟨template, hread, h⟩
    · obtain ⟨hfault, hover⟩ := Template.read_eq_error_iff.1 h
      exact ⟨hfault, text, .itself, hover⟩
    · rcases bind_eq_error.1 h with h | ⟨found, -, h⟩
      · obtain ⟨hfault, s, hs, hover⟩ := exists_reads_of_error h
        exact ⟨hfault, s, .inside hread hs, hover⟩
      · cases h
  · rintro ⟨rfl, s, hs, hover⟩
    refine bind_eq_error.2 ?_
    cases hs with
    | itself => exact .inl (Template.read_eq_error_iff.2 ⟨rfl, hover⟩)
    | inside hread hs =>
      exact .inr ⟨_, hread, bind_eq_error.2 (.inl (hs.error hover))⟩

end Expansion.Scope

/-! ## Scripts -/

namespace Script.Progress

variable {settings : Settings}

/-- Where a run stands when it has seen the switch in front of a statement, if there is one. -/
def facing (statement : Statement) (p : Progress) : Progress :=
  { p with delayed := p.delayed || holdsDelayedSwitch (Text.words statement.text) }

def scope (settings : Settings) (p : Progress) : Expansion.Scope :=
  ⟨p.definitions, dialect p.delayed, settings.unknownNames⟩

def isExpanded (settings : Settings) : Kind → Bool
  | .command => true
  | .assignment _ _ => settings.keepAssignments
  | .loop _ => false
  | .endless => false

/-- What a command with this text does if it expands to `value`. -/
def expandedKind (text value : Text) : Kind :=
  if value = text then .command else ((Statement.whole? value).map Statement.kind).getD .command

/-- The texts that a run reads from a statement on, each with the dialect it is read in. -/
inductive Reads (settings : Settings) :
    Statement → List (Separator × Statement) → Progress → Dialect → Text → Prop
  /-- What is read while the statement is expanded. -/
  | statement {statement rest p s} : isExpanded settings statement.kind = true →
      ((p.facing statement).scope settings).ReadsIn statement.text .empty s →
      Reads settings statement rest p (dialect (p.facing statement).delayed) s
  /-- What is read behind it. -/
  | behind {statement next rest p q d s} : p.take settings statement = .ok q →
      Reads settings next.2 rest { q with transcript := q.transcript.separate next.1 } d s →
      Reads settings statement (next :: rest) p d s
  /-- The output, behind the last statement. -/
  | output {statement p q} : p.take settings statement = .ok q →
      Reads settings statement [] p (dialect q.delayed) (q.output settings)

/-- The texts that commands expand to from a statement on, where these are read as statements. -/
inductive Rereads (settings : Settings) :
    Statement → List (Separator × Statement) → Progress → Text → Prop
  /-- What the statement expands to. -/
  | statement {statement rest p value q} : statement.kind = .command →
      (p.facing statement).expand settings statement.text = .ok (value, q) →
      value ≠ statement.text → Rereads settings statement rest p value
  /-- What a statement behind it expands to. -/
  | behind {statement next rest p q value} : p.take settings statement = .ok q →
      Rereads settings next.2 rest { q with transcript := q.transcript.separate next.1 } value →
      Rereads settings statement (next :: rest) p value

/-- A text that is one statement from end to end, and that goes on for ever. -/
def Endless (s : Text) : Prop :=
  ∃ form, wholeForm? s = some form ∧ ¬form.Ends

theorem expandedKind_eq_endless_iff {text value : Text} :
    expandedKind text value = .endless ↔ value ≠ text ∧ Endless value := by
  unfold expandedKind Endless Statement.whole?
  by_cases hvalue : value = text
  · rw [if_pos hvalue]
    exact ⟨(by cases ·), fun h => absurd hvalue h.1⟩
  · rw [if_neg hvalue]
    cases wholeForm? value with
    | none => exact ⟨(by cases ·), fun ⟨_, _, h, _⟩ => by cases h⟩
    | some form =>
      rw [Option.map_some, Option.map_some, Option.getD_some, Form.kind_eq_endless_iff]
      constructor
      · exact fun h => ⟨hvalue, form, rfl, h⟩
      · rintro ⟨-, _, hform, h⟩
        cases hform
        exact h

theorem expand_eq_error_iff {text : Text} {p : Progress} {fault : Fault} :
    p.expand settings text = .error fault ↔ fault = .offsetOverflow ∧
      ∃ s, (p.scope settings).ReadsIn text .empty s ∧ Overflows (dialect p.delayed) s := by
  unfold expand
  dsimp only
  rw [bind_eq_error_left (fun _ h => by cases h)]
  exact Expansion.Scope.expand_eq_error_iff

theorem expandedKind_eq_command {value : Text} (text : Text) (h : (readForm value).1 = .command) :
    expandedKind text value = .command := by
  unfold expandedKind Statement.whole? wholeForm?
  split
  · rfl
  · split
    · next form hform =>
      rw [hform] at h
      exact congrArg Form.kind h
    · rfl

/-- Where a run stands behind a command that expands to a value, or what stops it there. -/
def afterCommand (settings : Settings) (text value : Text) (p : Progress) : Except Fault Progress :=
  if expandedKind text value = .command then .ok (p.write value)
  else if expandedKind text value = .endless then .error .endlessLoop
  else .ok (p.assign settings (expandedKind text value) value)

theorem afterCommand_eq_ok_iff {text value : Text} {p q : Progress} :
    p.afterCommand settings text value = .ok q ↔
      (expandedKind text value = .command ∧ p.write value = q) ∨
      (expandedKind text value ≠ .command ∧ expandedKind text value ≠ .endless ∧
        p.assign settings (expandedKind text value) value = q) := by
  unfold afterCommand
  split
  · next hcommand => simp [hcommand]
  · next hcommand =>
    split
    · next hendless => simp [hendless]
    · next hendless => simp [hcommand, hendless]

theorem afterCommand_eq_error_iff {text value : Text} {p : Progress} {fault : Fault} :
    p.afterCommand settings text value = .error fault ↔
      fault = .endlessLoop ∧ expandedKind text value = .endless := by
  unfold afterCommand
  split
  · next hcommand => simp [hcommand]
  · split
    · next hendless => simp [hendless, eq_comm]
    · next hendless => simp [hendless]

/-- A command is expanded, and what it expands to decides what becomes of it. -/
theorem take_command_eq (text : Text) (p : Progress) :
    p.take settings ⟨text, .command⟩ =
      (p.facing ⟨text, .command⟩).expand settings text >>= fun found =>
        found.2.afterCommand settings text found.1 :=
  rfl

/-- What stops a run at a statement that does not go on for ever. -/
theorem take_eq_error_iff {statement : Statement} {p : Progress} {fault : Fault}
    (hends : statement.kind ≠ .endless) :
    p.take settings statement = .error fault ↔
      (fault = .offsetOverflow ∧ isExpanded settings statement.kind = true ∧
        ∃ s, ((p.facing statement).scope settings).ReadsIn statement.text .empty s ∧
          Overflows (dialect (p.facing statement).delayed) s) ∨
      (fault = .endlessLoop ∧ statement.kind = .command ∧ ∃ value q,
        (p.facing statement).expand settings statement.text = .ok (value, q) ∧
          value ≠ statement.text ∧ Endless value) := by
  obtain ⟨text, kind⟩ := statement
  cases kind with
  | command =>
    rw [take_command_eq, bind_eq_error, expand_eq_error_iff]
    simp only [afterCommand_eq_error_iff, expandedKind_eq_endless_iff, isExpanded, true_and,
      Prod.exists]
    refine or_congr Iff.rfl ⟨?_, ?_⟩
    · rintro ⟨value, q, hexpand, hfault, h⟩
      exact ⟨hfault, value, q, hexpand, h⟩
    · rintro ⟨hfault, value, q, hexpand, h⟩
      exact ⟨value, q, hexpand, hfault, h⟩
  | assignment name value =>
    unfold take isExpanded
    dsimp only
    by_cases hkeep : settings.keepAssignments = true
    · rw [if_pos hkeep, bind_eq_error_left (fun _ h => by cases h)]
      refine expand_eq_error_iff.trans ⟨fun h => .inl ⟨h.1, hkeep, h.2⟩, ?_⟩
      rintro (⟨hfault, -, h⟩ | ⟨-, h, -⟩)
      · exact ⟨hfault, h⟩
      · cases h
    · rw [if_neg hkeep]
      refine ⟨(by cases ·), ?_⟩
      rintro (⟨-, h, -⟩ | ⟨-, h, -⟩)
      · exact absurd h hkeep
      · cases h
  | loop definitions =>
    refine ⟨(by cases ·), ?_⟩
    rintro (⟨-, h, -⟩ | ⟨-, h, -⟩) <;> cases h
  | endless => exact absurd rfl hends

theorem finish_eq_error_iff {p : Progress} {fault : Fault} :
    p.finish settings = .error fault ↔
      fault = .offsetOverflow ∧ Overflows (dialect p.delayed) (p.output settings) := by
  unfold finish Expansion.Scope.liveReferences
  dsimp only
  rw [bind_eq_error_left (fun _ h => by cases h), bind_eq_error_left (fun _ h => by cases h)]
  exact Template.read_eq_error_iff

/-- A run from a statement on. -/
def runFrom (settings : Settings) (statement : Statement) (rest : List (Separator × Statement))
    (p : Progress) : Except Fault Revealed :=
  p.take settings statement >>= fun q => q.takeAll settings rest >>= finish settings

theorem runFrom_cons {statement : Statement} {next : Separator × Statement}
    {rest : List (Separator × Statement)} {p : Progress} :
    runFrom settings statement (next :: rest) p =
      p.take settings statement >>= fun q =>
        runFrom settings next.2 rest { q with transcript := q.transcript.separate next.1 } := by
  unfold runFrom
  simp only [takeAll, bind_assoc]
  rfl

/-- What stops a run from a statement on: a text that overflows, or a value that is endless. -/
def Stops (settings : Settings) (statement : Statement) (rest : List (Separator × Statement))
    (p : Progress) : Fault → Prop
  | .offsetOverflow => ∃ d s, Reads settings statement rest p d s ∧ Overflows d s
  | .endlessLoop => ∃ value, Rereads settings statement rest p value ∧ Endless value

theorem stops_of_take {statement : Statement} (hends : statement.kind ≠ .endless)
    {rest : List (Separator × Statement)} {p : Progress} {fault : Fault}
    (h : p.take settings statement = .error fault) : Stops settings statement rest p fault := by
  rcases (take_eq_error_iff hends).1 h with
    ⟨rfl, hexp, s, hs, hover⟩ | ⟨rfl, hkind, value, q, hexpand, hne, hendless⟩
  · exact ⟨_, s, .statement hexp hs, hover⟩
  · exact ⟨value, .statement hkind hexpand hne, hendless⟩

theorem Stops.behind {statement : Statement} {next : Separator × Statement}
    {rest : List (Separator × Statement)} {p q : Progress} {fault : Fault}
    (htake : p.take settings statement = .ok q)
    (h : Stops settings next.2 rest { q with transcript := q.transcript.separate next.1 } fault) :
    Stops settings statement (next :: rest) p fault := by
  cases fault with
  | offsetOverflow =>
    obtain ⟨d, s, hs, hover⟩ := h
    exact ⟨d, s, .behind htake hs, hover⟩
  | endlessLoop =>
    obtain ⟨value, hvalue, hendless⟩ := h
    exact ⟨value, .behind htake hvalue, hendless⟩

/-- What it reads stops a run, if the run does not come to an endless statement before. -/
theorem Reads.error {statement : Statement} {rest : List (Separator × Statement)} {p : Progress}
    {d : Dialect} {s : Text} (h : Reads settings statement rest p d s) (hover : Overflows d s)
    (hends : Script.ends ⟨statement, rest⟩ = true) :
    runFrom settings statement rest p = .error .offsetOverflow := by
  induction h with
  | statement hexp hs =>
    have hkind := ends_iff.1 hends _ List.mem_cons_self
    exact bind_eq_error.2 (.inl ((take_eq_error_iff hkind).2 (.inl ⟨rfl, hexp, _, hs, hover⟩)))
  | behind htake _ ih =>
    rw [runFrom_cons]
    exact bind_eq_error.2 (.inr ⟨_, htake, ih hover (ends_tail hends)⟩)
  | output htake => exact bind_eq_error.2 (.inr ⟨_, htake, finish_eq_error_iff.2 ⟨rfl, hover⟩⟩)

theorem Rereads.error {statement : Statement} {rest : List (Separator × Statement)} {p : Progress}
    {value : Text} (h : Rereads settings statement rest p value) (hendless : Endless value)
    (hends : Script.ends ⟨statement, rest⟩ = true) :
    runFrom settings statement rest p = .error .endlessLoop := by
  induction h with
  | statement hkind hexpand hne =>
    have hends := ends_iff.1 hends _ List.mem_cons_self
    exact bind_eq_error.2
      (.inl ((take_eq_error_iff hends).2 (.inr ⟨rfl, hkind, _, _, hexpand, hne, hendless⟩)))
  | behind htake _ ih =>
    rw [runFrom_cons]
    exact bind_eq_error.2 (.inr ⟨_, htake, ih hendless (ends_tail hends)⟩)

/-- A run over statements that end stops at a text that overflows or at a value that is endless. -/
theorem runFrom_eq_error_iff {statement : Statement} {rest : List (Separator × Statement)}
    {p : Progress} {fault : Fault} (hends : Script.ends ⟨statement, rest⟩ = true) :
    runFrom settings statement rest p = .error fault ↔ Stops settings statement rest p fault := by
  constructor
  · intro h
    induction rest generalizing statement p with
    | nil =>
      rcases bind_eq_error.1 h with h | ⟨q, htake, h⟩
      · exact stops_of_take (ends_iff.1 hends _ List.mem_cons_self) h
      · obtain ⟨rfl, hover⟩ := finish_eq_error_iff.1 h
        exact ⟨_, _, .output htake, hover⟩
    | cons next rest ih =>
      rw [runFrom_cons] at h
      rcases bind_eq_error.1 h with h | ⟨q, htake, h⟩
      · exact stops_of_take (ends_iff.1 hends _ List.mem_cons_self) h
      · exact .behind htake (ih (ends_tail hends) h)
  · intro h
    cases fault with
    | offsetOverflow =>
      obtain ⟨d, s, hs, hover⟩ := h
      exact hs.error hover hends
    | endlessLoop =>
      obtain ⟨value, hvalue, hendless⟩ := h
      exact hvalue.error hendless hends

end Script.Progress

namespace Script

/-- The texts that are read while a script is revealed, each with its dialect. -/
def Reads (settings : Settings) (s : Text) : Dialect → Text → Prop :=
  Progress.Reads settings (read s).head (read s).tail (.start settings)

/-- The texts that commands of a script expand to, where these are read as statements. -/
def Rereads (settings : Settings) (s : Text) : Text → Prop :=
  Progress.Rereads settings (read s).head (read s).tail (.start settings)

/-- An endless statement stops a run before the first one is taken. -/
theorem reveal_eq_error_iff {settings : Settings} {s : Text} {fault : Fault} :
    reveal settings s = .error fault ↔
      (fault = .endlessLoop ∧ ¬LoopsEnd s) ∨
      (LoopsEnd s ∧ Progress.Stops settings (read s).head (read s).tail (.start settings) fault) := by
  refine bind_eq_error.trans (or_congr (scan_eq_error_iff.trans and_comm) ?_)
  constructor
  · rintro ⟨script, hscan, h⟩
    obtain ⟨hends, rfl⟩ := scan_eq_ok_iff.1 hscan
    exact ⟨hends, (Progress.runFrom_eq_error_iff (ends_read_iff.2 hends)).1 h⟩
  · rintro ⟨hends, h⟩
    exact ⟨read s, scan_eq_ok_iff.2 ⟨hends, rfl⟩,
      (Progress.runFrom_eq_error_iff (ends_read_iff.2 hends)).2 h⟩

/-- A run gives a result if its loops end, and no text that it reads stops it. -/
theorem exists_reveal_iff {settings : Settings} {s : Text} :
    (∃ r, reveal settings s = .ok r) ↔
      LoopsEnd s ∧ (∀ d text, Reads settings s d text → ¬Overflows d text) ∧
        ∀ value, Rereads settings s value → ¬Progress.Endless value := by
  rw [exists_ok_iff]
  constructor
  · intro h
    have hends : LoopsEnd s := by
      by_contra hnot
      exact h _ (reveal_eq_error_iff.2 (.inl ⟨rfl, hnot⟩))
    refine ⟨hends, fun d text hreads hover => ?_, fun value hvalue hendless => ?_⟩
    · exact h .offsetOverflow (reveal_eq_error_iff.2 (.inr ⟨hends, d, text, hreads, hover⟩))
    · exact h .endlessLoop (reveal_eq_error_iff.2 (.inr ⟨hends, value, hvalue, hendless⟩))
  · rintro ⟨hends, hover, hendless⟩ fault h
    rcases reveal_eq_error_iff.1 h with ⟨-, hnot⟩ | ⟨-, hstops⟩
    · exact hnot hends
    · cases fault with
      | offsetOverflow =>
        obtain ⟨d, text, hreads, h⟩ := hstops
        exact hover d text hreads h
      | endlessLoop =>
        obtain ⟨value, hvalue, h⟩ := hstops
        exact hendless value hvalue h

end Script

/-! ## INF files -/

namespace InfFile

theorem not_overflows (s : Text) : ¬ Overflows .inf s := by
  rintro ⟨fragment, hmem, hover⟩
  unfold Template.Fragment.Overflows at hover
  split at hover
  · cases Template.Fragment.body_eq_none_of_mem_cut hmem
  · exact hover

/-- Texts are expanded one after the other, as no one stops. -/
theorem expandAll_ok (scope : Expansion.Scope) (hinf : scope.dialect = .inf) (texts : List Text)
    (memory : Expansion.Memory) : ∃ r, expandAll scope texts memory = .ok r := by
  induction texts generalizing memory with
  | nil => exact ⟨_, rfl⟩
  | cons text texts ih =>
    obtain ⟨⟨head, memory'⟩, hhead⟩ : ∃ r, scope.expand text memory = .ok r := by
      refine exists_ok_iff.2 fun fault h => ?_
      obtain ⟨-, s, -, hover⟩ := Expansion.Scope.expand_eq_error_iff.1 h
      rw [hinf] at hover
      exact not_overflows s hover
    obtain ⟨⟨⟨tail, cyclic⟩, memory''⟩, htail⟩ := ih memory'
    refine ⟨_, bind_eq_ok.2 ⟨_, hhead, bind_eq_ok.2 ⟨_, htail, rfl⟩⟩⟩

theorem reveal_ok (settings : Settings) (s : Text) : ∃ r, reveal settings s = .ok r := by
  unfold reveal
  dsimp only
  obtain ⟨⟨⟨values, cyclic⟩, memory⟩, h⟩ :=
    expandAll_ok ⟨_, .inf, settings.unknownNames⟩ rfl _ .empty
  exact ⟨_, bind_eq_ok.2 ⟨_, h, rfl⟩⟩

end InfFile

/--
An INF file gives a result.  A script does exactly if each chain of loops comes to an end, in its
statements as in what its commands expand to, and no text that is read slices by an offset which
overflows.  A slice that is read never leaves the range of offsets or the text, if that is no longer
than the greatest offset.
-/
theorem reveal_completes_iff (settings : Settings) :
    (∀ s, ∃ r, InfFile.reveal settings s = .ok r) ∧
    (∀ s, (∃ r, Script.reveal settings s = .ok r) ↔
      Script.LoopsEnd s ∧
      (∀ d text, Script.Reads settings s d text → ¬ Overflows d text) ∧
      ∀ value, Script.Rereads settings s value → ¬ Script.Progress.Endless value) ∧
    (∀ d s template, Template.read d s = .ok template → ∀ r ∈ template.references,
      ∀ start length, r.modifier = .slice start length →
      ∀ value : Text, (value.length : Int) ≤ Template.Offset.greatest →
        Expansion.slice? start length value = some (Expansion.slice start length value)) := by
  refine ⟨InfFile.reveal_ok settings, fun s => Script.exists_reveal_iff, ?_⟩
  intro d s template hread r hr start length hslice value hsize
  obtain ⟨hstart, hlength⟩ := Template.slice_inRange_of_read hread hr hslice
  exact Expansion.slice?_eq_some hsize hstart hlength

/-- An input that stops a run. -/
theorem reveal_stops :
    Script.reveal {} "%A:~-0-1000000000000000000000%".toList = .error .offsetOverflow := by
  decide +kernel

end Unmask
