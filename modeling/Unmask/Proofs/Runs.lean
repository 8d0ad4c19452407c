import Unmask.Proofs.Faults

/-!
# What the statements of a script do to a run

A run goes from one statement to the next.  `Takes` says all that taking a statement can do: the
text may be expanded, and then it is written, or definitions are recorded.  So a property of where a
run stands holds at its end if it holds at the start and each of these few operations keeps it.

    take_takes       taking a statement does one of four things
    Kept.reveal      what the operations keep holds at the end of a run
-/

namespace Unmask.Script

/-! ## One statement -/

/-- Whether a statement holds the switch that makes `!NAME!` a reference. -/
def Statement.switchesDelayed (statement : Statement) : Bool :=
  holdsDelayedSwitch (Text.words statement.text)

namespace Progress

variable {settings : Settings}

/-- From where a run stands to where it stands behind a statement. -/
inductive Takes (settings : Settings) (statement : Statement) (p : Progress) : Progress → Prop
  /-- A command is expanded and written. -/
  | command {value q} : statement.kind = .command →
      (p.facing statement).expand settings statement.text = .ok (value, q) →
      expandedKind statement.text value = .command → Takes settings statement p (q.write value)
  /-- A command expands to a statement that sets variables. -/
  | dynamic {value q} : statement.kind = .command →
      (p.facing statement).expand settings statement.text = .ok (value, q) →
      expandedKind statement.text value ≠ .command →
      expandedKind statement.text value ≠ .endless →
      Takes settings statement p (q.assign settings (expandedKind statement.text value) value)
  /-- An assignment that is kept is expanded as well. -/
  | rendered {value q} : statement.kind ≠ .command → isExpanded settings statement.kind = true →
      (p.facing statement).expand settings statement.text = .ok (value, q) →
      Takes settings statement p (q.assign settings statement.kind value)
  /-- Any other statement that sets variables stays as it is. -/
  | recorded : isExpanded settings statement.kind = false → statement.kind ≠ .endless →
      Takes settings statement p ((p.facing statement).assign settings statement.kind statement.text)

theorem take_takes {statement : Statement} {p q : Progress}
    (h : p.take settings statement = .ok q) : Takes settings statement p q := by
  obtain ⟨text, kind⟩ := statement
  cases kind with
  | command =>
    rw [take_command_eq] at h
    obtain ⟨⟨value, p'⟩, hexpand, h⟩ := bind_eq_ok.1 h
    obtain ⟨hkind, rfl⟩ | ⟨hkind, hendless, rfl⟩ := afterCommand_eq_ok_iff.1 h
    · exact .command rfl hexpand hkind
    · exact .dynamic rfl hexpand hkind hendless
  | assignment name value =>
    unfold take at h
    dsimp only at h
    by_cases hkeep : settings.keepAssignments = true
    · rw [if_pos hkeep] at h
      obtain ⟨⟨rendered, p'⟩, hexpand, h⟩ := bind_eq_ok.1 h
      cases h
      exact .rendered (fun hk => by cases hk) hkeep hexpand
    · rw [if_neg hkeep] at h
      cases h
      exact .recorded (by simpa [isExpanded] using hkeep) (by cases ·)
  | loop definitions =>
    cases h
    exact .recorded rfl (by cases ·)
  | endless => cases h

theorem expand_eq_ok {text value : Text} {p q : Progress}
    (h : p.expand settings text = .ok (value, q)) :
    ∃ cyclic memory, (p.scope settings).expand text .empty = .ok (⟨value, cyclic⟩, memory) ∧
      q = { p with
        diagnostics := memory.diagnostics.foldl (fun ds d => d.add ds) p.diagnostics
        cyclic := p.cyclic || cyclic } := by
  obtain ⟨⟨⟨value', cyclic⟩, memory⟩, hexpand, h⟩ := bind_eq_ok.1 h
  cases h
  exact ⟨cyclic, memory, hexpand, rfl⟩

/-! ## What a run keeps -/

/-- The operations on where a run stands keep a property. -/
structure Kept (settings : Settings) (P : Progress → Prop) : Prop where
  facing : ∀ {p} statement, P p → P (p.facing statement)
  expand : ∀ {p q text value}, P p → p.expand settings text = .ok (value, q) → P q
  write : ∀ {p} statement, P p → P (p.write statement)
  define : ∀ {p} definition, P p → P (p.define definition)
  separate : ∀ {p : Progress} separator, P p →
    P { p with transcript := p.transcript.separate separator }

namespace Kept

variable {P : Progress → Prop} {p q : Progress}

theorem and {Q : Progress → Prop} (kept : Kept settings P) (kept' : Kept settings Q) :
    Kept settings fun p => P p ∧ Q p where
  facing statement h := ⟨kept.facing statement h.1, kept'.facing statement h.2⟩
  expand h hexpand := ⟨kept.expand h.1 hexpand, kept'.expand h.2 hexpand⟩
  write statement h := ⟨kept.write statement h.1, kept'.write statement h.2⟩
  define definition h := ⟨kept.define definition h.1, kept'.define definition h.2⟩
  separate separator h := ⟨kept.separate separator h.1, kept'.separate separator h.2⟩

theorem assign (kept : Kept settings P) (kind : Kind) (rendered : Text) (hp : P p) :
    P (p.assign settings kind rendered) := by
  have hfold : ∀ (definitions : List (Text × Text)) (p : Progress), P p →
      P (definitions.foldl Progress.define p) := by
    intro definitions
    induction definitions with
    | nil => exact fun p hp => hp
    | cons d definitions ih => exact fun p hp => ih _ (kept.define d hp)
  unfold Progress.assign
  apply hfold
  split
  · exact kept.write rendered hp
  · exact hp

theorem take (kept : Kept settings P) {statement : Statement} (hp : P p)
    (h : p.take settings statement = .ok q) : P q := by
  have hfacing := kept.facing statement hp
  cases take_takes h with
  | command _ hexpand _ => exact kept.write _ (kept.expand hfacing hexpand)
  | dynamic _ hexpand _ _ => exact kept.assign _ _ (kept.expand hfacing hexpand)
  | rendered _ _ hexpand => exact kept.assign _ _ (kept.expand hfacing hexpand)
  | recorded _ _ => exact kept.assign _ _ hfacing

theorem takeAll (kept : Kept settings P) {rest : List (Separator × Statement)} (hp : P p)
    (h : p.takeAll settings rest = .ok q) : P q := by
  induction rest generalizing p with
  | nil =>
    cases h
    exact hp
  | cons next rest ih =>
    obtain ⟨p', hnext, hrest⟩ := bind_eq_ok.1 h
    exact ih (kept.take (kept.separate next.1 hp) hnext) hrest

end Kept

/-! ## The dialect in force -/

theorem write_delayed (statement : Text) (p : Progress) : (p.write statement).delayed = p.delayed :=
  rfl

theorem foldl_define_eq (definitions : List (Text × Text)) (p : Progress) :
    ∃ known assignments,
      definitions.foldl define p = { p with definitions := known, assignments } := by
  induction definitions generalizing p with
  | nil => exact ⟨p.definitions, p.assignments, rfl⟩
  | cons d definitions ih => exact ih (p.define d)

theorem assign_delayed (kind : Kind) (rendered : Text) (p : Progress) :
    (p.assign settings kind rendered).delayed = p.delayed := by
  unfold assign
  split
  · obtain ⟨known, assignments, hfold⟩ := foldl_define_eq kind.definitions (p.write rendered)
    rw [hfold]
    rfl
  · obtain ⟨known, assignments, hfold⟩ := foldl_define_eq kind.definitions p
    rw [hfold]

theorem take_delayed {statement : Statement} {p q : Progress}
    (h : p.take settings statement = .ok q) :
    q.delayed = (p.delayed || statement.switchesDelayed) := by
  have hexpand : ∀ {value p'}, (p.facing statement).expand settings statement.text =
      .ok (value, p') → p'.delayed = (p.delayed || statement.switchesDelayed) := by
    intro value p' hexpand
    obtain ⟨cyclic, memory, -, rfl⟩ := expand_eq_ok hexpand
    rfl
  cases take_takes h with
  | command _ hvalue _ => exact (write_delayed _ _).trans (hexpand hvalue)
  | dynamic _ hvalue _ _ => exact (assign_delayed _ _ _).trans (hexpand hvalue)
  | rendered _ _ hvalue => exact (assign_delayed _ _ _).trans (hexpand hvalue)
  | recorded _ _ => exact assign_delayed _ _ _

theorem takeAll_delayed {rest : List (Separator × Statement)} {p q : Progress}
    (h : p.takeAll settings rest = .ok q) :
    q.delayed = (p.delayed || rest.any fun next => next.2.switchesDelayed) := by
  induction rest generalizing p with
  | nil =>
    cases h
    simp
  | cons next rest ih =>
    obtain ⟨p', hnext, hrest⟩ := bind_eq_ok.1 h
    rw [ih hrest, take_delayed hnext, List.any_cons, Bool.or_assoc]

theorem finish_eq_ok {p : Progress} {r : Revealed} (h : p.finish settings = .ok r) :
    ∃ live, Expansion.Scope.liveReferences ⟨p.definitions, dialect p.delayed, .erase⟩
        (p.output settings) = .ok live ∧
      r = ⟨p.output settings, p.assignments,
        (live.map Diagnostic.ambiguousExpansion).foldl (fun ds d => d.add ds) p.diagnostics,
        p.cyclic⟩ := by
  obtain ⟨live, hlive, h⟩ := bind_eq_ok.1 h
  cases h
  exact ⟨live, hlive, by rw [List.foldl_map]⟩

end Progress

/-! ## Whole runs -/

/-- The dialect in force when the last statement was taken. -/
def lastDialect (settings : Settings) (script : Script) : Dialect :=
  dialect (settings.delayedExpansion || script.head.switchesDelayed ||
    script.tail.any fun next => next.2.switchesDelayed)

def run (settings : Settings) (s : Text) : Except Fault Progress := do
  let script ← scan s
  let p ← (Progress.start settings).take settings script.head
  p.takeAll settings script.tail

theorem reveal_eq_run (settings : Settings) (s : Text) :
    reveal settings s = run settings s >>= Progress.finish settings := by
  unfold reveal run
  simp only [bind_assoc]

theorem reveal_eq_ok {settings : Settings} {s : Text} {r : Revealed} :
    reveal settings s = .ok r ↔ ∃ p, run settings s = .ok p ∧ p.finish settings = .ok r := by
  rw [reveal_eq_run, bind_eq_ok]

/-- A run over the statements of a text has a result only if none of these goes on for ever. -/
theorem run_eq_ok {settings : Settings} {s : Text} {p : Progress} :
    run settings s = .ok p ↔ LoopsEnd s ∧ ∃ q, (Progress.start settings).take settings (read s).head =
      .ok q ∧ q.takeAll settings (read s).tail = .ok p := by
  refine bind_eq_ok.trans ⟨?_, ?_⟩
  · rintro ⟨script, hscan, h⟩
    obtain ⟨hends, rfl⟩ := scan_eq_ok_iff.1 hscan
    exact ⟨hends, bind_eq_ok.1 h⟩
  · rintro ⟨hends, h⟩
    exact ⟨read s, scan_eq_ok_iff.2 ⟨hends, rfl⟩, bind_eq_ok.2 h⟩

/-- A run is computed where no more than `depth` loops stand in one another. -/
theorem reveal_of_within (depth : Nat) {settings : Settings} {s : Text} {r : Revealed}
    (h : ((readWithin depth s).filter Script.ends).map (fun script => do
      let p ← (Progress.start settings).take settings script.head
      let p ← p.takeAll settings script.tail
      p.finish settings) = some (.ok r)) : reveal settings s = .ok r := by
  obtain ⟨script, hscript, h⟩ := Option.map_eq_some_iff.1 h
  obtain ⟨hread, hends⟩ := Option.filter_eq_some_iff.1 hscript
  have hscan : scan s = .ok script :=
    scan_eq_ok_iff.2 ⟨ends_read_iff.1 (read_of_within hread ▸ hends), read_of_within hread⟩
  exact bind_eq_ok.2 ⟨script, hscan, h⟩

theorem run_delayed {settings : Settings} {s : Text} {p : Progress} (h : run settings s = .ok p) :
    dialect p.delayed = lastDialect settings (read s) := by
  obtain ⟨-, q, htake, htakeAll⟩ := run_eq_ok.1 h
  rw [Progress.takeAll_delayed htakeAll, Progress.take_delayed htake]
  rfl

/-- What the operations keep holds behind the last statement. -/
theorem Progress.Kept.run {settings : Settings} {P : Progress → Prop} (kept : Kept settings P)
    (hstart : P (.start settings)) {s : Text} {p : Progress} (h : Script.run settings s = .ok p) :
    P p := by
  obtain ⟨-, q, htake, htakeAll⟩ := run_eq_ok.1 h
  exact kept.takeAll (kept.take hstart htake) htakeAll

/-- What the operations keep holds at the end of a run. -/
theorem Progress.Kept.reveal {settings : Settings} {P : Progress → Prop} (kept : Kept settings P)
    (hstart : P (.start settings)) {s : Text} {r : Revealed}
    (h : Script.reveal settings s = .ok r) :
    ∃ p, P p ∧ dialect p.delayed = lastDialect settings (read s) ∧ p.finish settings = .ok r := by
  obtain ⟨p, hrun, hfinish⟩ := reveal_eq_ok.1 h
  exact ⟨p, kept.run hstart hrun, run_delayed hrun, hfinish⟩

end Unmask.Script
