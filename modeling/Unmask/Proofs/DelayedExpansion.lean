import Unmask.Proofs.ScriptAlphabets

/-!
# Delayed expansion

Delayed expansion makes `!NAME!` a reference.  In a script without exclamation marks there is nothing
of that form, and there never will be: every text that a run reads is made of the characters of the
script and of the stock definitions.  So it makes no difference whether delayed expansion is on.

    cut_delayed                 a text without exclamation marks has the same sites
    expand_delayed              and the same value
    take_withDelayed            a statement takes two runs that differ in the dialect to two such runs
    reveal_delayedExpansion     the results are the same
-/

namespace Unmask

open Text (Over)

/-! ## Sites and values -/

/-- A text without exclamation marks. -/
abbrev Text.Calm : Text → Prop :=
  Over (· ≠ '!')

/-- What is the same in both dialects of scripts does not depend on delayed expansion. -/
theorem Script.dialect_congr {α : Type} {f : Dialect → α} (h : f .delayed = f .percent)
    (delayed delayed' : Bool) : f (dialect delayed) = f (dialect delayed') := by
  have hpercent : ∀ delayed, f (dialect delayed) = f .percent := by
    intro delayed
    cases delayed with
    | false => rfl
    | true => exact h
  rw [hpercent delayed, hpercent delayed']

namespace Template

namespace Fragment

theorem isMark_delayed {c : Char} (hc : c ≠ '!') : isMark .delayed c = isMark .percent c := by
  have hmark : (c == '!') = false := by simpa using hc
  change (c == '%' || c == '!') = (c == '%')
  rw [hmark, Bool.or_false]

theorem takeWhile_delayed {s : Text} (hs : s.Calm) :
    (s.takeWhile fun c => !isMark .delayed c) = s.takeWhile fun c => !isMark .percent c := by
  induction s with
  | nil => rfl
  | cons c s ih =>
    rw [List.takeWhile_cons, List.takeWhile_cons, isMark_delayed (hs c List.mem_cons_self),
      ih fun a ha => hs a (List.mem_cons_of_mem c ha)]

theorem first_delayed {c : Char} {s : Text} (hs : Text.Calm (c :: s)) :
    first .delayed c s = first .percent c s := by
  unfold first
  rw [isMark_delayed (hs c List.mem_cons_self),
    takeWhile_delayed fun a ha => hs a (List.mem_cons_of_mem c ha)]

/-- A text without exclamation marks is cut alike with and without delayed expansion. -/
theorem cut_delayed {s : Text} (hs : s.Calm) : cut .delayed s = cut .percent s := by
  induction s using cut.induct (d := .percent) with
  | case1 => rw [cut, cut]
  | case2 c s fragment ih =>
    have hrest : Text.Calm (s.drop (fragment.toText.length - 1)) :=
      hs.of_isSuffix ((List.drop_suffix _ s).trans (List.suffix_cons c s))
    rw [cut, cut, first_delayed hs, ih hrest]

end Fragment

theorem read_delayed {s : Text} (hs : s.Calm) : read .delayed s = read .percent s := by
  rw [read, read, Fragment.cut_delayed hs]

end Template

namespace Expansion.Scope

variable {scope : Scope}

def inDialect (scope : Scope) (d : Dialect) : Scope :=
  { scope with dialect := d }

variable (hdefinitions : scope.definitions.Over (· ≠ '!'))

include hdefinitions

/-- The dialect only counts where a text is read. -/
theorem expandPiecesWith_delayed {descend descend' : Descent}
    (hdescend : ∀ chain text memory, text.Calm →
      descend chain text memory = descend' chain text memory)
    (chain : Chain) (budget : Nat) (template : Template) (memory : Memory) :
    (scope.inDialect .delayed).expandPiecesWith descend chain budget template memory =
      (scope.inDialect .percent).expandPiecesWith descend' chain budget template memory := by
  refine expandPiecesWith_congr (fun r _ token memory => ?_) budget memory
  have hunknown : (scope.inDialect .delayed).unknownNames =
      (scope.inDialect .percent).unknownNames := rfl
  refine resolveWith_congr hunknown rfl (fun g text hit memory hfind => ?_) token memory
  exact hdescend _ text memory (hdefinitions _ text (mem_of_find hfind))

theorem descend_delayed (depth : Nat) (chain : Chain) (text : Text) (memory : Memory)
    (htext : text.Calm) :
    (scope.inDialect .delayed).descend depth chain text memory =
      (scope.inDialect .percent).descend depth chain text memory := by
  induction depth generalizing chain text memory with
  | zero => rfl
  | succ depth ih =>
    have hread : Template.read (scope.inDialect .delayed).dialect text =
        Template.read (scope.inDialect .percent).dialect text := Template.read_delayed htext
    rw [descend, descend, hread]
    simp only [expandPiecesWith_delayed hdefinitions ih]

/-- Without exclamation marks a text has one value, with and without delayed expansion. -/
theorem expand_delayed {text : Text} (htext : text.Calm) (memory : Memory) :
    (scope.inDialect .delayed).expand text memory =
      (scope.inDialect .percent).expand text memory := by
  have hread : Template.read (scope.inDialect .delayed).dialect text =
      Template.read (scope.inDialect .percent).dialect text := Template.read_delayed htext
  have htotal : (scope.inDialect .delayed).definitions.total =
      (scope.inDialect .percent).definitions.total := rfl
  unfold expand expandTemplate
  rw [hread, htotal]
  simp only [expandPiecesWith_delayed hdefinitions (descend_delayed hdefinitions _)]

/-- So it does not count whether delayed expansion is on. -/
theorem expand_dialect (delayed delayed' : Bool) {text : Text} (htext : text.Calm)
    (memory : Memory) :
    (scope.inDialect (Script.dialect delayed)).expand text memory =
      (scope.inDialect (Script.dialect delayed')).expand text memory :=
  Script.dialect_congr (f := fun d => (scope.inDialect d).expand text memory)
    (expand_delayed hdefinitions htext memory) delayed delayed'

end Expansion.Scope

/-- No stock definition of a command line holds an exclamation mark. -/
theorem Definitions.calm_environment : (stock .percent).Over (· ≠ '!') := by
  have hvalues : (environment.all fun entry => entry.2.toList.all fun c => c != '!') = true := by
    decide +kernel
  intro k value hvalue
  change value ∈ (ofList _).valuesOf k at hvalue
  obtain ⟨pair, hpair, -, rfl⟩ := mem_of_mem_valuesOf_ofList hvalue
  obtain ⟨entry, hentry, rfl⟩ := List.mem_map.1 hpair
  intro c hc
  exact bne_iff_ne.1 (List.all_eq_true.1 (List.all_eq_true.1 hvalues entry hentry) c hc)

namespace Script

/-! ## Runs -/

namespace Progress

variable {settings : Settings} {p : Progress}

/-- Where a run stands, with delayed expansion or without. -/
def withDelayed (delayed : Bool) (p : Progress) : Progress :=
  { p with delayed }

/-- There is no exclamation mark in what a run knows and has written. -/
structure Calm (p : Progress) : Prop where
  definitions : p.definitions.Over (· ≠ '!')
  output : p.transcript.output.Calm

theorem calm_start (settings : Settings) : (Progress.start settings).Calm := by
  refine ⟨?_, Text.over_nil⟩
  unfold start
  dsimp only
  split
  · exact Definitions.calm_environment
  · exact fun _ _ h => absurd h List.not_mem_nil

theorem Calm.facing (h : p.Calm) (statement : Statement) : (p.facing statement).Calm :=
  ⟨h.definitions, h.output⟩

theorem Calm.separate (h : p.Calm) (separator : Separator) :
    Calm { p with transcript := p.transcript.separate separator } := by
  refine ⟨h.definitions, ?_⟩
  rw [Transcript.output_separate]
  exact h.output

theorem Calm.write (h : p.Calm) {statement : Text} (hs : statement.Calm) :
    (p.write statement).Calm := by
  refine ⟨h.definitions, over_write (fun separator => ?_) hs h.output⟩
  exact fun c hc he => (literal_written separator).exclamation (he ▸ hc)

theorem Calm.define (h : p.Calm) {definition : Text × Text} (hd : definition.2.Calm) :
    (p.define definition).Calm := by
  refine ⟨fun k value hvalue => ?_, h.output⟩
  have hinsert : value ∈ (p.definitions.insert definition.1 definition.2).valuesOf k := hvalue
  rw [Definitions.valuesOf_insert] at hinsert
  split at hinsert
  · rcases List.mem_append.1 hinsert with hmem | hmem
    · exact h.definitions k value hmem
    · rw [List.mem_singleton.1 hmem]
      exact hd
  · exact h.definitions k value hinsert

theorem Calm.assign (h : p.Calm) {kind : Kind} {rendered : Text} (hrendered : rendered.Calm)
    (hkind : ∀ definition ∈ kind.definitions, definition.2.Calm) :
    (p.assign settings kind rendered).Calm := by
  have hfold : ∀ (definitions : List (Text × Text)) {p : Progress}, p.Calm →
      (∀ definition ∈ definitions, definition.2.Calm) → (definitions.foldl Progress.define p).Calm := by
    intro definitions
    induction definitions with
    | nil => exact fun h _ => h
    | cons d definitions ih =>
      exact fun h hds => ih (h.define (hds d List.mem_cons_self))
        fun d hd => hds d (List.mem_cons_of_mem _ hd)
  unfold Progress.assign
  refine hfold _ ?_ hkind
  split
  · exact h.write hrendered
  · exact h

theorem dialect_ne_inf (delayed : Bool) : dialect delayed ≠ .inf := by
  cases delayed <;> decide

theorem Calm.expand (h : p.Calm) {text value : Text} (htext : text.Calm) {q : Progress}
    (hexpand : p.expand settings text = .ok (value, q)) : value.Calm ∧ q.Calm := by
  obtain ⟨cyclic, memory, hvalue, rfl⟩ := expand_eq_ok hexpand
  exact ⟨Expansion.Scope.expand_over h.definitions (dialect_ne_inf p.delayed) htext
    Expansion.Memory.over_empty hvalue, ⟨h.definitions, h.output⟩⟩

/-- What a command expands to defines values without exclamation marks. -/
theorem calm_expandedKind {text value : Text} (hvalue : value.Calm) :
    ∀ definition ∈ (expandedKind text value).definitions, definition.2.Calm := by
  unfold expandedKind Statement.whole? wholeForm?
  split
  · exact fun _ hmem => absurd hmem List.not_mem_nil
  · split
    · next form hform =>
      have hvalues := (first_over hvalue).values
      rw [kind_first, hform] at hvalues
      exact hvalues
    · exact fun _ hmem => absurd hmem List.not_mem_nil

theorem Calm.take (h : p.Calm) {statement : Statement} (hs : statement.Over (· ≠ '!'))
    {q : Progress} (htake : p.take settings statement = .ok q) : q.Calm := by
  have hfacing := h.facing statement
  cases take_takes htake with
  | command _ hexpand _ =>
    obtain ⟨hvalue, hq⟩ := hfacing.expand hs.text hexpand
    exact hq.write hvalue
  | dynamic _ hexpand _ _ =>
    obtain ⟨hvalue, hq⟩ := hfacing.expand hs.text hexpand
    exact hq.assign hvalue (calm_expandedKind hvalue)
  | rendered _ _ hexpand =>
    obtain ⟨hvalue, hq⟩ := hfacing.expand hs.text hexpand
    exact hq.assign hvalue hs.values
  | recorded _ _ => exact hfacing.assign hs.text hs.values

/-! ## Two runs -/

theorem assign_withDelayed (delayed : Bool) (kind : Kind) (rendered : Text) (p : Progress) :
    (p.withDelayed delayed).assign settings kind rendered =
      (p.assign settings kind rendered).withDelayed delayed := by
  have hfold : ∀ (definitions : List (Text × Text)) (p : Progress),
      definitions.foldl define (p.withDelayed delayed) =
        (definitions.foldl define p).withDelayed delayed := by
    intro definitions
    induction definitions with
    | nil => exact fun _ => rfl
    | cons d definitions ih => exact fun p => ih (p.define d)
  unfold assign
  rw [← hfold]
  split <;> rfl

/-- A text expands alike with and without delayed expansion. -/
theorem expand_withDelayed (settings : Settings) (h : p.Calm) {text : Text} (htext : text.Calm)
    (delayed : Bool) :
    (p.withDelayed delayed).expand settings text =
      (p.expand settings text).map fun found => (found.1, found.2.withDelayed delayed) := by
  have hexpand : ((p.withDelayed delayed).scope settings).expand text .empty =
      (p.scope settings).expand text .empty :=
    @Expansion.Scope.expand_dialect (p.scope settings) h.definitions delayed p.delayed text htext
      .empty
  cases hvalue : (p.scope settings).expand text .empty with
  | error fault =>
    have herror : ∀ {q : Progress}, (q.scope settings).expand text .empty = .error fault →
        q.expand settings text = .error fault := fun hq => bind_eq_error.2 (.inl hq)
    rw [herror hvalue, herror (hexpand.trans hvalue)]
    rfl
  | ok found =>
    have hok : ∀ {q : Progress}, (q.scope settings).expand text .empty = .ok found →
        q.expand settings text = .ok (found.1.value, { q with
          diagnostics := found.2.diagnostics.foldl (fun ds d => d.add ds) q.diagnostics
          cyclic := q.cyclic || found.1.cyclic }) := fun hq => bind_eq_ok.2 ⟨found, hq, rfl⟩
    rw [hok hvalue, hok (hexpand.trans hvalue)]
    rfl

theorem take_kept_eq (hkeep : settings.keepAssignments = true) (text name value : Text)
    (p : Progress) :
    p.take settings ⟨text, .assignment name value⟩ =
      ((p.facing ⟨text, .assignment name value⟩).expand settings text).map fun found =>
        found.2.assign settings (.assignment name value) found.1 := by
  unfold take
  dsimp only
  rw [if_pos hkeep]
  change ((p.facing ⟨text, .assignment name value⟩).expand settings text >>= fun found =>
    Except.ok (found.2.assign settings (.assignment name value) found.1)) = _
  cases (p.facing ⟨text, .assignment name value⟩).expand settings text <;> rfl

theorem take_unkept_eq (hkeep : settings.keepAssignments = false) (text name value : Text)
    (p : Progress) :
    p.take settings ⟨text, .assignment name value⟩ = .ok
      ((p.facing ⟨text, .assignment name value⟩).assign settings (.assignment name value) text) := by
  unfold take
  dsimp only
  rw [hkeep, if_neg Bool.false_ne_true]
  rfl

theorem take_loop_eq (text : Text) (definitions : List (Text × Text)) (p : Progress) :
    p.take settings ⟨text, .loop definitions⟩ =
      .ok ((p.facing ⟨text, .loop definitions⟩).assign settings (.loop definitions) text) :=
  rfl

theorem afterCommand_withDelayed (delayed : Bool) (text value : Text) (p : Progress) :
    (p.withDelayed delayed).afterCommand settings text value =
      (p.afterCommand settings text value).map (withDelayed delayed) := by
  unfold afterCommand
  split
  · rfl
  · split
    · rfl
    · exact congrArg Except.ok (assign_withDelayed delayed _ value p)

/-- A statement takes two runs that differ in the dialect to two such runs. -/
theorem take_withDelayed (h : p.Calm) {statement : Statement} (hs : statement.Over (· ≠ '!'))
    (delayed : Bool) :
    (p.withDelayed delayed).take settings statement =
      (p.take settings statement).map (withDelayed (delayed || statement.switchesDelayed)) := by
  have hexpand := expand_withDelayed settings (h.facing statement) hs.text
    (delayed || statement.switchesDelayed)
  have hfacing : (p.withDelayed delayed).facing statement =
      (p.facing statement).withDelayed (delayed || statement.switchesDelayed) := rfl
  obtain ⟨text, kind⟩ := statement
  cases kind with
  | command =>
    rw [take_command_eq, take_command_eq, hfacing, hexpand]
    cases (p.facing ⟨text, .command⟩).expand settings text with
    | error fault => rfl
    | ok found => exact afterCommand_withDelayed _ _ _ _
  | assignment name value =>
    cases hkeep : settings.keepAssignments with
    | true =>
      rw [take_kept_eq hkeep, take_kept_eq hkeep, hfacing, hexpand]
      cases (p.facing ⟨text, .assignment name value⟩).expand settings text with
      | error fault => rfl
      | ok found => exact congrArg Except.ok (assign_withDelayed _ _ _ _)
    | false =>
      rw [take_unkept_eq hkeep, take_unkept_eq hkeep, hfacing]
      exact congrArg Except.ok (assign_withDelayed _ _ _ _)
  | loop definitions =>
    rw [take_loop_eq, take_loop_eq, hfacing]
    exact congrArg Except.ok (assign_withDelayed _ _ _ _)
  | endless => rfl

/-- So do all statements, and the two runs still have no exclamation mark in them. -/
theorem takeAll_withDelayed (settings : Settings) (h : p.Calm) {rest : List (Separator × Statement)}
    (hrest : ∀ next ∈ rest, next.2.Over (· ≠ '!')) (delayed : Bool) :
    ∃ delayed', (p.withDelayed delayed).takeAll settings rest =
        (p.takeAll settings rest).map (withDelayed delayed') ∧
      ∀ q, p.takeAll settings rest = .ok q → q.Calm := by
  induction rest generalizing p delayed with
  | nil => exact ⟨delayed, rfl, fun q hq => Except.ok.inj hq ▸ h⟩
  | cons next rest ih =>
    have hnext := hrest next List.mem_cons_self
    have hseparate := h.separate next.1
    have htake : (p.withDelayed delayed).takeNext settings next =
        (p.takeNext settings next).map (withDelayed (delayed || next.2.switchesDelayed)) :=
      take_withDelayed hseparate hnext delayed
    cases hp : p.takeNext settings next with
    | error fault =>
      rw [hp] at htake
      refine ⟨delayed, ?_, fun q hq => ?_⟩
      · rw [takeAll, takeAll, htake, hp]
        rfl
      · rw [takeAll, hp] at hq
        cases hq
    | ok q =>
      rw [hp] at htake
      obtain ⟨delayed', hsame, hcalm⟩ := ih (hseparate.take hnext hp)
        (fun next hmem => hrest next (List.mem_cons_of_mem _ hmem))
        (delayed || next.2.switchesDelayed)
      refine ⟨delayed', ?_, fun q' hq' => hcalm q' ?_⟩
      · rw [takeAll, takeAll, htake, hp]
        exact hsame
      · rw [takeAll, hp] at hq'
        exact hq'

/-- The output is searched alike in both dialects. -/
theorem finish_withDelayed (h : p.Calm) (delayed : Bool) :
    (p.withDelayed delayed).finish settings = p.finish settings := by
  have houtput : (p.output settings).Calm := by
    unfold output
    split
    · exact h.output
    · have hcalm : ∀ {s : Text}, (s.all fun c => c != '!') = true → s.Calm :=
        fun hs c hc => bne_iff_ne.1 (List.all_eq_true.1 hs c hc)
      exact over_wrap (hcalm (by decide)) (hcalm (by decide)) (hcalm (by decide)) h.output _
  have hread : Template.read (dialect delayed) (p.output settings) =
      Template.read (dialect p.delayed) (p.output settings) :=
    dialect_congr (f := fun d => Template.read d (p.output settings))
      (Template.read_delayed houtput) delayed p.delayed
  have hlive : Expansion.Scope.liveReferences ⟨p.definitions, dialect delayed, .erase⟩
        (p.output settings) =
      Expansion.Scope.liveReferences ⟨p.definitions, dialect p.delayed, .erase⟩
        (p.output settings) := by
    unfold Expansion.Scope.liveReferences
    rw [hread]
  change (Expansion.Scope.liveReferences ⟨p.definitions, dialect delayed, .erase⟩
    (p.output settings) >>= fun live => _) = _
  rw [hlive]
  rfl

end Progress

/-! ## Results -/

/-- Whether delayed expansion is on only counts where a run starts. -/
theorem reveal_eq_withDelayed (settings : Settings) (delayed : Bool) (s : Text) :
    reveal { settings with delayedExpansion := delayed } s =
      scan s >>= fun script =>
        ((Progress.start settings).withDelayed delayed).take settings script.head >>= fun p =>
          p.takeAll settings script.tail >>= Progress.finish settings := by
  have htakeAll : ∀ (rest : List (Separator × Statement)) (p : Progress),
      p.takeAll { settings with delayedExpansion := delayed } rest = p.takeAll settings rest := by
    intro rest
    induction rest with
    | nil => exact fun _ => rfl
    | cons next rest ih => exact fun p => bind_congr fun q => ih q
  unfold reveal
  simp only [htakeAll]
  rfl

/--
Without exclamation marks in a script, the result does not depend on whether delayed expansion is on
from the start: what is written, assigned and noticed, and whether there is a cycle.
-/
theorem reveal_delayedExpansion (settings : Settings) (delayed : Bool) (s : Text) (hs : '!' ∉ s) :
    reveal { settings with delayedExpansion := delayed } s = reveal settings s := by
  have hcalm : s.Calm := fun c hc he => hs (he ▸ hc)
  have hstatements := statements_over hcalm
  have hhead := hstatements (read s).head List.mem_cons_self
  have hstart := Progress.calm_start settings
  rw [reveal_eq_withDelayed]
  change _ = scan s >>= fun script =>
    (Progress.start settings).take settings script.head >>= fun p =>
      p.takeAll settings script.tail >>= Progress.finish settings
  cases hscan : scan s with
  | error fault => rfl
  | ok script =>
  obtain ⟨-, rfl⟩ := scan_eq_ok_iff.1 hscan
  change ((Progress.start settings).withDelayed delayed).take settings (read s).head >>= (fun p =>
      p.takeAll settings (read s).tail >>= Progress.finish settings) =
    (Progress.start settings).take settings (read s).head >>= fun p =>
      p.takeAll settings (read s).tail >>= Progress.finish settings
  rw [Progress.take_withDelayed hstart hhead delayed]
  cases htake : (Progress.start settings).take settings (read s).head with
  | error fault => rfl
  | ok p =>
    obtain ⟨delayed', hsame, hend⟩ := Progress.takeAll_withDelayed settings
      (hstart.take hhead htake) (fun next hmem =>
        hstatements next.2 (List.mem_cons_of_mem _ (List.mem_map_of_mem hmem)))
      (delayed || (read s).head.switchesDelayed)
    change (p.withDelayed _).takeAll settings (read s).tail >>= Progress.finish settings =
      p.takeAll settings (read s).tail >>= Progress.finish settings
    rw [hsame]
    cases htakeAll : p.takeAll settings (read s).tail with
    | error fault => rfl
    | ok q => exact Progress.finish_withDelayed (hend q htakeAll) delayed'

/-- A cycle, a loop, an assignment that is put together, a switch and an output to be reviewed. -/
theorem reveal_delayedExpansion_switch :
    let s := ("set \"A=%B:x=y%&\"&set P=%&for %g in (\"C=1\") do set %~g\nset B=%A%&" ++
      "s%NO%et D=%C%&echo %D%%A% && cmd /v:on /c echo %P%A%P% %os%").toList
    let r : Revealed := ⟨"echo 1& &&\n  cmd /v:on /c echo %A% Windows_NT".toList,
      [⟨['A'], "%B:x=y%&".toList, 0⟩, ⟨['P'], ['%'], 1⟩, ⟨['C'], ['1'], 2⟩, ⟨['B'], "%A%".toList, 3⟩,
        ⟨['D'], ['1'], 4⟩],
      [.unresolvedReference "NO".toList, .cyclicReference ['A'], .ambiguousExpansion "%A%".toList],
      true⟩
    '!' ∉ s ∧ reveal { wellKnown := true, wrapWidth := 20 } s = .ok r ∧
      reveal { wellKnown := true, wrapWidth := 20, delayedExpansion := true } s = .ok r := by
  intro s r
  have hs : '!' ∉ s := by decide +kernel
  have h : reveal { wellKnown := true, wrapWidth := 20 } s = .ok r :=
    reveal_of_within 1 (by decide +kernel)
  exact ⟨hs, h, (reveal_delayedExpansion { wellKnown := true, wrapWidth := 20 } true s hs).trans h⟩

end Script

end Unmask
