import Unmask.Proofs.Review

/-!
# Runs side by side

What a run records depends on how references are followed and not on what becomes part of the
output.  Two runs over one script that follow references alike stay in step: behind each statement
they have the same definitions, and the one that keeps more of the statements has noticed all that
the other one has.

    InStep.take              one statement keeps two runs in step
    InStep.run               so do all statements
    reveal_assignments_eq    two results have the same assignments, and more is noticed where
                             more is kept
-/

namespace Unmask.Script

/-! ## Two runs -/

/-- The settings follow references alike. -/
structure FollowAlike (settings settings' : Settings) : Prop where
  delayedExpansion : settings.delayedExpansion = settings'.delayedExpansion
  wellKnown : settings.wellKnown = settings'.wellKnown
  unknownNames : settings.unknownNames = settings'.unknownNames

theorem FollowAlike.symm {settings settings' : Settings} (h : FollowAlike settings settings') :
    FollowAlike settings' settings :=
  ⟨h.delayedExpansion.symm, h.wellKnown.symm, h.unknownNames.symm⟩

/-- Two runs know the same definitions, and the second has noticed all that the first has. -/
structure InStep (p q : Progress) : Prop where
  delayed : p.delayed = q.delayed
  definitions : p.definitions = q.definitions
  assignments : p.assignments = q.assignments
  diagnostics : ∀ d ∈ p.diagnostics, d ∈ q.diagnostics

namespace InStep

variable {settings settings' : Settings} {p q q' : Progress}

theorem start (halike : FollowAlike settings settings') :
    InStep (.start settings) (.start settings') where
  delayed := halike.delayedExpansion
  definitions := by rw [Progress.start, Progress.start, halike.wellKnown]
  assignments := rfl
  diagnostics _ hd := hd

theorem facing (h : InStep p q) (statement : Statement) :
    InStep (p.facing statement) (q.facing statement) where
  delayed := by rw [Progress.facing, Progress.facing, h.delayed]
  definitions := h.definitions
  assignments := h.assignments
  diagnostics := h.diagnostics

theorem separate (h : InStep p q) (separator : Separator) :
    InStep { p with transcript := p.transcript.separate separator }
      { q with transcript := q.transcript.separate separator } :=
  ⟨h.delayed, h.definitions, h.assignments, h.diagnostics⟩

theorem write (h : InStep p q) (text text' : Text) : InStep (p.write text) (q.write text') :=
  ⟨h.delayed, h.definitions, h.assignments, h.diagnostics⟩

theorem define (h : InStep p q) (definition : Text × Text) :
    InStep (p.define definition) (q.define definition) where
  delayed := h.delayed
  definitions := by
    unfold Progress.define
    rw [h.definitions, h.assignments]
  assignments := by
    unfold Progress.define
    rw [h.assignments]
  diagnostics := h.diagnostics

/-- Whatever is written of it, a statement that sets variables keeps two runs in step. -/
theorem assign (h : InStep p q) (kind : Kind) (text text' : Text) :
    InStep (p.assign settings kind text) (q.assign settings' kind text') := by
  have hfold : ∀ (definitions : List (Text × Text)) {p q : Progress}, InStep p q →
      InStep (definitions.foldl Progress.define p) (definitions.foldl Progress.define q) := by
    intro definitions
    induction definitions with
    | nil => exact fun h => h
    | cons d definitions ih => exact fun h => ih (h.define d)
  unfold Progress.assign
  apply hfold
  split <;> split <;> exact ⟨h.delayed, h.definitions, h.assignments, h.diagnostics⟩

/-- What the second run expands, the first expands to the same value. -/
theorem expand (h : InStep p q) (halike : FollowAlike settings settings') {text value : Text}
    (hq : q.expand settings' text = .ok (value, q')) :
    ∃ p', p.expand settings text = .ok (value, p') ∧ InStep p' q' := by
  obtain ⟨cyclic, memory, hexpand, rfl⟩ := Progress.expand_eq_ok hq
  have hscope : p.scope settings = q.scope settings' := by
    unfold Progress.scope
    rw [h.definitions, h.delayed, halike.unknownNames]
  rw [← hscope] at hexpand
  refine ⟨_, bind_eq_ok.2 ⟨_, hexpand, rfl⟩, ⟨h.delayed, h.definitions, h.assignments, ?_⟩⟩
  intro d hd
  rcases (Diagnostic.mem_foldl_add _ _).1 hd with hd | hd
  · exact (Diagnostic.mem_foldl_add _ _).2 (.inl (h.diagnostics d hd))
  · exact (Diagnostic.mem_foldl_add _ _).2 (.inr hd)

/-- An expansion of the second run alone only adds to what that one has noticed. -/
theorem expand_right (h : InStep p q) {text value : Text}
    (hq : q.expand settings' text = .ok (value, q')) : InStep p q' := by
  obtain ⟨cyclic, memory, -, rfl⟩ := Progress.expand_eq_ok hq
  exact ⟨h.delayed, h.definitions, h.assignments, fun d hd =>
    (Diagnostic.mem_foldl_add _ _).2 (.inl (h.diagnostics d hd))⟩

/-- Where the run that keeps more takes a statement, so does the other one, and they stay in step. -/
theorem take (h : InStep p q) (halike : FollowAlike settings settings')
    (hkeep : settings.keepAssignments = true → settings'.keepAssignments = true)
    {statement : Statement} (hq : q.take settings' statement = .ok q') :
    ∃ p', p.take settings statement = .ok p' ∧ InStep p' q' := by
  have hfacing := h.facing statement
  obtain ⟨text, kind⟩ := statement
  cases kind with
  | command =>
    rw [Progress.take_command_eq] at hq
    obtain ⟨⟨value, q₁⟩, hexpand, hq⟩ := bind_eq_ok.1 hq
    obtain ⟨p₁, hexpand', h₁⟩ := hfacing.expand halike hexpand
    have htake : ∀ {p'}, p₁.afterCommand settings text value = .ok p' →
        p.take settings ⟨text, .command⟩ = .ok p' := fun h => bind_eq_ok.2 ⟨_, hexpand', h⟩
    rcases Progress.afterCommand_eq_ok_iff.1 hq with ⟨hkind, rfl⟩ | ⟨hkind, hendless, rfl⟩
    · exact ⟨_, htake (Progress.afterCommand_eq_ok_iff.2 (.inl ⟨hkind, rfl⟩)), h₁.write value value⟩
    · exact ⟨_, htake (Progress.afterCommand_eq_ok_iff.2 (.inr ⟨hkind, hendless, rfl⟩)),
        h₁.assign _ value value⟩
  | assignment name value =>
    unfold Progress.take at hq ⊢
    dsimp only at hq ⊢
    by_cases hkept : settings.keepAssignments = true
    · rw [if_pos (hkeep hkept)] at hq
      rw [if_pos hkept]
      obtain ⟨⟨rendered, q₁⟩, hexpand, hq⟩ := bind_eq_ok.1 hq
      obtain ⟨p₁, hexpand', h₁⟩ := hfacing.expand halike hexpand
      cases hq
      exact ⟨_, bind_eq_ok.2 ⟨_, hexpand', rfl⟩, h₁.assign _ rendered rendered⟩
    · rw [if_neg hkept]
      refine ⟨_, rfl, ?_⟩
      -- the first run takes the text as it stands, the second may expand it
      by_cases hkept' : settings'.keepAssignments = true
      · rw [if_pos hkept'] at hq
        obtain ⟨⟨rendered, q₁⟩, hexpand, hq⟩ := bind_eq_ok.1 hq
        cases hq
        exact (hfacing.expand_right hexpand).assign _ text rendered
      · rw [if_neg hkept'] at hq
        cases hq
        exact hfacing.assign _ text text
  | loop definitions =>
    cases hq
    exact ⟨_, rfl, hfacing.assign _ text text⟩
  | endless => cases hq

theorem takeAll (h : InStep p q) (halike : FollowAlike settings settings')
    (hkeep : settings.keepAssignments = true → settings'.keepAssignments = true)
    {rest : List (Separator × Statement)} (hq : q.takeAll settings' rest = .ok q') :
    ∃ p', p.takeAll settings rest = .ok p' ∧ InStep p' q' := by
  induction rest generalizing p q with
  | nil =>
    cases hq
    exact ⟨p, rfl, h⟩
  | cons next rest ih =>
    obtain ⟨q₁, hnext, hrest⟩ := bind_eq_ok.1 hq
    obtain ⟨p₁, hnext', h₁⟩ := (h.separate next.1).take halike hkeep hnext
    obtain ⟨p', hrest', h'⟩ := ih h₁ hrest
    exact ⟨p', bind_eq_ok.2 ⟨p₁, hnext', hrest'⟩, h'⟩

/-- Where the run that keeps more gets to its end, so does the other one, in step with it. -/
theorem run (halike : FollowAlike settings settings')
    (hkeep : settings.keepAssignments = true → settings'.keepAssignments = true) {s : Text}
    (hq : Script.run settings' s = .ok q) : ∃ p, Script.run settings s = .ok p ∧ InStep p q := by
  obtain ⟨hends, q₁, htake, htakeAll⟩ := run_eq_ok.1 hq
  obtain ⟨p₁, htake', h₁⟩ := (start halike).take halike hkeep htake
  obtain ⟨p, htakeAll', h⟩ := h₁.takeAll halike hkeep htakeAll
  exact ⟨p, run_eq_ok.2 ⟨hends, p₁, htake', htakeAll'⟩, h⟩

end InStep

/-! ## Two results -/

/-- Where the second run keeps what the first keeps, its result has the same assignments and more. -/
theorem reveal_inStep {settings settings' : Settings} (halike : FollowAlike settings settings')
    (hkeep : settings.keepAssignments = true → settings'.keepAssignments = true) {s : Text}
    {r r' : Revealed} (h : reveal settings s = .ok r) (h' : reveal settings' s = .ok r') :
    r.assignments = r'.assignments ∧ ∀ d ∈ r.noticed, d ∈ r'.noticed := by
  obtain ⟨p, hp, -, hassignments, -, hnoticed⟩ := exists_run h
  obtain ⟨q, hq, -, hassignments', -, hnoticed'⟩ := exists_run h'
  obtain ⟨p', hp', hstep⟩ := InStep.run halike hkeep hq
  obtain rfl : p' = p := Except.ok.inj (hp'.symm.trans hp)
  rw [hassignments, hassignments', hnoticed, hnoticed']
  exact ⟨hstep.assignments, hstep.diagnostics⟩

end Unmask.Script
