import Unmask.Proofs.Diagnostics
import Unmask.Proofs.Histories
import Unmask.Proofs.Runs

/-!
# The review of the output

In the end the output of a script is searched for references to names that are defined, and the
result is flagged if there are any.  What is defined then is what was assigned on the way and, if
these are known, the stock names: the definitions of a run are those of its assignments on top of
the stock.

The output of an INF file is not searched, so it is never flagged.

    kept_recorded              the definitions of a run are those of its assignments
    isAmbiguous_iff_mentions   the flag of a script, and that of an INF file
-/

namespace Unmask

/-! ## Defined names -/

/-- A name was assigned, or is one of the stock names and these are known. -/
def IsDefined (settings : Settings) (stock : List (String × String)) (assignments : List Assignment)
    (name : Text) : Prop :=
  (∃ a ∈ assignments, Definitions.key a.name = Definitions.key name) ∨
    settings.wellKnown = true ∧
      ∃ entry ∈ stock, Definitions.key entry.1.toList = Definitions.key name

/-- A text, read in a dialect, holds a reference to a name with some property. -/
def Mentions (d : Dialect) (property : Text → Prop) (s : Text) : Prop :=
  ∃ template, Template.read d s = .ok template ∧ ∃ r ∈ template.references, property r.name

theorem mentions_iff {d : Dialect} {property : Text → Prop} {s : Text} {t : Template}
    (h : Template.read d s = .ok t) :
    Mentions d property s ↔ ∃ r ∈ t.references, property r.name := by
  constructor
  · rintro ⟨t', h', hmentions⟩
    obtain rfl : t = t' := Except.ok.inj (h.symm.trans h')
    exact hmentions
  · exact fun hmentions => ⟨t, h, hmentions⟩

theorem Definitions.contains_environment (name : Text) :
    (stock .percent).contains name = true ↔
      ∃ entry ∈ environment, key entry.1.toList = key name := by
  unfold stock
  rw [if_neg (by decide), contains_ofList]
  constructor
  · rintro ⟨pair, hpair, he⟩
    obtain ⟨entry, hentry, rfl⟩ := List.mem_map.1 hpair
    exact ⟨entry, hentry, he⟩
  · rintro ⟨entry, hentry, he⟩
    exact ⟨_, List.mem_map_of_mem hentry, he⟩

/-- A search finds something exactly if the text refers to a defined name. -/
theorem Expansion.Scope.exists_mem_liveReferences {scope : Scope} {s : Text} {live : List Text}
    (h : scope.liveReferences s = .ok live) :
    ∃ template, Template.read scope.dialect s = .ok template ∧
      ((∃ token, token ∈ live) ↔
        ∃ r ∈ template.references, scope.definitions.contains r.name = true) := by
  obtain ⟨template, hread, h⟩ := bind_eq_ok.1 h
  cases h
  refine ⟨template, hread, ?_⟩
  constructor
  · rintro ⟨token, htoken⟩
    obtain ⟨piece, hpiece, he⟩ := List.mem_filterMap.1 htoken
    cases hexpr : piece.expr with
    | literal text =>
      rw [hexpr] at he
      cases he
    | reference r =>
      rw [hexpr] at he
      dsimp only at he
      split at he
      · next hdefined =>
        exact ⟨r, Template.mem_references.2 ⟨piece, hpiece, hexpr⟩, hdefined⟩
      · cases he
  · rintro ⟨r, hr, hdefined⟩
    obtain ⟨piece, hpiece, hexpr⟩ := Template.mem_references.1 hr
    refine ⟨piece.token, List.mem_filterMap.2 ⟨piece, hpiece, ?_⟩⟩
    rw [hexpr]
    exact if_pos hdefined

/-! ## Scripts -/

def Revealed.noticed (r : Revealed) : List Diagnostic :=
  r.diagnostics.filter fun d => !d.isAmbiguity

theorem Revealed.mem_noticed {r : Revealed} {d : Diagnostic} (h : d.isAmbiguity = false) :
    d ∈ r.noticed ↔ d ∈ r.diagnostics := by
  unfold noticed
  rw [List.mem_filter, h]
  simp

namespace Script.Progress

variable {settings : Settings}

/-- The definitions are those of the assignments on top of what was known at the start. -/
def Recorded (settings : Settings) (p : Progress) : Prop :=
  p.definitions =
    p.assignments.foldl (fun ds a => ds.define a) (Progress.start settings).definitions

theorem kept_recorded : Kept settings (Recorded settings) where
  facing _ h := h
  write _ h := h
  separate _ h := h
  define {p} definition h := by
    unfold Recorded define
    dsimp only
    rw [List.foldl_append, ← h]
    rfl
  expand {p q text value} h hexpand := by
    obtain ⟨cyclic, memory, -, rfl⟩ := expand_eq_ok hexpand
    exact h

theorem Recorded.contains_iff {p : Progress} (h : Recorded settings p) (name : Text) :
    p.definitions.contains name = true ↔
      IsDefined settings Definitions.environment p.assignments name := by
  unfold IsDefined
  rw [h, Definitions.contains_foldl_define, or_comm]
  refine or_congr Iff.rfl ?_
  unfold start
  dsimp only
  by_cases hknown : settings.wellKnown = true
  · rw [if_pos hknown, Definitions.contains_environment]
    exact ⟨fun hstock => ⟨hknown, hstock⟩, fun hstock => hstock.2⟩
  · rw [if_neg hknown, Definitions.contains_iff]
    exact ⟨fun hne => absurd (Definitions.valuesOf_empty _) hne, fun hstock => absurd hstock.1 hknown⟩

/-- Before its end a run finds nothing ambiguous. -/
theorem kept_unambiguous : Kept settings fun p => ∀ d ∈ p.diagnostics, d.isAmbiguity = false where
  facing _ h := h
  write _ h := h
  define _ h := h
  separate _ h := h
  expand {p q text value} h hexpand := by
    obtain ⟨cyclic, memory, hmemory, rfl⟩ := expand_eq_ok hexpand
    intro d hd
    rcases (Diagnostic.mem_foldl_add _ _).1 hd with hd | hd
    · exact h d hd
    · exact (Expansion.Scope.expand_evolves hmemory).isAmbiguity_eq_false (by simp [Expansion.Memory.empty]) d hd

/-- Besides the review, a result tells what the run has noticed before. -/
theorem finish_noticed {p : Progress} {r : Revealed}
    (hnone : ∀ d ∈ p.diagnostics, d.isAmbiguity = false) (h : p.finish settings = .ok r) :
    r.output = p.output settings ∧ r.assignments = p.assignments ∧ r.cyclic = p.cyclic ∧
      r.noticed = p.diagnostics := by
  obtain ⟨live, -, rfl⟩ := finish_eq_ok h
  refine ⟨rfl, rfl, rfl, ?_⟩
  have hlive : ∀ d ∈ live.map Diagnostic.ambiguousExpansion, (!d.isAmbiguity) = false := by
    intro d hd
    obtain ⟨token, -, rfl⟩ := List.mem_map.1 hd
    rfl
  unfold Revealed.noticed
  rw [Diagnostic.filter_foldl_add hlive]
  exact List.filter_eq_self.2 fun d hd => by simp [hnone d hd]

/-- A result is flagged exactly if its output refers to a name that is defined in the end. -/
theorem finish_isAmbiguous {p : Progress} {r : Revealed}
    (hnone : ∀ d ∈ p.diagnostics, d.isAmbiguity = false) (h : p.finish settings = .ok r) :
    r.assignments = p.assignments ∧
      ∃ template, Template.read (dialect p.delayed) r.output = .ok template ∧
        (r.isAmbiguous = true ↔
          ∃ ref ∈ template.references, p.definitions.contains ref.name = true) := by
  obtain ⟨live, hlive, rfl⟩ := finish_eq_ok h
  obtain ⟨template, hread, hfound⟩ := Expansion.Scope.exists_mem_liveReferences hlive
  refine ⟨rfl, template, hread, ?_⟩
  dsimp only at hfound
  rw [← hfound]
  unfold Revealed.isAmbiguous
  rw [List.any_eq_true]
  constructor
  · rintro ⟨d, hd, hambiguity⟩
    rcases (Diagnostic.mem_foldl_add _ _).1 hd with hd | hd
    · rw [hnone d hd] at hambiguity
      cases hambiguity
    · obtain ⟨token, htoken, -⟩ := List.mem_map.1 hd
      exact ⟨token, htoken⟩
  · rintro ⟨token, htoken⟩
    exact ⟨.ambiguousExpansion token,
      (Diagnostic.mem_foldl_add _ _).2 (.inr (List.mem_map_of_mem htoken)), rfl⟩

end Script.Progress

/-- In its end a run knows what its assignments define, and reads its output in the last dialect. -/
theorem Script.exists_recorded {settings : Settings} {s : Text} {r : Revealed}
    (h : reveal settings s = .ok r) :
    ∃ p : Progress, p.Recorded settings ∧ p.assignments = r.assignments ∧
      ∃ template, Template.read (lastDialect settings (read s)) r.output = .ok template ∧
        (r.isAmbiguous = true ↔
          ∃ ref ∈ template.references, p.definitions.contains ref.name = true) := by
  have kept : Progress.Kept settings _ := Progress.kept_recorded.and Progress.kept_unambiguous
  obtain ⟨p, ⟨hrecorded, hnone⟩, hdialect, hfinish⟩ :=
    kept.reveal ⟨rfl, fun d hd => by cases hd⟩ h
  obtain ⟨hassignments, template, hread, hflag⟩ := Progress.finish_isAmbiguous hnone hfinish
  rw [hdialect] at hread
  exact ⟨p, hrecorded, hassignments.symm, template, hread, hflag⟩

/-- A result tells what the run over the statements comes to. -/
theorem Script.exists_run {settings : Settings} {s : Text} {r : Revealed}
    (h : reveal settings s = .ok r) :
    ∃ p, run settings s = .ok p ∧ r.output = p.output settings ∧ r.assignments = p.assignments ∧
      r.cyclic = p.cyclic ∧ r.noticed = p.diagnostics := by
  obtain ⟨p, hrun, hfinish⟩ := reveal_eq_ok.1 h
  have kept : Progress.Kept settings _ := Progress.kept_unambiguous
  have hnone := kept.run (fun d hd => by cases hd) hrun
  exact ⟨p, hrun, Progress.finish_noticed hnone hfinish⟩

/-! ## INF files -/

theorem InfFile.exists_unflagged (settings : Settings) (s : Text) :
    ∃ r, reveal settings s = .ok r ∧ r.isAmbiguous = false := by
  obtain ⟨r, hreveal⟩ := reveal_ok settings s
  obtain ⟨⟨⟨values, cyclic⟩, memory⟩, hexpand, h⟩ := bind_eq_ok.1 hreveal
  have hevolves := Expansion.expandAll_evolves hexpand
  cases h
  refine ⟨_, hreveal, ?_⟩
  unfold Revealed.isAmbiguous
  rw [List.any_eq_false]
  intro d hd
  rw [hevolves.isAmbiguity_eq_false (by simp [Expansion.Memory.empty]) d hd]
  exact Bool.false_ne_true

/--
A script is flagged exactly if its output, read in the dialect that is in force in the end, mentions
a name that is defined.  An INF file is never flagged.
-/
theorem isAmbiguous_iff_mentions (settings : Settings) :
    (∀ s r, Script.reveal settings s = .ok r →
      (r.isAmbiguous = true ↔ Mentions (Script.lastDialect settings (Script.read s))
        (IsDefined settings Definitions.environment r.assignments) r.output)) ∧
    ∀ s, ∃ r, InfFile.reveal settings s = .ok r ∧ r.isAmbiguous = false := by
  refine ⟨fun s r h => ?_, InfFile.exists_unflagged settings⟩
  obtain ⟨p, hrecorded, hassignments, template, hread, hflag⟩ := Script.exists_recorded h
  rw [hflag, mentions_iff hread, ← hassignments]
  simp only [hrecorded.contains_iff]

/-- A reference whose marks come out of a variable, behind the switch that makes them marks. -/
theorem isAmbiguous_iff_mentions_assembled :
    let s := "set P=!&set B=x&cmd /v:on /c echo !P!b!P! %os%".toList
    let r : Revealed := ⟨"cmd /v:on /c echo !b! Windows_NT".toList,
      [⟨['P'], ['!'], 0⟩, ⟨['B'], ['x'], 1⟩], [.ambiguousExpansion "!b!".toList], false⟩
    Script.reveal { wellKnown := true } s = .ok r ∧
      (r.isAmbiguous = true ↔ Mentions (Script.lastDialect { wellKnown := true } (Script.read s))
        (IsDefined { wellKnown := true } Definitions.environment r.assignments) r.output) := by
  intro s r
  have h : Script.reveal { wellKnown := true } s = .ok r := by decide +kernel
  exact ⟨h, (isAmbiguous_iff_mentions { wellKnown := true }).1 s r h⟩

/-- The output of an INF file may mention a defined name all the same. -/
theorem InfFile.unflagged_mentions :
    ∃ r, InfFile.reveal {} "%%A%%\n[Strings]\nA=x".toList = .ok r ∧ r.isAmbiguous = false ∧
      Mentions .inf (IsDefined {} Definitions.directories r.assignments) r.output := by
  have hread : Template.read .inf "%A%".toList =
      .ok [⟨"%A%".toList, .reference ⟨['A'], .whole⟩⟩] := by decide +kernel
  refine ⟨⟨"%A%".toList, [⟨['A'], ['x'], 0⟩], [], false⟩, by decide +kernel, rfl, _, hread,
    ⟨['A'], .whole⟩, List.mem_singleton_self _, .inl ⟨_, List.mem_singleton_self _, rfl⟩⟩

end Unmask
