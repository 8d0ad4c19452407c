import Unmask.Proofs.Borders
import Unmask.Proofs.Parts
import Unmask.Proofs.Review

/-!
# Layout

How long lines are laid out has no part in what a run records and notices.  The review at the end
reads the output as it is laid out, though: a line that is broken inside a site holds that site no
more.  Where lines are broken between the sites only, the review finds the same references, since
no site goes over a line break and none ends in text without marks.

    wrapLine_cases        what becomes of a line
    sites_wrap            the sites of a text whose long lines are broken
    reveal_findings_eq    what is told besides the output
-/

namespace Unmask

namespace Template.Fragment

variable {d : Dialect}

/-- A text without percent signs and exclamation marks has no marks. -/
theorem isMark_eq_false_of_mem {s : Text} (h : (s.all fun c => c != '%' && c != '!') = true) :
    ∀ c ∈ s, isMark d c = false := by
  intro c hc
  have hne := List.all_eq_true.1 h c hc
  simp only [Bool.and_eq_true, bne_iff_ne, ne_eq] at hne
  cases d <;> simp [isMark, hne]

/-- The sites of lines are those of the text that they make up. -/
theorem sites_join_lines (hd : d ≠ .inf) (lines : List Text) :
    sites d (Text.join ['\n'] lines) = lines.flatMap (sites d) := by
  induction lines with
  | nil => exact sites_nil
  | cons line lines ih =>
    by_cases hne : lines = []
    · rw [hne, List.flatMap_cons, List.flatMap_nil, List.append_nil]
      rfl
    · rw [Text.join_cons _ _ hne, List.append_assoc, List.singleton_append,
        sites_append_break hd rfl, ih, List.flatMap_cons]

/-- So are those of the parts between the places where a line may be broken, if no site holds one. -/
theorem sites_join_parts (hd : d ≠ .inf) {parts : List Text}
    (h : ∀ f ∈ sites d (Text.join Script.breakMark parts), ¬ Script.breakMark <:+: f.toText) :
    sites d (Text.join Script.breakMark parts) = parts.flatMap (sites d) := by
  have hplain : ∀ c ∈ Script.breakMark, isMark d c = false := isMark_eq_false_of_mem (by decide)
  induction parts with
  | nil => exact sites_nil
  | cons part parts ih =>
    by_cases hne : parts = []
    · rw [hne, List.flatMap_cons, List.flatMap_nil, List.append_nil]
      rfl
    · rw [Text.join_cons _ _ hne, List.append_assoc] at h ⊢
      have hborder := sites_append_between hd hplain h
      rw [hborder] at h ⊢
      rw [ih fun f hf => h f (List.mem_append_right _ hf), List.flatMap_cons]

end Template.Fragment

/-- What a result tells besides its output. -/
def Revealed.findings (r : Revealed) : List Assignment × List Diagnostic × Bool :=
  (r.assignments, r.diagnostics, r.cyclic)

/-! ## Long lines -/

namespace Script

open Template (Fragment)

variable {d : Dialect}

/-- A line stays as it is, or it is a long one and broken at each mark. -/
theorem wrapLine_cases (width : Nat) (line : Text) :
    wrapLine width line = [line] ∨ ∃ part next parts, width < line.length ∧
      Text.join breakMark (part :: next :: parts) = line ∧
      wrapLine width line = (part ++ " &&".toList) :: continueLine (next :: parts) := by
  unfold wrapLine
  split
  · exact .inl rfl
  · next hlong =>
    split
    · next part next parts hsplit =>
      refine .inr ⟨part, next, parts, Nat.lt_of_not_le hlong, ?_, rfl⟩
      rw [← hsplit]
      exact Text.join_splitOn (by decide) line
    · exact .inl rfl

/-- No site of a text stands where one of its lines is broken. -/
def BreaksNoSite (d : Dialect) (width : Nat) (s : Text) : Prop :=
  ∀ line ∈ Text.fields (· == '\n') s,
    line.length ≤ width ∨ ∀ f ∈ Fragment.sites d line, ¬ breakMark <:+: f.toText

/-- The parts of a broken line have the sites that they had in it. -/
theorem sites_continueLine (hd : d ≠ .inf) (parts : List Text) :
    (continueLine parts).flatMap (Fragment.sites d) = parts.flatMap (Fragment.sites d) := by
  have hindent (part : Text) : Fragment.sites d ("  ".toList ++ part) = Fragment.sites d part :=
    Fragment.sites_plain_append (Fragment.isMark_eq_false_of_mem (by decide)) part
  have hgoesOn (part : Text) : Fragment.sites d (part ++ " &&".toList) = Fragment.sites d part :=
    Fragment.sites_append_plain hd (Fragment.isMark_eq_false_of_mem (by decide)) part
  induction parts with
  | nil => rfl
  | cons part parts ih =>
    cases parts with
    | nil => rw [continueLine, List.flatMap_cons, List.flatMap_cons, hindent]
    | cons next parts => rw [continueLine, List.flatMap_cons, List.flatMap_cons, hgoesOn, hindent, ih]

theorem sites_wrapLine (hd : d ≠ .inf) {width : Nat} {line : Text}
    (h : line.length ≤ width ∨ ∀ f ∈ Fragment.sites d line, ¬ breakMark <:+: f.toText) :
    (wrapLine width line).flatMap (Fragment.sites d) = Fragment.sites d line := by
  rcases wrapLine_cases width line with hwhole | ⟨part, next, parts, hlong, hline, hbroken⟩
  · rw [hwhole]
    exact List.flatMap_singleton _ _
  · have hsites := h.resolve_left (Nat.not_le.2 hlong)
    rw [hbroken]
    rw [← hline] at hsites ⊢
    rw [Fragment.sites_join_parts hd hsites, List.flatMap_cons, sites_continueLine hd,
      Fragment.sites_append_plain hd (Fragment.isMark_eq_false_of_mem (by decide)) part,
      ← List.flatMap_cons]

/-- A text whose lines are broken between its sites keeps its sites. -/
theorem sites_wrap (hd : d ≠ .inf) {width : Nat} {s : Text} (h : BreaksNoSite d width s) :
    Fragment.sites d (wrap width s) = Fragment.sites d s := by
  have hlines : ∀ lines : List Text,
      (∀ line ∈ lines, line.length ≤ width ∨
        ∀ f ∈ Fragment.sites d line, ¬ breakMark <:+: f.toText) →
      (lines.flatMap (wrapLine width)).flatMap (Fragment.sites d) =
        lines.flatMap (Fragment.sites d) := by
    intro lines
    induction lines with
    | nil => exact fun _ => rfl
    | cons line lines ih =>
      intro hall
      rw [List.flatMap_cons, List.flatMap_append, List.flatMap_cons,
        sites_wrapLine hd (hall line List.mem_cons_self),
        ih fun l hl => hall l (List.mem_cons_of_mem _ hl)]
  rw [wrap, Fragment.sites_join_lines hd, hlines _ h, ← Fragment.sites_join_lines hd,
    Text.join_fields]

/-! ## Results -/

/-- Whether the settings break lines between the sites of a text only. -/
def KeepsSites (settings : Settings) (d : Dialect) (s : Text) : Prop :=
  settings.raw = true ∨ BreaksNoSite d settings.wrapWidth s

theorem sites_output {settings : Settings} {p : Progress} (hd : d ≠ .inf)
    (h : KeepsSites settings d p.transcript.output) :
    Fragment.sites d (p.output settings) = Fragment.sites d p.transcript.output := by
  unfold Progress.output
  split
  · rfl
  · next hraw => exact sites_wrap hd (h.resolve_left hraw)

/-- The review picks something from each reference that it reads, and nothing from other text. -/
theorem exists_pick (scope : Expansion.Scope) : ∃ pick : Piece → Option Text,
    (∀ piece text, piece.expr = .literal text → pick piece = none) ∧
      ∀ s, scope.liveReferences s =
        (Template.read scope.dialect s).map (List.filterMap pick) := by
  have hmap : ∀ (template : Except Fault Template) (f : Template → List Text),
      (template >>= fun pieces => pure (f pieces)) = template.map f := by
    intro template f
    cases template <;> rfl
  refine ⟨?pick, ?literal, fun s => ?read⟩
  case read => exact hmap _ _
  case literal =>
    intro piece text hexpr
    rw [hexpr]

/-- What the review finds depends on the sites of the output alone. -/
theorem liveReferences_eq_of_sites (scope : Expansion.Scope) {s t : Text}
    (h : Fragment.sites scope.dialect s = Fragment.sites scope.dialect t) :
    scope.liveReferences s = scope.liveReferences t := by
  obtain ⟨pick, hpick, hread⟩ := exists_pick scope
  rw [hread, hread, Fragment.map_filterMap_read hpick, Fragment.map_filterMap_read hpick, h]

/-- Where two layouts break no site of the output, the review comes to the same. -/
theorem finish_findings {settings settings' : Settings} {p : Progress}
    (h : KeepsSites settings (dialect p.delayed) p.transcript.output)
    (h' : KeepsSites settings' (dialect p.delayed) p.transcript.output) :
    (p.finish settings).map Revealed.findings = (p.finish settings').map Revealed.findings := by
  have hd : dialect p.delayed ≠ .inf := by
    unfold dialect
    split <;> exact fun hinf => by cases hinf
  have hlive := liveReferences_eq_of_sites ⟨p.definitions, dialect p.delayed, .erase⟩
    ((sites_output hd h).trans (sites_output hd h').symm)
  unfold Progress.finish
  dsimp only
  rw [hlive]
  cases Expansion.Scope.liveReferences ⟨p.definitions, dialect p.delayed, .erase⟩
    (p.output settings') <;> rfl

/-- Up to the review, the layout plays no part. -/
theorem run_layout (settings : Settings) (raw : Bool) (width : Nat) (s : Text) :
    run { settings with raw := raw, wrapWidth := width } s = run settings s := by
  have htake : ∀ statement p, Progress.take { settings with raw := raw, wrapWidth := width }
      statement p = Progress.take settings statement p := fun _ _ => rfl
  have htakeAll : ∀ rest p, Progress.takeAll { settings with raw := raw, wrapWidth := width }
      rest p = Progress.takeAll settings rest p := by
    intro rest
    induction rest with
    | nil => exact fun _ => rfl
    | cons next rest ih =>
      intro p
      unfold Progress.takeAll Progress.takeNext
      rw [htake]
      exact congrArg _ (funext ih)
  unfold run
  refine bind_congr fun script => ?_
  rw [htake]
  exact congrArg _ (funext fun p => htakeAll _ p)

/--
Two layouts of a script have the same assignments, the same flag for cycles, and the same
diagnostics but those of the review.  Where neither breaks a site of the output, the review comes to
the same as well.
-/
theorem reveal_findings_eq (settings : Settings) (raw : Bool) (width : Nat) (s : Text) :
    let settings' := { settings with raw := raw, wrapWidth := width }
    (∀ r r', reveal settings s = .ok r → reveal settings' s = .ok r' →
      r.assignments = r'.assignments ∧ r.cyclic = r'.cyclic ∧ r.noticed = r'.noticed) ∧
    ∀ p, run settings s = .ok p → KeepsSites settings (dialect p.delayed) p.transcript.output →
      KeepsSites settings' (dialect p.delayed) p.transcript.output →
      (reveal settings s).map Revealed.findings = (reveal settings' s).map Revealed.findings := by
  intro settings'
  constructor
  · intro r r' h h'
    obtain ⟨p, hrun, -, hassignments, hcyclic, hnoticed⟩ := exists_run h
    obtain ⟨p', hrun', -, hassignments', hcyclic', hnoticed'⟩ := exists_run h'
    rw [run_layout, hrun] at hrun'
    obtain rfl : p = p' := Except.ok.inj hrun'
    exact ⟨hassignments.trans hassignments'.symm, hcyclic.trans hcyclic'.symm,
      hnoticed.trans hnoticed'.symm⟩
  · intro p hrun h h'
    have hreveal : reveal settings s = p.finish settings := by
      rw [reveal_eq_run, hrun]
      rfl
    have hreveal' : reveal settings' s = p.finish settings' := by
      rw [reveal_eq_run, run_layout, hrun]
      rfl
    rw [hreveal, hreveal', finish_findings h h']

/-- A long line with two sites that is broken between them. -/
theorem reveal_findings_eq_between :
    let s := "set P=%&set A=1&echo %P%A%P% && echo %P%A:x=y%P%".toList
    let assignments : List Assignment := [⟨['P'], ['%'], 0⟩, ⟨['A'], ['1'], 1⟩]
    let diagnostics : List Diagnostic :=
      [.ambiguousExpansion "%A%".toList, .ambiguousExpansion "%A:x=y%".toList]
    let r : Revealed := ⟨"echo %A% && echo %A:x=y%".toList, assignments, diagnostics, false⟩
    let r' : Revealed := ⟨"echo %A% &&\n  echo %A:x=y%".toList, assignments, diagnostics, false⟩
    reveal { raw := true } s = .ok r ∧ reveal { wrapWidth := 10 } s = .ok r' ∧
      (r.assignments = r'.assignments ∧ r.cyclic = r'.cyclic ∧ r.noticed = r'.noticed) ∧
      ∃ p, run { raw := true } s = .ok p ∧
        KeepsSites { raw := true } (dialect p.delayed) p.transcript.output ∧
        KeepsSites { wrapWidth := 10 } (dialect p.delayed) p.transcript.output ∧
        (reveal { raw := true } s).map Revealed.findings =
          (reveal { wrapWidth := 10 } s).map Revealed.findings := by
  intro s assignments diagnostics r r'
  have h : reveal { raw := true } s = .ok r := by decide +kernel
  have h' : reveal { wrapWidth := 10 } s = .ok r' := by decide +kernel
  obtain ⟨p, hrun, houtput, -⟩ := exists_run h
  have hdialect : dialect p.delayed = .percent := (run_delayed hrun).trans (by decide +kernel)
  have htranscript : p.transcript.output = r.output := houtput.symm
  have hbreaks : BreaksNoSite .percent 10 r.output := by
    unfold BreaksNoSite
    decide +kernel
  have hkeeps : KeepsSites { raw := true } (dialect p.delayed) p.transcript.output := .inl rfl
  have hkeeps' : KeepsSites { wrapWidth := 10 } (dialect p.delayed) p.transcript.output := by
    rw [hdialect, htranscript]
    exact .inr hbreaks
  have hall := reveal_findings_eq { raw := true } false 10 s
  exact ⟨h, h', hall.1 r r' h h', p, hrun, hkeeps, hkeeps', hall.2 p hrun hkeeps hkeeps'⟩

/-- A long line that is broken inside a site is flagged only where it is left whole. -/
theorem reveal_findings_ne_inside :
    let s := "set P=%&set A=1&echo \"%P%A: && =x%P%\"".toList
    ∃ r r', reveal { raw := true } s = .ok r ∧ reveal { wrapWidth := 10 } s = .ok r' ∧
      r.diagnostics = [.ambiguousExpansion "%A: && =x%".toList] ∧ r'.diagnostics = [] := by
  exact ⟨⟨"echo \"%A: && =x%\"".toList, [⟨['P'], ['%'], 0⟩, ⟨['A'], ['1'], 1⟩],
    [.ambiguousExpansion "%A: && =x%".toList], false⟩,
    ⟨"echo \"%A: &&\n  =x%\"".toList, [⟨['P'], ['%'], 0⟩, ⟨['A'], ['1'], 1⟩], [], false⟩,
    by decide +kernel, by decide +kernel, rfl, rfl⟩

end Script

end Unmask
