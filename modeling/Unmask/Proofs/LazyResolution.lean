import Unmask.Proofs.Valuation

/-!
# Lazy resolution computes values

Without mutual recursion, every name that an expansion meets is found to be what it is worth, so
each definition that is entered is expanded to its value, and the memory only ever holds values.

    descend_agrees               a definition that is entered is expanded to its value
    expand_eq_textValue          whatever was asked before, a text is expanded to its value
-/

namespace Unmask.Expansion.Scope

variable {scope : Scope} {val : Valuation} {chain : Chain} {name : Text}

/-! ## What a look-up finds -/

/-- A name that is not in progress is found to be worth its newest definition. -/
theorem newest_eq_worth (hc : chain.current? (Definitions.key name) = none) :
    scope.newest val (Definitions.key name) = (scope.find chain name).worth val := by
  unfold newest
  cases hn : (scope.definitions.valuesOf (Definitions.key name)).length with
  | zero =>
    rw [find_undefined hc (List.length_eq_zero_iff.1 hn)]
    rfl
  | succ n =>
    have ht := List.getElem?_eq_getElem (l := scope.definitions.valuesOf (Definitions.key name))
      (i := n) (by omega)
    rw [find_newest hc hn ht]
    rfl

/-- In the text of a definition, a name is found to be what it is worth there. -/
theorem within_eq_worth {g : Generation} (wf : scope.WellFormed (g :: chain))
    (hrec : ¬ scope.MutuallyRecursive) (href : scope.RefersTo g.key (Definitions.key name)) :
    scope.within val g (Definitions.key name) = (scope.find (g :: chain) name).worth val := by
  unfold within
  by_cases hk : Definitions.key name = g.key
  · have hc : Chain.current? (g :: chain) (Definitions.key name) = some g.index := by
      rw [hk]
      exact Chain.current?_cons_self g chain
    rw [if_pos hk]
    cases hi : g.index with
    | zero =>
      rw [hi] at hc
      rw [find_exhausted hc]
      rfl
    | succ i =>
      rw [hi] at hc
      have hlt := wf.defined g List.mem_cons_self
      rw [← hk] at hlt
      have ht := List.getElem?_eq_getElem (l := scope.definitions.valuesOf (Definitions.key name))
        (i := i) (by omega)
      rw [find_older hc ht]
      rfl
  · rw [if_neg hk]
    exact newest_eq_worth (wf.current?_of_refersTo hrec href hk)

/-- Entering what is met in the text of a definition keeps the chain well formed. -/
theorem WellFormed.enter {g : Generation} (wf : scope.WellFormed (g :: chain))
    (href : scope.RefersTo g.key (Definitions.key name)) {g' : Generation} {text : Text} {hit : Bool}
    (hf : scope.find (g :: chain) name = .value g' text hit) :
    scope.WellFormed (g' :: g :: chain) := by
  refine wf.cons hf fun older ho => ?_
  obtain rfl : g = older := Option.some.inj ho
  rw [(find_eq_value hf).1]
  exact href

theorem wellFormed_singleton {g : Generation} {text : Text} {hit : Bool}
    (hf : scope.find [] name = .value g text hit) : scope.WellFormed [g] :=
  (wellFormed_nil scope).cons hf fun _ ho => by cases ho

/-! ## Definitions -/

/-- A definition that is entered is expanded to its value, if the depth is enough. -/
theorem descend_agrees (denotes : scope.Denotes val) (hrec : ¬ scope.MutuallyRecursive)
    {depth : Nat} {g : Generation} {text : Text} {memory : Memory}
    (wf : scope.WellFormed (g :: chain))
    (htext : (scope.definitions.valuesOf g.key)[g.index]? = some text)
    (hdepth : scope.definitions.total < depth + (g :: chain).length) (sound : Sound val memory) :
    Agrees val (scope.descend depth (g :: chain) text memory) (val g) := by
  induction depth generalizing g chain text memory with
  | zero =>
    have := wf.length_le_total
    omega
  | succ depth ih =>
    rw [denotes g text htext]
    unfold descend textValue
    cases hread : Template.read scope.dialect text with
    | error fault => exact rfl
    | ok template =>
      refine expandPiecesWith_agrees (fun r hr => ?_) limit sound
      have href : scope.RefersTo g.key (Definitions.key r.name) :=
        ⟨text, List.mem_of_getElem? htext, template, hread, r, hr, rfl⟩
      refine ⟨within_eq_worth wf hrec href, fun g' text' hit hf memory' sound' => ?_⟩
      refine ih (wf.enter href hf) (find_eq_value hf).2.1 ?_ sound'
      simp only [List.length_cons] at hdepth ⊢
      omega

/-- Outside of any definition a name is worth its newest definition. -/
theorem serves_newest (denotes : scope.Denotes val) (hrec : ¬ scope.MutuallyRecursive)
    (name : Text) :
    scope.Serves val (scope.newest val) (scope.descend scope.definitions.total) [] name where
  worth_eq := newest_eq_worth rfl
  enter _ _ _ hf _ sound :=
    descend_agrees denotes hrec (wellFormed_singleton hf) (find_eq_value hf).2.1
      (Nat.lt_succ_self _) sound

/-! ## Solving the equations -/

/-- The values of definitions, references being followed at most `depth` deep. -/
def valueUpTo (scope : Scope) : (depth : Nat) → Valuation
  | 0, _ => .ok ⟨[], false⟩
  | depth + 1, g =>
    match (scope.definitions.valuesOf g.key)[g.index]? with
    | none => .ok ⟨[], false⟩
    | some text => scope.textValue (scope.within (scope.valueUpTo depth) g) text

theorem piecesValue_congr {worth worth' : Worth} {template : Template}
    (h : ∀ r ∈ template.references, worth (Definitions.key r.name) = worth' (Definitions.key r.name))
    (budget : Nat) : scope.piecesValue worth budget template = scope.piecesValue worth' budget template := by
  induction template generalizing budget with
  | nil => rfl
  | cons piece pieces ih =>
    have hhead : scope.pieceValue worth piece = scope.pieceValue worth' piece := by
      unfold pieceValue
      cases he : piece.expr with
      | literal text => rfl
      | reference r =>
        have hr := h r (Template.mem_references.2 ⟨piece, List.mem_cons_self, he⟩)
        simp only [referenceValue, hr]
    have htail : ∀ r ∈ Template.references pieces,
        worth (Definitions.key r.name) = worth' (Definitions.key r.name) := by
      intro r hr
      obtain ⟨p, hp, he⟩ := Template.mem_references.1 hr
      exact h r (Template.mem_references.2 ⟨p, List.mem_cons_of_mem _ hp, he⟩)
    simp only [piecesValue, hhead, ih htail]

/-- Following references deeper than chains can be long changes nothing. -/
theorem valueUpTo_succ (hrec : ¬ scope.MutuallyRecursive) {depth : Nat} {g : Generation}
    (wf : scope.WellFormed (g :: chain))
    (hdepth : scope.definitions.total < depth + (g :: chain).length) :
    scope.valueUpTo depth g = scope.valueUpTo (depth + 1) g := by
  induction depth generalizing g chain with
  | zero =>
    have := wf.length_le_total
    omega
  | succ depth ih =>
    obtain ⟨text, htext⟩ : ∃ text, (scope.definitions.valuesOf g.key)[g.index]? = some text :=
      ⟨_, List.getElem?_eq_getElem (wf.defined g List.mem_cons_self)⟩
    rw [valueUpTo, valueUpTo, htext]
    simp only [textValue]
    cases hread : Template.read scope.dialect text with
    | error fault => rfl
    | ok template =>
      refine piecesValue_congr (fun r hr => ?_) limit
      have href : scope.RefersTo g.key (Definitions.key r.name) :=
        ⟨text, List.mem_of_getElem? htext, template, hread, r, hr, rfl⟩
      rw [within_eq_worth wf hrec href, within_eq_worth wf hrec href]
      cases hf : scope.find (g :: chain) r.name with
      | unknown => rfl
      | exhausted key => rfl
      | value g' text' hit =>
        simp only [Finding.worth]
        rw [ih (wf.enter href hf) (by simp only [List.length_cons] at hdepth ⊢; omega)]

/-- Without mutual recursion the equations of values have a solution. -/
theorem exists_denotes (hrec : ¬ scope.MutuallyRecursive) : ∃ val, scope.Denotes val := by
  refine ⟨scope.valueUpTo scope.definitions.total, fun g text htext => ?_⟩
  have wf : scope.WellFormed [g] := by
    refine ⟨fun x hx => ?_, List.pairwise_singleton _ _, List.isChain_singleton g⟩
    rw [List.mem_singleton.1 hx]
    exact (List.getElem?_eq_some_iff.1 htext).1
  calc scope.valueUpTo scope.definitions.total g
      = scope.valueUpTo (scope.definitions.total + 1) g := valueUpTo_succ hrec wf (Nat.lt_succ_self _)
    _ = scope.textValue (scope.within (scope.valueUpTo scope.definitions.total) g) text := by
      rw [valueUpTo, htext]

/-! ## Steps -/

theorem expandTemplate_agrees (denotes : scope.Denotes val) (hrec : ¬ scope.MutuallyRecursive)
    (template : Template) {memory : Memory} (sound : Sound val memory) :
    Agrees val
      (scope.expandPiecesWith (scope.descend scope.definitions.total) [] limit template memory)
      (scope.piecesValue (scope.newest val) limit template) :=
  expandPiecesWith_agrees (fun r _ => serves_newest denotes hrec r.name) limit sound

theorem step_sound (denotes : scope.Denotes val) (hrec : ¬ scope.MutuallyRecursive) {step : Step}
    {memory memory' : Memory} {r : Resolution} (sound : Sound val memory)
    (hstep : scope.step step memory = .ok (r, memory')) : Sound val memory' := by
  cases step with
  | expand text =>
    obtain ⟨template, -, hrun⟩ := bind_eq_ok.1 hstep
    exact (expandTemplate_agrees denotes hrec template sound).sound hrun
  | expandAs dialect text =>
    obtain ⟨template, -, hrun⟩ := bind_eq_ok.1 hstep
    exact (expandTemplate_agrees denotes hrec template sound).sound hrun
  | resolve expr =>
    cases expr with
    | literal text =>
      cases hstep
      exact sound
    | reference ref =>
      exact (resolveWith_agrees (serves_newest denotes hrec ref.name) ref.toText sound).sound hstep

theorem run_sound (denotes : scope.Denotes val) (hrec : ¬ scope.MutuallyRecursive)
    {steps : List Step} {memory memory' : Memory} (sound : Sound val memory)
    (hrun : scope.run steps memory = .ok memory') : Sound val memory' := by
  induction steps generalizing memory with
  | nil =>
    cases hrun
    exact sound
  | cons step steps ih =>
    obtain ⟨⟨r, memory₁⟩, hstep, hrest⟩ := bind_eq_ok.1 hrun
    exact ih (step_sound denotes hrec sound hstep) hrest

theorem expand_fst (denotes : scope.Denotes val) (hrec : ¬ scope.MutuallyRecursive) (text : Text)
    {memory : Memory} (sound : Sound val memory) :
    (scope.expand text memory).map Prod.fst = scope.textValue (scope.newest val) text := by
  unfold expand textValue
  cases hread : Template.read scope.dialect text with
  | error fault => rfl
  | ok template => exact (expandTemplate_agrees denotes hrec template sound).map_fst

/--
Without mutual recursion definitions have values, and whatever was asked of the scope before, a
text is expanded to what it says with the newest value put for each name.
-/
theorem expand_eq_textValue (hrec : ¬ scope.MutuallyRecursive) :
    (∃ val, scope.Denotes val) ∧
      ∀ val, scope.Denotes val → ∀ steps memory, scope.run steps .empty = .ok memory →
        ∀ text, (scope.expand text memory).map Prod.fst =
          scope.textValue (scope.newest val) text :=
  ⟨exists_denotes hrec, fun _ denotes _ _ hrun text =>
    expand_fst denotes hrec text (run_sound denotes hrec (sound_empty _) hrun)⟩

/-- A name that was given two values, the second of which refers to it, and one that uses it. -/
def shadowing : Scope where
  definitions := .ofList
    [("B".toList, "%a%.exe".toList), ("A".toList, "ie4".toList), ("A".toList, "%A%uinit".toList)]
  dialect := .percent
  unknownNames := .erase

theorem expand_eq_textValue_shadowing :
    ¬ shadowing.MutuallyRecursive ∧
    ∃ val memory, shadowing.Denotes val ∧
      shadowing.run [.expand "%A% %C%".toList] .empty = .ok memory ∧
      (shadowing.expand "%B:I=i%".toList memory).map Prod.fst =
        shadowing.textValue (shadowing.newest val) "%B:I=i%".toList := by
  have hrec : ¬ shadowing.MutuallyRecursive :=
    not_mutuallyRecursive_ofList (fun k => if k = ['b'] then 1 else 0) (by decide +kernel)
  obtain ⟨⟨val, denotes⟩, hall⟩ := expand_eq_textValue hrec
  have hrun : shadowing.run [.expand "%A% %C%".toList] .empty =
      .ok ⟨[(⟨['a'], 1⟩, ⟨"ie4uinit".toList, false⟩), (⟨['a'], 0⟩, ⟨"ie4".toList, false⟩)],
        [.unresolvedReference ['C']]⟩ := by decide +kernel
  exact ⟨hrec, val, _, denotes, hrun, hall val denotes _ _ hrun _⟩

end Unmask.Expansion.Scope
