import Unmask.Proofs.Accounts
import Unmask.Proofs.NameCycles

/-!
# What is told after each step

Several things are asked of one scope, and after each of them the diagnostics are taken.  A finished
value is not worked out again, so what was noted on the way to it is told once: where no name leads
back to itself, a step tells what it tells by itself, but for diagnostics that an earlier step told.
Nothing is ever left out exactly if the values of the defined names have nothing to tell.

    step_recounts          one step tells what its account says
    runTaking_remembers    what was told stays behind in the memory
    taken_tellsNew         what a step tells behind others
-/

namespace Unmask.Expansion

/-- A memory whose diagnostics were taken. -/
def Memory.drained (memory : Memory) : Memory :=
  { memory with diagnostics := [] }

namespace Scope

/-- Does what is asked of a scope in order, and takes the diagnostics after each step. -/
def runTaking (scope : Scope) : List Step → Memory → Except Fault (List (List Diagnostic) × Memory)
  | [], memory => .ok ([], memory)
  | step :: steps, memory => do
    let (_, memory) ← scope.step step memory
    let (taken, last) ← scope.runTaking steps memory.drained
    return (memory.diagnostics :: taken, last)

def taken (scope : Scope) (step : Step) (memory : Memory) : Except Fault (List Diagnostic) :=
  (scope.step step memory).map fun result => result.2.diagnostics

/-- After any steps a step tells what it tells by itself. -/
def TellsApart (scope : Scope) : Prop :=
  ∀ steps told memory, scope.runTaking steps .empty = .ok (told, memory) →
    ∀ step, scope.taken step memory = scope.taken step .empty

/--
Two steps stop at one fault, or the first tells nothing that the second does not, and both tell the
same, in the same order, of what was not told before.
-/
inductive TellsNew (told : List Diagnostic) :
    Except Fault (List Diagnostic) → Except Fault (List Diagnostic) → Prop
  | fault (fault : Fault) : TellsNew told (.error fault) (.error fault)
  | told {ds alone : List Diagnostic} (hsubset : ds ⊆ alone)
      (hnew : ds.filter (· ∉ told) = alone.filter (· ∉ told)) : TellsNew told (.ok ds) (.ok alone)

variable {scope : Scope} {told : List Diagnostic} {memory : Memory}

/-! ## Steps -/

/-- The account of one thing asked of a scope. -/
def stepAccount (scope : Scope) : Step → Except Fault Account
  | .expand text => scope.textAccount scope.account text
  | .expandAs dialect text => do
    let template ← Template.read dialect text
    scope.piecesAccount scope.account limit template
  | .resolve (.literal text) => .ok ⟨⟨text, false⟩, []⟩
  | .resolve (.reference r) => scope.referenceAccount scope.account r.toText r

/-- A step gives what its account says and notes it, or it stops where the account does. -/
def RecountsStep (scope : Scope) (told : List Diagnostic) (memory : Memory)
    (run : Except Fault (Resolution × Memory)) (account : Except Fault Account) : Prop :=
  match run with
  | .error fault => account = .error fault
  | .ok (r, memory') => ∃ notes, account = .ok ⟨r, notes⟩ ∧ scope.Follows told memory notes memory'

theorem Recounts.step {run : Except Fault (Outcome × Memory)} {account : Except Fault Account}
    (h : scope.Recounts told memory run account) : scope.RecountsStep told memory
      (run >>= fun found => .ok (found.1.resolution, found.2)) account := by
  cases run with
  | error fault => exact h
  | ok found =>
    obtain ⟨notes, haccount, -, hfollows⟩ := h
    exact ⟨notes, haccount, hfollows⟩

theorem step_recounts (hacyclic : scope.Acyclic) (step : Step) (h : scope.Remembers told memory) :
    scope.RecountsStep told memory (scope.step step memory) (scope.stepAccount step) := by
  have hpieces : ∀ template : Template, scope.RecountsStep told memory
      (scope.expandTemplate template memory) (scope.piecesAccount scope.account limit template) :=
    fun template =>
      (expandPiecesWith_recounts (fun r _ => admits_nil hacyclic told r.name) limit h).step
  have hread : ∀ dialect text, scope.RecountsStep told memory
      (Template.read dialect text >>= fun template => scope.expandTemplate template memory)
      (Template.read dialect text >>= scope.piecesAccount scope.account limit) := by
    intro dialect text
    cases Template.read dialect text with
    | error fault => exact rfl
    | ok template => exact hpieces template
  cases step with
  | expand text => exact hread scope.dialect text
  | expandAs dialect text => exact hread dialect text
  | resolve expr =>
    cases expr with
    | literal text => exact ⟨[], rfl, .refl h⟩
    | reference r => exact (resolveWith_recounts (admits_nil hacyclic told r.name) r.toText h).step

theorem filter_untold (ds : List Diagnostic) : ds.filter (· ∉ ([] : List Diagnostic)) = ds :=
  List.filter_eq_self.2 fun d _ => by simp

theorem TellsNew.eq {taken alone : Except Fault (List Diagnostic)} (h : TellsNew [] taken alone) :
    taken = alone := by
  cases h with
  | fault fault => rfl
  | told hsubset hnew =>
    rw [filter_untold, filter_untold] at hnew
    rw [hnew]

/-- By itself a step tells what its account notes. -/
theorem taken_empty (hacyclic : scope.Acyclic) (step : Step) :
    scope.taken step .empty = (scope.stepAccount step).map fun account =>
      account.notes.foldl (fun ds d => d.add ds) [] := by
  have halone := step_recounts hacyclic step (scope.remembers_empty [])
  unfold taken
  cases hrun : scope.step step .empty with
  | error fault =>
    rw [hrun] at halone
    have haccount : scope.stepAccount step = .error fault := halone
    rw [haccount]
    rfl
  | ok result =>
    rw [hrun] at halone
    obtain ⟨notes, haccount, hfollows⟩ := halone
    have huntold := hfollows.untold
    rw [filter_untold, filter_untold] at huntold
    rw [haccount]
    exact congrArg Except.ok huntold

/-- Behind a memory whose diagnostics were taken a step tells what is new. -/
theorem tellsNew_of_remembers (hacyclic : scope.Acyclic) (h : scope.Remembers told memory)
    (hdrained : memory.diagnostics = []) (step : Step) :
    TellsNew told (scope.taken step memory) (scope.taken step .empty) := by
  have hstep := step_recounts hacyclic step h
  rw [taken_empty hacyclic]
  unfold taken
  cases hrun : scope.step step memory with
  | error fault =>
    rw [hrun] at hstep
    have haccount : scope.stepAccount step = .error fault := hstep
    rw [haccount]
    exact .fault fault
  | ok result =>
    rw [hrun] at hstep
    obtain ⟨notes, haccount, hfollows⟩ := hstep
    have huntold := hfollows.untold
    rw [hdrained] at huntold
    rw [haccount]
    refine .told (fun d hd => (Diagnostic.mem_foldl_add notes []).2 ?_) huntold
    rcases hfollows.noted d hd with hd | hd
    · rw [hdrained] at hd
      cases hd
    · exact Or.inr hd

/-! ## Runs -/

/-- What was told stays behind in the memory. -/
theorem runTaking_remembers (hacyclic : scope.Acyclic) {steps : List Step}
    {taken : List (List Diagnostic)} {last : Memory} (h : scope.Remembers told memory)
    (hdrained : memory.diagnostics = [])
    (hrun : scope.runTaking steps memory = .ok (taken, last)) :
    scope.Remembers (told ++ taken.flatten) last ∧ last.diagnostics = [] := by
  induction steps generalizing told memory taken with
  | nil =>
    cases hrun
    rw [List.flatten_nil, List.append_nil]
    exact ⟨h, hdrained⟩
  | cons step steps ih =>
    obtain ⟨⟨r, memory'⟩, hstep, hrun⟩ := bind_eq_ok.1 hrun
    obtain ⟨⟨rest, last'⟩, hrest, hrun⟩ := bind_eq_ok.1 hrun
    cases hrun
    have hrecounts := step_recounts hacyclic step h
    rw [hstep] at hrecounts
    obtain ⟨notes, -, hfollows⟩ := hrecounts
    have htold : scope.Remembers (told ++ memory'.diagnostics) memory'.drained := by
      intro g value hknown
      obtain ⟨name, text, notes, hfind, haccount, hnotes⟩ := hfollows.remembers g value hknown
      refine ⟨name, text, notes, hfind, haccount, fun d hd => Or.inr ?_⟩
      rcases hnotes d hd with hd | hd
      · exact List.mem_append_right told hd
      · exact List.mem_append_left _ hd
    have hlast := ih htold rfl hrest
    rw [List.append_assoc] at hlast
    exact hlast

/-! ## Values with nothing to tell -/

/-- The values of the defined names tell nothing. -/
def Silent (scope : Scope) : Prop :=
  ∀ name, scope.definitions.contains name = true → ∀ ds,
    scope.taken (.resolve (.reference ⟨name, .whole⟩)) .empty = .ok ds → ds = []

/-- A memory of values with nothing to tell is one behind which nothing was told. -/
theorem Silent.remembers (hsilent : scope.Silent) (hacyclic : scope.Acyclic)
    (h : scope.Remembers told memory) : scope.Remembers [] memory := by
  intro g r hknown
  obtain ⟨name, text, notes, hfind, haccount, -⟩ := h g r hknown
  have hcurrent : Chain.current? [] (Definitions.key name) = none := rfl
  obtain ⟨hlookup, hcontains⟩ : scope.definitions.lookup? name = some text ∧
      scope.definitions.contains name = true := by
    unfold Definitions.contains
    rcases find_of_current? scope hcurrent with ⟨-, hunknown⟩ | ⟨g', text', hlookup, hfind'⟩
    · cases hunknown.symm.trans hfind
    · cases hfind'.symm.trans hfind
      exact ⟨hlookup, by rw [hlookup]; rfl⟩
  have htaken : scope.taken (.resolve (.reference ⟨name, .whole⟩)) .empty =
      .ok (notes.foldl (fun ds d => d.add ds) []) := by
    rw [taken_empty hacyclic]
    unfold stepAccount referenceAccount
    dsimp only
    rw [hlookup]
    dsimp only
    rw [haccount]
    rfl
  have hnil := hsilent name hcontains _ htaken
  refine ⟨name, text, notes, hfind, haccount, fun d hd => ?_⟩
  have hmem := (Diagnostic.mem_foldl_add notes []).2 (Or.inr hd)
  rw [hnil] at hmem
  cases hmem

/-- A name that was resolved is not worked out again. -/
theorem resolve_again {name token : Text} {r : Resolution}
    (hcontains : scope.definitions.contains name = true)
    (hrun : scope.resolve token ⟨name, .whole⟩ .empty = .ok (r, memory)) :
    scope.resolve token ⟨name, .whole⟩ memory.drained = .ok (r, memory.drained) := by
  have hcurrent : Chain.current? [] (Definitions.key name) = none := rfl
  obtain ⟨g, text, hfind⟩ : ∃ g text, scope.find [] name = .value g text false := by
    rcases find_of_current? scope hcurrent with ⟨hlookup, -⟩ | ⟨g, text, -, hfind⟩
    · unfold Definitions.contains at hcontains
      rw [hlookup] at hcontains
      cases hcontains
    · exact ⟨g, text, hfind⟩
  obtain ⟨⟨outcome, memory'⟩, hresolve, hrest⟩ := bind_eq_ok.1 hrun
  obtain ⟨⟨inner, memory''⟩, hdescend⟩ : ∃ found,
      scope.descend scope.definitions.total [g] text .empty = .ok found := by
    unfold resolveWith at hresolve
    rw [hfind] at hresolve
    obtain ⟨found, hdescend, -⟩ := bind_eq_ok.1 hresolve
    exact ⟨found, hdescend⟩
  rw [resolveWith_enter token .empty hfind rfl hdescend] at hresolve
  cases hresolve
  cases hrest
  have hkept : (outcome.hits.all fun key =>
      decide (key = g.key) || (Chain.current? [] key).isNone) = true :=
    List.all_eq_true.2 fun key _ => Bool.or_true _
  rw [if_pos hkept]
  have hknown : (Memory.keep g outcome.resolution memory'').drained.known? g =
      some outcome.resolution := List.lookup_cons_self
  exact bind_eq_ok.2 ⟨_, resolveWith_known hfind hknown, rfl⟩

theorem silent_of_tellsApart (h : scope.TellsApart) : scope.Silent := by
  intro name hcontains ds htaken
  obtain ⟨⟨r, memory⟩, hstep, rfl⟩ : ∃ result,
      scope.step (.resolve (.reference ⟨name, .whole⟩)) .empty = .ok result ∧
        result.2.diagnostics = ds := by
    unfold taken at htaken
    cases hrun : scope.step (.resolve (.reference ⟨name, .whole⟩)) .empty with
    | error fault =>
      rw [hrun] at htaken
      cases htaken
    | ok result =>
      rw [hrun] at htaken
      exact ⟨result, rfl, Except.ok.inj htaken⟩
  have hrun : scope.runTaking [.resolve (.reference ⟨name, .whole⟩)] .empty =
      .ok ([memory.diagnostics], memory.drained) :=
    bind_eq_ok.2 ⟨_, hstep, rfl⟩
  have hagain : scope.taken (.resolve (.reference ⟨name, .whole⟩)) memory.drained = .ok [] :=
    congrArg (Except.map _) (resolve_again hcontains hstep)
  have hsame := h _ _ _ hrun (.resolve (.reference ⟨name, .whole⟩))
  rw [hagain, htaken] at hsame
  exact (Except.ok.inj hsame).symm

/--
Where no name leads back to itself, a step behind others tells what it tells by itself, but for what
an earlier step told.  Nothing is ever left out exactly if the values of the defined names tell
nothing.
-/
theorem taken_tellsNew (hacyclic : scope.Acyclic) :
    (∀ steps told memory, scope.runTaking steps .empty = .ok (told, memory) → ∀ step,
      TellsNew told.flatten (scope.taken step memory) (scope.taken step .empty)) ∧
    (scope.TellsApart ↔ ∀ name, scope.definitions.contains name = true → ∀ ds,
      scope.taken (.resolve (.reference ⟨name, .whole⟩)) .empty = .ok ds → ds = []) := by
  have hremembers : ∀ steps told memory, scope.runTaking steps .empty = .ok (told, memory) →
      scope.Remembers told.flatten memory ∧ memory.diagnostics = [] := by
    intro steps told memory hrun
    exact runTaking_remembers hacyclic (scope.remembers_empty []) rfl hrun
  refine ⟨fun steps told memory hrun step => ?_, silent_of_tellsApart, fun hsilent => ?_⟩
  · obtain ⟨h, hdrained⟩ := hremembers steps told memory hrun
    exact tellsNew_of_remembers hacyclic h hdrained step
  · intro steps told memory hrun step
    obtain ⟨h, hdrained⟩ := hremembers steps told memory hrun
    exact (tellsNew_of_remembers hacyclic (Silent.remembers hsilent hacyclic h) hdrained step).eq

/-- The value of `B` was worked out on the way to `A`, and what it told is not told again. -/
theorem taken_tellsNew_shared :
    let scope : Scope := ⟨.ofList [("D".toList, "old".toList), ("A".toList, "x%B:~0,3%%D%".toList),
      ("B".toList, "%C%%C:-none%".toList), ("d".toList, "new".toList)], .percent, .keep⟩
    let told : List (List Diagnostic) :=
      [[.unresolvedReference ['C']], [.unresolvedReference "NO".toList]]
    let memory : Memory := ⟨[(⟨['a'], 0⟩, ⟨"x%C%new".toList, false⟩),
      (⟨['d'], 1⟩, ⟨"new".toList, false⟩), (⟨['b'], 0⟩, ⟨"%C%none".toList, false⟩)], []⟩
    let step : Step := .expand "%b%%Z%".toList
    scope.Acyclic ∧
      scope.runTaking [.expand "%A%".toList, .expandAs .delayed "!NO!".toList] .empty =
        .ok (told, memory) ∧
      scope.taken step memory = .ok [.unresolvedReference ['Z']] ∧
      scope.taken step .empty = .ok [.unresolvedReference ['C'], .unresolvedReference ['Z']] ∧
      TellsNew told.flatten (scope.taken step memory) (scope.taken step .empty) := by
  intro scope told memory step
  have hacyclic : scope.Acyclic :=
    acyclic_ofList (fun k => if k = ['a'] then 2 else if k = ['b'] then 1 else 0)
      (by decide +kernel)
  have hrun : scope.runTaking [.expand "%A%".toList, .expandAs .delayed "!NO!".toList] .empty =
      .ok (told, memory) := by decide +kernel
  exact ⟨hacyclic, hrun, by decide +kernel, by decide +kernel,
    (taken_tellsNew hacyclic).1 _ told memory hrun step⟩

/-- Asked for a name twice, the second time an expansion tells nothing. -/
theorem not_tellsApart_undefined :
    let scope : Scope := ⟨.ofList [("A".toList, "%B%".toList)], .percent, .erase⟩
    let memory : Memory := ⟨[(⟨['a'], 0⟩, ⟨[], false⟩)], []⟩
    scope.Acyclic ∧ scope.runTaking [.expand "%A%".toList] .empty =
        .ok ([[.unresolvedReference ['B']]], memory) ∧
      scope.taken (.expand "%A%".toList) memory = .ok [] ∧
      scope.taken (.expand "%A%".toList) .empty = .ok [.unresolvedReference ['B']] ∧
      ¬ scope.TellsApart := by
  intro scope memory
  have hrun : scope.runTaking [.expand "%A%".toList] .empty =
      .ok ([[.unresolvedReference ['B']]], memory) := by decide +kernel
  have hagain : scope.taken (.expand "%A%".toList) memory = .ok [] := by decide +kernel
  have halone : scope.taken (.expand "%A%".toList) .empty = .ok [.unresolvedReference ['B']] := by
    decide +kernel
  refine ⟨acyclic_ofList (fun k => if k = ['a'] then 1 else 0) (by decide +kernel), hrun, hagain,
    halone, fun h => ?_⟩
  have hsame := h _ _ _ hrun (.expand "%A%".toList)
  rw [hagain, halone] at hsame
  cases hsame

end Scope

end Unmask.Expansion
