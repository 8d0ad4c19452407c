import Mathlib.Logic.Function.Basic
import Unmask.Expansion.Session
import Unmask.Proofs.Chains

/-!
# Names in progress

Instead of a chain, an expansion can keep a mark for each name whose value is being expanded.  A
mark is written over when an older value of the same name is entered, and what stood there before is
put back when that value is done.  This module runs expansions in that way, beside a log of every
definition that is entered with the ones around it, and shows that they come to the same.

    Ledger                    the marks, the memory and the log
    resolveMarking_restores   a reference leaves the marks as it found them, in any state
    descendMarking_mirrors    a depth that is no less than the number of definitions never counts
    runMarking_orderly        what is entered, how deep, and what is left behind each step
-/

namespace Unmask.Expansion

/-- The value in progress of each name that has one. -/
abbrev Marks := Text → Option Nat

/-- What an expansion with marks carries along. -/
structure Ledger where
  marks : Marks
  memory : Memory
  /-- Each definition that was entered, in front of the ones that were in progress. -/
  entered : List Chain

namespace Ledger

def start (memory : Memory) : Ledger :=
  ⟨fun _ => none, memory, []⟩

/-- Marks the name of a definition that is entered below `outer`. -/
def enter (g : Generation) (outer : Chain) (ledger : Ledger) : Ledger where
  marks := Function.update ledger.marks g.key (some g.index)
  memory := ledger.memory
  entered := (g :: outer) :: ledger.entered

def restore (key : Text) (previous : Option Nat) (ledger : Ledger) : Ledger :=
  { ledger with marks := Function.update ledger.marks key previous }

end Ledger

/-- A computation on a ledger.  Where a fault stops it there still is the ledger. -/
abbrev Marking := ExceptT Fault (StateM Ledger)

namespace Marking

variable {α β : Type}

/-- What a computation comes to. -/
def runFrom (m : Marking α) (ledger : Ledger) : Except Fault α × Ledger :=
  m.run.run ledger

theorem runFrom_get (ledger : Ledger) : runFrom get ledger = (.ok ledger, ledger) := rfl

theorem runFrom_modify (f : Ledger → Ledger) (ledger : Ledger) :
    runFrom (modify f) ledger = (.ok (), f ledger) := rfl

theorem runFrom_bind_of_ok {m : Marking α} {ledger ledger' : Ledger} {a : α}
    (h : m.runFrom ledger = (.ok a, ledger')) (f : α → Marking β) :
    (m >>= f).runFrom ledger = (f a).runFrom ledger' := by
  unfold runFrom at h ⊢
  rw [ExceptT.run_bind, StateT.run_bind, h]
  rfl

theorem runFrom_bind_of_error {m : Marking α} {ledger ledger' : Ledger} {fault : Fault}
    (h : m.runFrom ledger = (.error fault, ledger')) (f : α → Marking β) :
    (m >>= f).runFrom ledger = (.error fault, ledger') := by
  unfold runFrom at h ⊢
  rw [ExceptT.run_bind, StateT.run_bind, h]
  rfl

/-- A text that is read, or the fault that stops it. -/
theorem runFrom_ofExcept (x : Except Fault α) (ledger : Ledger) :
    runFrom (MonadExcept.ofExcept x) ledger = (x, ledger) := by
  cases x <;> rfl

end Marking

/-! ## Expansion with marks -/

section

variable (descend : Chain → Text → Marking Outcome) (scope : Scope)

/-- Looks a name up by its mark. -/
def Scope.findMarked (marks : Marks) (name : Text) : Finding :=
  let key := Definitions.key name
  let values := scope.definitions.valuesOf key
  let (index, hit) :=
    match marks key with
    | none => (values.length, false)
    | some index => (index, true)
  match index with
  | 0 => if hit then .exhausted key else .unknown
  | index + 1 =>
    match values[index]? with
    | none => .unknown
    | some text => .value ⟨key, index⟩ text hit

def Marking.entering (g : Generation) (text : Text) (outer : Chain) : Marking Outcome := do
  let previous := (← get).marks g.key
  modify (·.enter g outer)
  let inner ← descend (g :: outer) text
  modify (·.restore g.key previous)
  return inner

namespace Scope

def resolveMarking (outer : Chain) (token : Text) (r : Reference) : Marking Outcome := do
  let ledger ← get
  match scope.findMarked ledger.marks r.name with
  | .unknown =>
    let (outcome, memory) := scope.missing token r ledger.memory
    set { ledger with memory }
    return outcome
  | .exhausted key =>
    set { ledger with memory := ledger.memory.report (.cyclicReference r.name) }
    return ⟨r.modifier.apply ⟨[], true⟩, [key]⟩
  | .value g text hit =>
    let hits := if hit then [g.key] else []
    match ledger.memory.known? g with
    | some known => return ⟨r.modifier.apply known, hits⟩
    | none =>
      let inner ← Marking.entering descend g text outer
      let ledger ← get
      let independent := inner.hits.all fun key => key = g.key || (ledger.marks key).isNone
      set { ledger with
        memory := if independent then ledger.memory.keep g inner.resolution else ledger.memory }
      return ⟨r.modifier.apply inner.resolution, hits ++ inner.hits⟩

def expandPieceMarking (outer : Chain) (piece : Piece) : Marking Outcome :=
  match piece.expr with
  | .literal text => return .literal text
  | .reference r => scope.resolveMarking descend outer piece.token r

def expandPiecesMarking (outer : Chain) : (budget : Nat) → Template → Marking Outcome
  | _, [] => return .literal []
  | budget, piece :: pieces => do
    let head ← scope.expandPieceMarking descend outer piece
    let size := Text.byteLength head.resolution.value
    if budget < size then
      let value := Text.takeBytes budget head.resolution.value
      return { head with resolution := { head.resolution with value } }
    else
      let tail ← expandPiecesMarking outer (budget - size) pieces
      return head.append tail

end Scope

end

namespace Scope

/-- Expands the text of a definition, following at most `depth` definitions one inside the other. -/
def descendMarking (scope : Scope) : (depth : Nat) → Chain → Text → Marking Outcome
  | 0, _, _ => return .literal []
  | depth + 1, outer, text => do
    let template ← MonadExcept.ofExcept (Template.read scope.dialect text)
    scope.expandPiecesMarking (scope.descendMarking depth) outer limit template

variable (scope : Scope) (depth : Nat)

/-- Expands a template, following at most `depth` definitions one inside the other. -/
def expandTemplateMarking (template : Template) : Marking Resolution := do
  let outcome ← scope.expandPiecesMarking (scope.descendMarking depth) [] limit template
  return outcome.resolution

def stepMarking : Step → Marking Resolution
  | .expand text => do
    let template ← MonadExcept.ofExcept (Template.read scope.dialect text)
    scope.expandTemplateMarking depth template
  | .expandAs dialect text => do
    let template ← MonadExcept.ofExcept (Template.read dialect text)
    scope.expandTemplateMarking depth template
  | .resolve (.literal text) => return ⟨text, false⟩
  | .resolve (.reference r) => do
    let outcome ← scope.resolveMarking (scope.descendMarking depth) [] r.toText r
    return outcome.resolution

def runMarking : List Step → Marking Unit
  | [] => return ()
  | step :: steps => do
    let _ ← scope.stepMarking depth step
    runMarking steps

end Scope

/-! ## Every call gives the marks back -/

namespace Marking

section

variable {descend : Chain → Text → Marking Outcome} {g : Generation} {text : Text} {outer : Chain}
  {ledger ledger' : Ledger}

theorem runFrom_entering_of_ok {o : Outcome}
    (h : (descend (g :: outer) text).runFrom (ledger.enter g outer) = (.ok o, ledger')) :
    (entering descend g text outer).runFrom ledger =
      (.ok o, ledger'.restore g.key (ledger.marks g.key)) := by
  rw [entering, runFrom_bind_of_ok (runFrom_get ledger),
    runFrom_bind_of_ok (runFrom_modify _ ledger), runFrom_bind_of_ok h,
    runFrom_bind_of_ok (runFrom_modify _ ledger')]
  rfl

/-- Where a fault stops the run nothing is put back. -/
theorem runFrom_entering_of_error {fault : Fault}
    (h : (descend (g :: outer) text).runFrom (ledger.enter g outer) = (.error fault, ledger')) :
    (entering descend g text outer).runFrom ledger = (.error fault, ledger') := by
  rw [entering, runFrom_bind_of_ok (runFrom_get ledger),
    runFrom_bind_of_ok (runFrom_modify _ ledger), runFrom_bind_of_error h]

end

variable {α β : Type}

/-- Whatever the state, a computation that comes to an end leaves the marks as they were. -/
def Restores (m : Marking α) : Prop :=
  ∀ ledger a ledger', m.runFrom ledger = (.ok a, ledger') → ledger'.marks = ledger.marks

theorem restores_pure (a : α) : Restores (pure a) := by
  intro ledger a' ledger' h
  cases h
  rfl

theorem restores_ofExcept (x : Except Fault α) : Restores (MonadExcept.ofExcept x) := by
  intro ledger a ledger' h
  rw [runFrom_ofExcept] at h
  cases h
  rfl

theorem Restores.bind {m : Marking α} {f : α → Marking β} (hm : m.Restores)
    (hf : ∀ a, (f a).Restores) : (m >>= f).Restores := by
  intro ledger b ledger' h
  rcases hrun : m.runFrom ledger with ⟨fault | a, ledger₁⟩
  · rw [runFrom_bind_of_error hrun] at h
    cases h
  · rw [runFrom_bind_of_ok hrun] at h
    exact (hf a _ _ _ h).trans (hm _ _ _ hrun)

theorem restores_entering {descend : Chain → Text → Marking Outcome}
    (hdescend : ∀ outer text, (descend outer text).Restores) (g : Generation) (text : Text)
    (outer : Chain) : (entering descend g text outer).Restores := by
  intro ledger o ledger' h
  rcases hrun : (descend (g :: outer) text).runFrom (ledger.enter g outer) with ⟨fault | a, ledger₁⟩
  · rw [runFrom_entering_of_error hrun] at h
    cases h
  · rw [runFrom_entering_of_ok hrun] at h
    cases h
    have hmarks := hdescend _ _ _ _ _ hrun
    rw [Ledger.restore, hmarks, Ledger.enter, Function.update_idem, Function.update_eq_self]

end Marking

open Marking (Restores restores_pure restores_ofExcept)

namespace Scope

variable {descend : Chain → Text → Marking Outcome}

theorem resolveMarking_restores_of (hdescend : ∀ outer text, (descend outer text).Restores)
    (scope : Scope) (outer : Chain) (token : Text) (r : Reference) :
    (scope.resolveMarking descend outer token r).Restores := by
  intro ledger o ledger' h
  rw [resolveMarking, Marking.runFrom_bind_of_ok (Marking.runFrom_get ledger)] at h
  cases hfind : scope.findMarked ledger.marks r.name with
  | unknown | exhausted key =>
    rw [hfind] at h
    cases h
    rfl
  | value g text hit =>
    cases hknown : ledger.memory.known? g with
    | some known =>
      simp only [hfind, hknown] at h
      cases h
      rfl
    | none =>
      simp only [hfind, hknown] at h
      refine (Marking.restores_entering hdescend g text outer).bind (fun inner => ?_) _ _ _ h
      intro ledger₁ o' ledger₂ h₁
      cases h₁
      rfl

theorem expandPiecesMarking_restores (hdescend : ∀ outer text, (descend outer text).Restores)
    (scope : Scope) (outer : Chain) (budget : Nat) (template : Template) :
    (scope.expandPiecesMarking descend outer budget template).Restores := by
  induction template generalizing budget with
  | nil => exact restores_pure _
  | cons piece pieces ih =>
    refine Restores.bind ?_ fun head => ?_
    · unfold expandPieceMarking
      split
      · exact restores_pure _
      · exact resolveMarking_restores_of hdescend scope outer _ _
    · dsimp only
      split
      · exact restores_pure _
      · exact (ih _).bind fun tail => restores_pure _

theorem descendMarking_restores (scope : Scope) (depth : Nat) (outer : Chain) (text : Text) :
    (scope.descendMarking depth outer text).Restores := by
  induction depth generalizing outer text with
  | zero => exact restores_pure _
  | succ depth ih =>
    exact (restores_ofExcept _).bind fun template =>
      expandPiecesMarking_restores ih scope outer limit template

/-- A reference leaves the marks as it found them. -/
theorem resolveMarking_restores (scope : Scope) (depth : Nat) (outer : Chain) (token : Text)
    (r : Reference) :
    (scope.resolveMarking (scope.descendMarking depth) outer token r).Restores :=
  resolveMarking_restores_of (scope.descendMarking_restores depth) scope outer token r

end Scope

/-! ## Marks and chains -/

variable {α β : Type} {scope : Scope} {outer : Chain}

/-- The value of a definition that is entered is the one in progress of its name. -/
theorem current?_cons (g : Generation) (chain : Chain) :
    Chain.current? (g :: chain) = Function.update chain.current? g.key (some g.index) := by
  funext k
  by_cases hk : k = g.key
  · rw [hk, Function.update_self, Chain.current?_cons_self]
  · rw [Function.update_of_ne hk, Chain.current?_cons_of_ne (Ne.symm hk)]

/-- The marks are those of the definitions in progress, and so it was wherever one was entered. -/
structure Ledger.InOrder (scope : Scope) (outer : Chain) (ledger : Ledger) : Prop where
  marks : ledger.marks = outer.current?
  entered : ∀ chain ∈ ledger.entered, scope.Orderly chain

/-- A run with marks ends as one with a chain does. -/
inductive Ends (scope : Scope) (outer : Chain) :
    Except Fault (α × Memory) → Except Fault α × Ledger → Prop
  | ok {a} (ledger : Ledger) (inOrder : ledger.InOrder scope outer) :
      Ends scope outer (.ok (a, ledger.memory)) (.ok a, ledger)
  | error {fault ledger} (entered : ∀ chain ∈ ledger.entered, scope.Orderly chain) :
      Ends scope outer (.error fault) (.error fault, ledger)

/-- A computation with marks does what one with a chain does. -/
def Mirrors (scope : Scope) (outer : Chain) (m : Marking α)
    (x : Memory → Except Fault (α × Memory)) : Prop :=
  ∀ ledger, ledger.InOrder scope outer → Ends scope outer (x ledger.memory) (m.runFrom ledger)

theorem mirrors_pure (scope : Scope) (outer : Chain) (a : α) :
    Mirrors scope outer (pure a) fun memory => .ok (a, memory) :=
  Ends.ok

/-- What follows a computation starts where it ends. -/
theorem Ends.bind {m : Marking α} {f : α → Marking β} {x : Except Fault (α × Memory)}
    {y : α × Memory → Except Fault (β × Memory)} {ledger : Ledger}
    (h : Ends scope outer x (m.runFrom ledger))
    (hf : ∀ a ledger', ledger'.InOrder scope outer →
      Ends scope outer (y (a, ledger'.memory)) ((f a).runFrom ledger')) :
    Ends scope outer (x >>= y) ((m >>= f).runFrom ledger) := by
  generalize hrun : m.runFrom ledger = run at h
  cases h with
  | ok ledger' inOrder =>
    rw [Marking.runFrom_bind_of_ok hrun]
    exact hf _ ledger' inOrder
  | error entered =>
    rw [Marking.runFrom_bind_of_error hrun]
    exact .error entered

theorem Mirrors.ofExcept {f : α → Marking β} {x : Except Fault α}
    {y : α → Memory → Except Fault (β × Memory)} (hf : ∀ a, Mirrors scope outer (f a) (y a)) :
    Mirrors scope outer (MonadExcept.ofExcept x >>= f) fun memory => x >>= (y · memory) := by
  intro ledger hledger
  cases x with
  | error fault => exact .error hledger.entered
  | ok a => exact hf a ledger hledger

/-- A definition that is entered stands at the head of the chain until its value is done. -/
theorem mirrors_entering {descend : Chain → Text → Marking Outcome} {g : Generation} {text : Text}
    {x : Memory → Except Fault (Outcome × Memory)} (hg : scope.Orderly (g :: outer))
    (hdescend : Mirrors scope (g :: outer) (descend (g :: outer) text) x) :
    Mirrors scope outer (Marking.entering descend g text outer) x := by
  intro ledger hledger
  have henter : (ledger.enter g outer).InOrder scope (g :: outer) := by
    refine ⟨?_, fun chain hchain => ?_⟩
    · rw [current?_cons, ← hledger.marks]
      rfl
    · rcases List.mem_cons.1 hchain with rfl | hchain
      · exact hg
      · exact hledger.entered chain hchain
  have hends := hdescend _ henter
  rw [show (ledger.enter g outer).memory = ledger.memory from rfl] at hends
  generalize hrun : (descend (g :: outer) text).runFrom (ledger.enter g outer) = run at hends
  generalize x ledger.memory = result at hends
  cases hends with
  | ok ledger₁ hinOrder =>
    rw [Marking.runFrom_entering_of_ok hrun]
    refine Ends.ok (ledger₁.restore g.key (ledger.marks g.key)) ⟨?_, hinOrder.entered⟩
    rw [Ledger.restore, hinOrder.marks, current?_cons, hledger.marks, Function.update_idem,
      Function.update_eq_self]
  | error hentered =>
    rw [Marking.runFrom_entering_of_error hrun]
    exact .error hentered

namespace Scope

section

variable {descendM : Chain → Text → Marking Outcome} {descend : Descent}
  (houter : scope.Orderly outer)
  (hdescend : ∀ g text, scope.Orderly (g :: outer) →
    Mirrors scope (g :: outer) (descendM (g :: outer) text) (descend (g :: outer) text))

include houter hdescend

theorem resolveMarking_mirrors (token : Text) (r : Reference) :
    Mirrors scope outer (scope.resolveMarking descendM outer token r)
      (scope.resolveWith descend outer token r) := by
  intro ledger hledger
  have hlookup : scope.findMarked ledger.marks r.name = scope.find outer r.name := by
    rw [hledger.marks]
    rfl
  rw [resolveMarking, Marking.runFrom_bind_of_ok (Marking.runFrom_get ledger), hlookup, resolveWith]
  cases hfind : scope.find outer r.name with
  | unknown | exhausted key =>
    exact Ends.ok ⟨ledger.marks, _, ledger.entered⟩ ⟨hledger.marks, hledger.entered⟩
  | value g text hit =>
    dsimp only
    cases hknown : ledger.memory.known? g with
    | some known => exact Ends.ok ledger hledger
    | none =>
      have hg := houter.cons hfind
      refine (mirrors_entering hg (hdescend g text hg) ledger hledger).bind fun inner ledger₁ h₁ => ?_
      rw [Marking.runFrom_bind_of_ok (Marking.runFrom_get ledger₁), h₁.marks]
      exact Ends.ok ⟨outer.current?, _, ledger₁.entered⟩ ⟨rfl, h₁.entered⟩

theorem expandPiecesMarking_mirrors (budget : Nat) (template : Template) :
    Mirrors scope outer (scope.expandPiecesMarking descendM outer budget template)
      (scope.expandPiecesWith descend outer budget template) := by
  induction template generalizing budget with
  | nil => exact mirrors_pure scope outer _
  | cons piece pieces ih =>
    intro ledger hledger
    rw [expandPiecesMarking, expandPiecesWith]
    refine Ends.bind ?_ fun head ledger₁ h₁ => ?_
    · unfold expandPieceMarking expandPieceWith
      cases piece.expr with
      | literal text => exact Ends.ok ledger hledger
      | reference r => exact resolveMarking_mirrors houter hdescend piece.token r ledger hledger
    · dsimp only
      split
      · exact Ends.ok ledger₁ h₁
      · exact (ih _ ledger₁ h₁).bind fun tail ledger₂ h₂ => Ends.ok ledger₂ h₂

end

/-- A depth that is no less than the number of definitions is never used up. -/
theorem descendMarking_mirrors (scope : Scope) (extra depth : Nat) {outer : Chain}
    (houter : scope.Orderly outer) (hdepth : scope.definitions.total < depth + outer.length)
    (text : Text) :
    Mirrors scope outer (scope.descendMarking (depth + extra) outer text)
      (scope.descend depth outer text) := by
  induction depth generalizing outer text with
  | zero =>
    have := houter.length_le_total
    omega
  | succ depth ih =>
    intro ledger hledger
    rw [Nat.add_right_comm, descendMarking, descend]
    refine Mirrors.ofExcept (fun template => ?_) ledger hledger
    refine expandPiecesMarking_mirrors houter (fun g text hg => ?_) limit template
    refine ih hg ?_ text
    rw [List.length_cons]
    omega

/-! ## Whole runs -/

/-- The number of definitions, which no chain exceeds, and more. -/
theorem descendMarking_mirrors_total (scope : Scope) (extra : Nat) {g : Generation}
    (hg : scope.Orderly [g]) (text : Text) :
    Mirrors scope [g] (scope.descendMarking (scope.definitions.total + extra) [g] text)
      (scope.descend scope.definitions.total [g] text) :=
  descendMarking_mirrors scope extra _ hg (by simp) text

theorem expandTemplateMarking_mirrors (scope : Scope) (extra : Nat) (template : Template) :
    Mirrors scope [] (scope.expandTemplateMarking (scope.definitions.total + extra) template)
      (scope.expandTemplate template) := by
  intro ledger hledger
  exact (expandPiecesMarking_mirrors scope.orderly_nil
    (fun _ text hg => scope.descendMarking_mirrors_total extra hg text) limit template ledger
    hledger).bind fun o ledger₁ h₁ => Ends.ok ledger₁ h₁

theorem stepMarking_mirrors (scope : Scope) (extra : Nat) (step : Step) :
    Mirrors scope [] (scope.stepMarking (scope.definitions.total + extra) step) (scope.step step) := by
  cases step with
  | expand text | expandAs dialect text =>
    exact Mirrors.ofExcept fun template => scope.expandTemplateMarking_mirrors extra template
  | resolve expr =>
    cases expr with
    | literal text => exact mirrors_pure scope [] _
    | reference r =>
      intro ledger hledger
      exact (resolveMarking_mirrors scope.orderly_nil
        (fun _ text hg => scope.descendMarking_mirrors_total extra hg text) r.toText r ledger
        hledger).bind fun o ledger₁ h₁ => Ends.ok ledger₁ h₁

theorem runMarking_mirrors (scope : Scope) (extra : Nat) (steps : List Step) :
    Mirrors scope [] (scope.runMarking (scope.definitions.total + extra) steps)
      fun memory => scope.run steps memory >>= fun memory => .ok ((), memory) := by
  induction steps with
  | nil => exact mirrors_pure scope [] ()
  | cons step steps ih =>
    intro ledger hledger
    dsimp only
    rw [runMarking, run, bind_assoc]
    exact (scope.stepMarking_mirrors extra step ledger hledger).bind fun r ledger₁ h₁ => ih ledger₁ h₁

/--
Whatever was asked before and whatever is asked next, and however much deeper the run could go: it
comes to the same with marks as with a chain, and no name is marked behind it.  Of the definitions
that are entered one inside the other no two are the same, those of one name go from newer to older,
and there are never more of them than the table has.  Each reference that is resolved on the way
leaves the marks as it found them.
-/
theorem runMarking_orderly (scope : Scope) (extra : Nat) (history : List Step) (step : Step)
    (memory : Memory) :
    (∃ result ledger,
      (do
        scope.runMarking (scope.definitions.total + extra) history
        scope.stepMarking (scope.definitions.total + extra) step : Marking Resolution).runFrom
          (Ledger.start memory) = (result, ledger) ∧
      (∀ chain ∈ ledger.entered,
        chain.Nodup ∧ chain.Descending ∧ chain.length ≤ scope.definitions.total) ∧
      match result with
      | .error fault => (scope.run history memory >>= scope.step step) = .error fault
      | .ok r => (scope.run history memory >>= scope.step step) = .ok (r, ledger.memory) ∧
          ledger.marks = fun _ => none) ∧
    ∀ depth outer token r ledger o ledger',
      (scope.resolveMarking (scope.descendMarking depth) outer token r).runFrom ledger =
        (.ok o, ledger') → ledger'.marks = ledger.marks := by
  refine ⟨?_, fun depth outer token r => resolveMarking_restores scope depth outer token r⟩
  have hstart : (Ledger.start memory).InOrder scope [] :=
    ⟨rfl, fun _ hchain => (List.not_mem_nil hchain).elim⟩
  have hends : Ends scope [] (scope.run history memory >>= scope.step step)
      (Marking.runFrom (do
        scope.runMarking (scope.definitions.total + extra) history
        scope.stepMarking (scope.definitions.total + extra) step) (Ledger.start memory)) := by
    have h := (scope.runMarking_mirrors extra history _ hstart).bind
      (y := fun p => scope.step step p.2)
      fun _ ledger₁ h₁ => scope.stepMarking_mirrors extra step ledger₁ h₁
    rwa [bind_assoc] at h
  have horderly : ∀ chain, scope.Orderly chain →
      chain.Nodup ∧ chain.Descending ∧ chain.length ≤ scope.definitions.total :=
    fun chain h => ⟨h.descending.nodup, h.descending, h.length_le_total⟩
  generalize Marking.runFrom _ (Ledger.start memory) = run at hends
  generalize (scope.run history memory >>= scope.step step) = plain at hends
  cases hends with
  | ok ledger inOrder =>
    exact ⟨_, ledger, rfl, fun chain h => horderly chain (inOrder.entered chain h), rfl, inOrder.marks⟩
  | error entered => exact ⟨_, _, rfl, fun chain h => horderly chain (entered chain h), rfl⟩

/--
`A` was given two values, the newer one refers to it and the older one to `B`, which refers back to
`A`.  The second run finds the value of `B` in the memory.
-/
theorem runMarking_orderly_shadowed :
    let scope : Scope := ⟨Definitions.ofList
      [("A".toList, "1%B%".toList), ("a".toList, "2%A%".toList), ("B".toList, "3%A%".toList)],
      .percent, .erase⟩
    let run := Marking.runFrom (do
      scope.runMarking (scope.definitions.total + 0) [.expand "%B%".toList]
      scope.stepMarking (scope.definitions.total + 0) (.expand "%A%".toList)) (Ledger.start .empty)
    let a (index : Nat) : Generation := ⟨['a'], index⟩
    let b : Generation := ⟨['b'], 0⟩
    run.2.entered = [[a 0, a 1], [a 1], [a 0, a 1, b], [a 1, b], [b]] ∧
    (∃ result ledger, run = (result, ledger) ∧
      (∀ chain ∈ ledger.entered,
        chain.Nodup ∧ chain.Descending ∧ chain.length ≤ scope.definitions.total) ∧
      match result with
      | .error fault => (scope.run [.expand "%B%".toList] .empty >>=
          scope.step (.expand "%A%".toList)) = .error fault
      | .ok r => (scope.run [.expand "%B%".toList] .empty >>=
          scope.step (.expand "%A%".toList)) = .ok (r, ledger.memory) ∧
          ledger.marks = fun _ => none) := by
  intro scope run a b
  exact ⟨by decide +kernel, (scope.runMarking_orderly 0 _ _ .empty).1⟩

end Scope

end Unmask.Expansion
