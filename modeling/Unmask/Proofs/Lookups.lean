import Unmask.Expansion.Scope
import Unmask.Proofs.Fragments

/-!
# What an expansion looks at

A reference looks at three things of its scope: what its name stands for under the chain, what the
text that it then enters comes to, and what becomes of unknown names.  Two scopes in which these are
the same for every reference of a template expand it alike, whatever else is different in them.

    mem_of_find            what a name stands for is one of its values
    resolveWith_congr      two references that look at the same
    expandPiecesWith_congr two templates whose references do
-/

namespace Unmask.Expansion.Scope

variable {scope scope' : Scope} {descend descend' : Descent} {chain : Chain}

theorem mem_of_find {name text : Text} {g : Generation} {hit : Bool}
    (h : scope.find chain name = .value g text hit) :
    text ∈ scope.definitions.valuesOf (Definitions.key name) := by
  unfold find at h
  dsimp only at h
  split at h
  · split at h <;> cases h
  · split at h
    · cases h
    · next hvalue =>
      cases h
      exact List.mem_of_getElem? hvalue

theorem find_congr {name : Text}
    (hvalues : scope.definitions.valuesOf (Definitions.key name) =
      scope'.definitions.valuesOf (Definitions.key name)) :
    scope.find chain name = scope'.find chain name := by
  simp only [find, hvalues]

/-- A reference is resolved alike if what its name stands for is expanded alike. -/
theorem resolveWith_congr {r : Reference} (hunknown : scope.unknownNames = scope'.unknownNames)
    (hfind : scope.find chain r.name = scope'.find chain r.name)
    (hdescend : ∀ g text hit memory, scope.find chain r.name = .value g text hit →
      descend (g :: chain) text memory = descend' (g :: chain) text memory)
    (token : Text) (memory : Memory) :
    scope.resolveWith descend chain token r memory =
      scope'.resolveWith descend' chain token r memory := by
  unfold resolveWith
  rw [← hfind]
  cases hvalue : scope.find chain r.name with
  | unknown =>
    unfold missing
    rw [hunknown]
  | exhausted key => rfl
  | value g text hit =>
    dsimp only
    rw [hdescend g text hit memory hvalue]

/-- A template is expanded alike if each of its references is resolved alike. -/
theorem expandPiecesWith_congr {template : Template}
    (hresolve : ∀ r ∈ template.references, ∀ token memory,
      scope.resolveWith descend chain token r memory =
        scope'.resolveWith descend' chain token r memory)
    (budget : Nat) (memory : Memory) :
    scope.expandPiecesWith descend chain budget template memory =
      scope'.expandPiecesWith descend' chain budget template memory := by
  have hpieces : ∀ piece ∈ template, ∀ memory,
      scope.expandPieceWith descend chain piece memory =
        scope'.expandPieceWith descend' chain piece memory := by
    intro piece hpiece memory
    unfold expandPieceWith
    cases hexpr : piece.expr with
    | literal text => rfl
    | reference r =>
      exact hresolve r (Template.mem_references.2 ⟨piece, hpiece, hexpr⟩) piece.token memory
  clear hresolve
  induction template generalizing budget memory with
  | nil => rfl
  | cons piece pieces ih =>
    have hhead := hpieces piece List.mem_cons_self
    have htail := fun budget memory =>
      ih budget memory fun p hp => hpieces p (List.mem_cons_of_mem piece hp)
    rw [expandPiecesWith, expandPiecesWith, hhead]
    simp only [htail]

end Unmask.Expansion.Scope
