import Mathlib.Data.List.Chain
import Mathlib.Data.List.Nodup
import Mathlib.Logic.Relation
import Unmask.Expansion.Scope
import Unmask.Proofs.Fragments
import Unmask.Proofs.Histories

/-!
# References between names

A name refers to another if one of the values it was given holds a reference to it; names are
compared by their keys.  A table is mutually recursive if two distinct names reach each other.  A
name that refers to itself alone is not: its older values are what it stands for there.

    a table that is mutually recursive has a simple cycle    (MutuallyRecursive.exists_cycle)
-/

namespace Unmask

namespace Expansion.Scope

/-- A value of the first key holds a reference to a name with the second key. -/
def RefersTo (scope : Scope) (a b : Text) : Prop :=
  ∃ text ∈ scope.definitions.valuesOf a, ∃ template, Template.read scope.dialect text = .ok template ∧
    ∃ r ∈ template.references, Definitions.key r.name = b

/-- One or more references lead from the first key to the second. -/
def Reaches (scope : Scope) (a b : Text) : Prop :=
  Relation.TransGen scope.RefersTo a b

/-- Two distinct keys reach each other. -/
def MutuallyRecursive (scope : Scope) : Prop :=
  ∃ a b, a ≠ b ∧ scope.Reaches a b ∧ scope.Reaches b a

theorem MutuallyRecursive.mono {scope scope' : Scope}
    (hsub : ∀ a b, scope.RefersTo a b → scope'.RefersTo a b) (h : scope.MutuallyRecursive) :
    scope'.MutuallyRecursive := by
  obtain ⟨a, b, hne, hab, hba⟩ := h
  exact ⟨a, b, hne, Relation.TransGen.mono hsub _ _ hab, Relation.TransGen.mono hsub _ _ hba⟩

/-- A rank that every reference to another name lowers rules mutual recursion out. -/
theorem not_mutuallyRecursive_of_rank {scope : Scope} (rank : Text → Nat)
    (hrank : ∀ a b, scope.RefersTo a b → a = b ∨ rank b < rank a) : ¬ scope.MutuallyRecursive := by
  have hreach : ∀ a b, scope.Reaches a b → a = b ∨ rank b < rank a := by
    intro a b h
    induction h with
    | single h => exact hrank _ _ h
    | tail _ h ih =>
      rcases ih with rfl | hlt
      · exact hrank _ _ h
      · rcases hrank _ _ h with rfl | hlt'
        · exact Or.inr hlt
        · exact Or.inr (by omega)
  rintro ⟨a, b, hne, hab, hba⟩
  have h1 := (hreach a b hab).resolve_left hne
  have h2 := (hreach b a hba).resolve_left (Ne.symm hne)
  omega

/-- Whether each reference in the values of a list leads to the same name or lowers the rank. -/
def lowersRank (d : Dialect) (rank : Text → Nat) (pairs : List (Text × Text)) : Bool :=
  pairs.all fun pair =>
    match Template.read d pair.2 with
    | .error _ => true
    | .ok template => template.references.all fun r =>
      Definitions.key pair.1 == Definitions.key r.name ||
        decide (rank (Definitions.key r.name) < rank (Definitions.key pair.1))

theorem not_mutuallyRecursive_ofList {d : Dialect} {unknownNames : UnknownNames}
    (rank : Text → Nat) {pairs : List (Text × Text)} (h : lowersRank d rank pairs = true) :
    ¬ MutuallyRecursive ⟨Definitions.ofList pairs, d, unknownNames⟩ := by
  refine not_mutuallyRecursive_of_rank rank fun a b hab => ?_
  obtain ⟨text, htext, template, hread, r, hr, rfl⟩ := hab
  obtain ⟨pair, hpair, rfl, rfl⟩ := Definitions.mem_of_mem_valuesOf_ofList htext
  have hp := List.all_eq_true.1 h pair hpair
  dsimp only at hread
  rw [hread] at hp
  simpa using List.all_eq_true.1 hp r hr

end Expansion.Scope

/-! ## Simple cycles -/

/-- A path can be cut short until it meets no point twice. -/
theorem exists_nodup_path {α : Type} {r : α → α → Prop} {a z : α}
    (h : Relation.ReflTransGen r a z) :
    ∃ l : List α, l.head? = some a ∧ l.getLast? = some z ∧ l.Nodup ∧ l.IsChain r := by
  induction h using Relation.ReflTransGen.head_induction_on with
  | refl => exact ⟨[z], rfl, rfl, List.nodup_singleton z, List.isChain_singleton z⟩
  | @head a b hab _ ih =>
    obtain ⟨l, hhead, hlast, hnodup, hchain⟩ := ih
    by_cases ha : a ∈ l
    · -- the path comes back to its start: keep what follows
      obtain ⟨before, after, rfl⟩ := List.append_of_mem ha
      refine ⟨a :: after, rfl, ?_, hnodup.of_append_right, hchain.right_of_append⟩
      rw [List.getLast?_append] at hlast
      simpa [List.getLast?_cons] using hlast
    · refine ⟨a :: l, rfl, ?_, List.nodup_cons.2 ⟨ha, hnodup⟩, ?_⟩
      · rw [List.getLast?_cons, hlast]
        rfl
      · exact List.isChain_cons.2 ⟨fun y hy => by
          rw [hhead, Option.mem_some_iff] at hy
          exact hy ▸ hab, hchain⟩

theorem exists_nodup_path_between {α : Type} {r : α → α → Prop} {a z : α} (hne : a ≠ z)
    (h : Relation.ReflTransGen r a z) :
    ∃ mid : List α, (a :: (mid ++ [z])).Nodup ∧ (a :: (mid ++ [z])).IsChain r := by
  obtain ⟨l, hhead, hlast, hnodup, hchain⟩ := exists_nodup_path h
  cases l with
  | nil => cases hhead
  | cons x rest =>
    obtain rfl : x = a := Option.some.inj hhead
    rcases List.eq_nil_or_concat rest with rfl | ⟨mid, y, rfl⟩
    · exact absurd (Option.some.inj hlast) hne
    · rw [List.concat_eq_append, ← List.cons_append, List.getLast?_append] at hlast
      obtain rfl : y = z := by simpa using hlast
      rw [List.concat_eq_append] at hnodup hchain
      exact ⟨mid, hnodup, hchain⟩

namespace Expansion.Scope

/-- Mutual recursion runs through a cycle of distinct keys, of which there are at least two. -/
theorem MutuallyRecursive.exists_cycle {scope : Scope} (h : scope.MutuallyRecursive) :
    ∃ a mid z, (a :: (mid ++ [z])).Nodup ∧ (a :: (mid ++ [z])).IsChain scope.RefersTo ∧
      scope.RefersTo z a := by
  obtain ⟨z, b, hne, hzb, hbz⟩ := h
  -- the first step that leaves `z` leads to a key that reaches `z`
  have hstep : ∃ a, a ≠ z ∧ scope.RefersTo z a ∧ Relation.ReflTransGen scope.RefersTo a z := by
    have key : ∀ x, scope.Reaches x b → x = z →
        ∃ a, a ≠ z ∧ scope.RefersTo z a ∧ Relation.ReflTransGen scope.RefersTo a z := by
      intro x hx
      induction hx using Relation.TransGen.head_induction_on with
      | single h =>
        rintro rfl
        exact ⟨b, Ne.symm hne, h, hbz.to_reflTransGen⟩
      | @head x c hxc hcb ih =>
        rintro rfl
        by_cases hc : c = x
        · exact ih hc
        · exact ⟨c, hc, hxc, (hcb.trans hbz).to_reflTransGen⟩
    exact key z hzb rfl
  obtain ⟨a, hna, hza, haz⟩ := hstep
  obtain ⟨mid, hnodup, hchain⟩ := exists_nodup_path_between hna haz
  exact ⟨a, mid, z, hnodup, hchain, hza⟩

end Expansion.Scope

end Unmask
