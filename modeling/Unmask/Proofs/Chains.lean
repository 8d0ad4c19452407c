import Mathlib.Data.List.Perm.Subperm
import Unmask.Proofs.References

/-!
# Chains of definitions in progress

A chain is orderly if each of its links stands for a value that was given and if the values of one
name follow each other from newer to older.  Entering a definition keeps a chain orderly, and no
orderly chain is longer than the number of definitions: so a depth of that number never cuts an
expansion short.  A chain is well formed if also each link was met in the text of the link before it.

    find_eq_value_iff        what entering a definition means
    Orderly.cons             entering a definition keeps a chain orderly
    Orderly.length_le_total  no chain is longer than the number of definitions
    WellFormed.cons          entering a definition keeps a chain well formed
-/

namespace Unmask.Expansion

/-! ## The definitions of a table -/

def allGenerations (ds : Definitions) : List Generation :=
  ds.histories.flatMap fun h => (List.range h.values.length).map fun i => ⟨h.key, i⟩

theorem length_allGenerations (ds : Definitions) : (allGenerations ds).length = ds.total := by
  unfold allGenerations Definitions.total
  induction ds.histories with
  | nil => rfl
  | cons h hs ih => rw [List.flatMap_cons, List.length_append, ih, List.foldr_cons]; simp

theorem mem_allGenerations {ds : Definitions} {g : Generation}
    (h : g.index < (ds.valuesOf g.key).length) : g ∈ allGenerations ds := by
  unfold Definitions.valuesOf at h
  cases hf : ds.histories.find? (·.key = g.key) with
  | none => rw [hf] at h; cases h
  | some history =>
    rw [hf] at h
    have hkey : history.key = g.key := by simpa using List.find?_some hf
    refine List.mem_flatMap.2 ⟨history, List.mem_of_find?_eq_some hf, ?_⟩
    exact List.mem_map.2 ⟨g.index, List.mem_range.2 h, by rw [hkey]⟩

/-! ## The value in progress -/

namespace Chain

theorem current?_cons_self (g : Generation) (chain : Chain) :
    Chain.current? (g :: chain) g.key = some g.index := by
  simp [current?]

theorem current?_cons_of_ne {g : Generation} {k : Text} (hne : g.key ≠ k) (chain : Chain) :
    Chain.current? (g :: chain) k = Chain.current? chain k := by
  simp [current?, hne]

theorem current?_append_of_forall_ne {above : Chain} {k : Text} (h : ∀ g ∈ above, g.key ≠ k)
    (chain : Chain) : Chain.current? (above ++ chain) k = chain.current? k := by
  induction above with
  | nil => rfl
  | cons g above ih =>
    rw [List.cons_append, current?_cons_of_ne (h g List.mem_cons_self)]
    exact ih fun g' hg' => h g' (List.mem_cons_of_mem _ hg')

theorem current?_eq_none {chain : Chain} {k : Text} :
    chain.current? k = none ↔ ∀ g ∈ chain, g.key ≠ k := by
  simp [current?]

/-- The values of one name follow each other from newer links to older ones. -/
def Descending (chain : Chain) : Prop :=
  chain.Pairwise fun newer older => newer.key = older.key → newer.index < older.index

theorem Descending.nodup {chain : Chain} (h : chain.Descending) : chain.Nodup :=
  List.Pairwise.imp (fun hlt he => by
    subst he
    exact absurd (hlt rfl) (Nat.lt_irrefl _)) h

/-- The value in progress is the oldest of its name that was entered. -/
theorem Descending.current?_le {chain : Chain} (h : chain.Descending) {k : Text} {i : Nat}
    (hc : chain.current? k = some i) {g : Generation} (hg : g ∈ chain) (hk : g.key = k) :
    i ≤ g.index := by
  induction chain with
  | nil => cases hg
  | cons head rest ih =>
    obtain ⟨hhead, hrest⟩ := List.pairwise_cons.1 h
    by_cases he : head.key = k
    · subst he
      rw [current?_cons_self, Option.some.injEq] at hc
      rcases List.mem_cons.1 hg with rfl | hin
      · omega
      · have := hhead g hin hk.symm
        omega
    · rw [current?_cons_of_ne he] at hc
      rcases List.mem_cons.1 hg with rfl | hin
      · exact absurd hk he
      · exact ih hrest hc hin

end Chain

/-! ## Looking a name up -/

namespace Scope

variable {scope : Scope} {chain : Chain} {name : Text}

theorem find_undefined (hc : chain.current? (Definitions.key name) = none)
    (hv : scope.definitions.valuesOf (Definitions.key name) = []) :
    scope.find chain name = .unknown := by
  simp only [find, hc, hv, List.length_nil, Bool.false_eq_true, if_false]

theorem find_newest {n : Nat} {text : Text} (hc : chain.current? (Definitions.key name) = none)
    (hn : (scope.definitions.valuesOf (Definitions.key name)).length = n + 1)
    (ht : (scope.definitions.valuesOf (Definitions.key name))[n]? = some text) :
    scope.find chain name = .value ⟨Definitions.key name, n⟩ text false := by
  simp only [find, hc, hn, ht]

theorem find_exhausted (hc : chain.current? (Definitions.key name) = some 0) :
    scope.find chain name = .exhausted (Definitions.key name) := by
  simp only [find, hc, if_true]

theorem find_older {i : Nat} {text : Text} (hc : chain.current? (Definitions.key name) = some (i + 1))
    (ht : (scope.definitions.valuesOf (Definitions.key name))[i]? = some text) :
    scope.find chain name = .value ⟨Definitions.key name, i⟩ text true := by
  simp only [find, hc, ht]

/--
What is entered is told by the readers of the table: the newest generation of the name, or the one
before the generation in progress.
-/
theorem find_eq_value_iff {g : Generation} {text : Text} {hit : Bool} :
    scope.find chain name = .value g text hit ↔
      g.key = Definitions.key name ∧ scope.definitions.definition? name g.index = some text ∧
        chain.current? g.key = (if hit then some (g.index + 1) else none) ∧
        (hit = false → scope.definitions.generations name = g.index + 1) := by
  constructor
  · intro h
    cases hc : chain.current? (Definitions.key name) with
    | none =>
      cases hn : (scope.definitions.valuesOf (Definitions.key name)).length with
      | zero => simp [find, hc, hn] at h
      | succ n =>
        simp only [find, hc, hn] at h
        split at h
        · cases h
        · next ht =>
          cases h
          exact ⟨rfl, ht, hc, fun _ => hn⟩
    | some i =>
      cases i with
      | zero => simp [find, hc] at h
      | succ i =>
        simp only [find, hc] at h
        split at h
        · cases h
        · next ht =>
          cases h
          exact ⟨rfl, ht, hc, fun hhit => absurd hhit (by decide)⟩
  · rintro ⟨hkey, htext, hcurrent, hnewest⟩
    obtain ⟨key, index⟩ := g
    obtain rfl : key = Definitions.key name := hkey
    cases hit with
    | false => exact find_newest hcurrent (hnewest rfl) htext
    | true => exact find_older hcurrent htext

theorem find_eq_value {g : Generation} {text : Text} {hit : Bool}
    (h : scope.find chain name = .value g text hit) :
    g.key = Definitions.key name ∧ (scope.definitions.valuesOf g.key)[g.index]? = some text ∧
      chain.current? g.key = (if hit then some (g.index + 1) else none) := by
  obtain ⟨hkey, htext, hcurrent, -⟩ := find_eq_value_iff.1 h
  refine ⟨hkey, ?_, hcurrent⟩
  rw [hkey]
  exact htext

end Scope

/-! ## Orderly chains -/

namespace Scope

/-- What the definitions that are entered one inside the other have in common. -/
structure Orderly (scope : Scope) (chain : Chain) : Prop where
  /-- Each link stands for a value that was given. -/
  defined : ∀ g ∈ chain, g.index < (scope.definitions.valuesOf g.key).length
  /-- The values of one name follow each other from newer to older. -/
  descending : chain.Descending

theorem orderly_nil (scope : Scope) : scope.Orderly [] :=
  ⟨fun _ h => (List.not_mem_nil h).elim, List.Pairwise.nil⟩

theorem Orderly.cons {scope : Scope} {chain : Chain} (h : scope.Orderly chain) {name text : Text}
    {g : Generation} {hit : Bool} (hf : scope.find chain name = .value g text hit) :
    scope.Orderly (g :: chain) := by
  obtain ⟨-, htext, hcurrent⟩ := find_eq_value hf
  refine ⟨fun x hx => ?_, List.pairwise_cons.2 ⟨fun x hx hk => ?_, h.descending⟩⟩
  · rcases List.mem_cons.1 hx with rfl | hin
    · exact (List.getElem?_eq_some_iff.1 htext).1
    · exact h.defined x hin
  · cases hit with
    | false => exact absurd hk.symm (Chain.current?_eq_none.1 hcurrent x hx)
    | true =>
      have := h.descending.current?_le hcurrent hx hk.symm
      omega

theorem Orderly.length_le_total {scope : Scope} {chain : Chain} (h : scope.Orderly chain) :
    chain.length ≤ scope.definitions.total := by
  rw [← length_allGenerations]
  exact (h.descending.nodup.subperm fun g hg => mem_allGenerations (h.defined g hg)).length_le

end Scope

/-! ## Well-formed chains -/

namespace Scope

/-- What the chains of an expansion have in common. -/
structure WellFormed (scope : Scope) (chain : Chain) : Prop where
  /-- Each link stands for a value that was given. -/
  defined : ∀ g ∈ chain, g.index < (scope.definitions.valuesOf g.key).length
  /-- The values of one name follow each other from newer to older. -/
  descending : chain.Descending
  /-- Each link was met in a value of the link before it. -/
  linked : chain.IsChain fun newer older => scope.RefersTo older.key newer.key

theorem wellFormed_nil (scope : Scope) : scope.WellFormed [] :=
  ⟨fun _ h => (List.not_mem_nil h).elim, List.Pairwise.nil, List.isChain_nil⟩

theorem WellFormed.orderly {scope : Scope} {chain : Chain} (h : scope.WellFormed chain) :
    scope.Orderly chain :=
  ⟨h.defined, h.descending⟩

theorem WellFormed.cons {scope : Scope} {chain : Chain} (h : scope.WellFormed chain) {name text : Text}
    {g : Generation} {hit : Bool} (hf : scope.find chain name = .value g text hit)
    (hlink : ∀ older ∈ chain.head?, scope.RefersTo older.key g.key) : scope.WellFormed (g :: chain) := by
  obtain ⟨hdefined, hdescending⟩ := h.orderly.cons hf
  exact ⟨hdefined, hdescending, List.isChain_cons.2 ⟨fun x hx => hlink x hx, h.linked⟩⟩

theorem WellFormed.length_le_total {scope : Scope} {chain : Chain} (h : scope.WellFormed chain) :
    chain.length ≤ scope.definitions.total :=
  h.orderly.length_le_total

/-- Every link further up a chain reaches the link at its head. -/
theorem WellFormed.reaches_head {scope : Scope} {g : Generation} {chain : Chain}
    (h : scope.WellFormed (g :: chain)) {older : Generation} (hmem : older ∈ chain) :
    scope.Reaches older.key g.key := by
  have hlinked := h.linked
  clear h
  induction chain generalizing g with
  | nil => cases hmem
  | cons next rest ih =>
    obtain ⟨hfirst, hrest⟩ := List.isChain_cons_cons.1 hlinked
    rcases List.mem_cons.1 hmem with rfl | hin
    · exact .single hfirst
    · exact (ih hin hrest).tail hfirst

/-- Without mutual recursion, another name that is met is not in progress. -/
theorem WellFormed.current?_of_refersTo {scope : Scope} (hrec : ¬ scope.MutuallyRecursive)
    {g : Generation} {chain : Chain} (h : scope.WellFormed (g :: chain)) {k : Text}
    (href : scope.RefersTo g.key k) (hne : k ≠ g.key) : Chain.current? (g :: chain) k = none := by
  refine Chain.current?_eq_none.2 fun x hx hk => ?_
  subst hk
  rcases List.mem_cons.1 hx with rfl | hin
  · exact hne rfl
  · exact hrec ⟨x.key, g.key, hne, h.reaches_head hin, .single href⟩

end Scope

end Unmask.Expansion
