import Unmask.Proofs.Chains
import Unmask.Proofs.Fragments
import Unmask.Proofs.Histories

/-!
# Cycles of names

A table in which each name of a list stands for the next one and the last one for a given text, and
what its expansion does: it walks down the list and comes back with what the last text gives.

    descend_walk    the walk gives what the last text gives, and keeps nothing in the memory
-/

namespace Unmask.Expansion

open Template (read)
open Template.Fragment (Named)

namespace Scope

/-! ## Single references -/

section Single

variable {scope : Scope} {descend : Descent} {chain : Chain} {token name : Text}
  {memory memory' : Memory} {o : Outcome} {budget : Nat}

theorem resolveWith_exhausted (hc : chain.current? (Definitions.key name) = some 0) :
    scope.resolveWith descend chain token ⟨name, .whole⟩ memory =
      .ok (⟨⟨[], true⟩, [Definitions.key name]⟩, memory.report (.cyclicReference name)) := by
  unfold resolveWith
  rw [find_exhausted hc]
  rfl

theorem resolveWith_known {g : Generation} {text : Text} {r : Resolution}
    (hf : scope.find chain name = .value g text false) (hk : memory.known? g = some r) :
    scope.resolveWith descend chain token ⟨name, .whole⟩ memory = .ok (⟨r, []⟩, memory) := by
  unfold resolveWith
  rw [hf]
  simp only [hk]
  rfl

theorem resolveWith_enter {g : Generation} {text : Text} (token : Text) (memory : Memory)
    (hf : scope.find chain name = .value g text false) (hk : memory.known? g = none)
    (hd : descend (g :: chain) text memory = .ok (o, memory')) :
    scope.resolveWith descend chain token ⟨name, .whole⟩ memory =
      .ok (o, if o.hits.all fun key => key = g.key || (chain.current? key).isNone then
        memory'.keep g o.resolution else memory') := by
  unfold resolveWith
  rw [hf]
  simp only [hk, hd]
  rfl

theorem append_literal_nil (o : Outcome) : o.append (.literal []) = o := by
  obtain ⟨⟨value, cyclic⟩, hits⟩ := o
  simp [Outcome.append, Outcome.literal]

/-- A piece that fits stands in front of what the other pieces give. -/
theorem expandPiecesWith_cons {piece : Piece} {pieces : Template} {head tail : Outcome}
    {memory'' : Memory}
    (hhead : scope.expandPieceWith descend chain piece memory = .ok (head, memory'))
    (hsize : Text.byteLength head.resolution.value ≤ budget)
    (htail : scope.expandPiecesWith descend chain
      (budget - Text.byteLength head.resolution.value) pieces memory' = .ok (tail, memory'')) :
    scope.expandPiecesWith descend chain budget (piece :: pieces) memory =
      .ok (head.append tail, memory'') := by
  simp only [expandPiecesWith, hhead, bind, Except.bind]
  rw [if_neg (Nat.not_lt.2 hsize), htail]
  rfl

theorem expandPiecesWith_reference
    (hres : scope.resolveWith descend chain token ⟨name, .whole⟩ memory = .ok (o, memory'))
    (hsize : Text.byteLength o.resolution.value ≤ budget) :
    scope.expandPiecesWith descend chain budget [⟨token, .reference ⟨name, .whole⟩⟩] memory =
      .ok (o, memory') := by
  have hhead : scope.expandPieceWith descend chain ⟨token, .reference ⟨name, .whole⟩⟩ memory =
      .ok (o, memory') := hres
  rw [expandPiecesWith_cons hhead hsize rfl, append_literal_nil]

/-- A letter in front of it stays in front. -/
theorem expandPiecesWith_letter
    (hres : scope.resolveWith descend chain token ⟨name, .whole⟩ memory = .ok (o, memory'))
    (hsize : Text.byteLength o.resolution.value + 1 ≤ budget) :
    scope.expandPiecesWith descend chain budget
        [⟨['x'], .literal ['x']⟩, ⟨token, .reference ⟨name, .whole⟩⟩] memory =
      .ok (⟨⟨'x' :: o.resolution.value, o.resolution.cyclic⟩, o.hits⟩, memory') := by
  have hx : Text.byteLength ['x'] = 1 := by decide
  have hrest : scope.expandPiecesWith descend chain (budget - Text.byteLength ['x'])
      [⟨token, .reference ⟨name, .whole⟩⟩] memory = .ok (o, memory') :=
    expandPiecesWith_reference hres (by omega)
  rw [expandPiecesWith_cons rfl (show Text.byteLength ['x'] ≤ budget by omega) hrest]
  simp [Outcome.append, Outcome.literal]

end Single

end Scope

/-! ## Lists of names -/

/-- A name between the marks that it can stand between. -/
structure Link (d : Dialect) where
  mark : Char
  name : Text
  named : Named d mark name

namespace Link

variable {d : Dialect}

def token (l : Link d) : Text :=
  l.mark :: l.name ++ [l.mark]

def key (l : Link d) : Text :=
  Definitions.key l.name

def generation (l : Link d) : Generation :=
  ⟨l.key, 0⟩

def entry : List (Link d) → (last : Text) → Text
  | [], last => last
  | l :: _, _ => l.token

/-- What the names of a list are given: each the site of the next one, and the last one `last`. -/
def pairs : List (Link d) → (last : Text) → List (Text × Text)
  | [], _ => []
  | l :: ls, last => (l.name, entry ls last) :: pairs ls last

/-- In a table, each name of a list has the site of the next one for its only value. -/
def Chained (ds : Definitions) : List (Link d) → (last : Text) → Prop
  | [], _ => True
  | l :: ls, last => ds.valuesOf l.key = [entry ls last] ∧ Chained ds ls last

theorem entry_concat (ls : List (Link d)) (l : Link d) (last : Text) :
    entry (ls ++ [l]) last = entry ls l.token := by
  cases ls <;> rfl

theorem Chained.of_concat {ds : Definitions} {ls : List (Link d)} {l : Link d} {last : Text}
    (h : Chained ds (ls ++ [l]) last) : Chained ds ls l.token := by
  induction ls with
  | nil => exact trivial
  | cons l' ls ih =>
    obtain ⟨hvalues, hrest⟩ := h
    refine ⟨?_, ih hrest⟩
    rw [← entry_concat ls l last]
    exact hvalues

theorem Chained.last {ds : Definitions} {ls : List (Link d)} {l : Link d} {last : Text}
    (h : Chained ds (ls ++ [l]) last) : ds.valuesOf l.key = [last] := by
  induction ls with
  | nil => exact h.1
  | cons l' ls ih => exact ih h.2

theorem length_pairs (ls : List (Link d)) (last : Text) : (pairs ls last).length = ls.length := by
  induction ls with
  | nil => rfl
  | cons l ls ih => rw [pairs, List.length_cons, ih, List.length_cons]

theorem map_key_pairs (ls : List (Link d)) (last : Text) :
    (pairs ls last).map (fun pair => Definitions.key pair.1) = ls.map key := by
  induction ls with
  | nil => rfl
  | cons l ls ih => rw [pairs, List.map_cons, ih, List.map_cons, key]

/-- A table of the pairs of a list, no two of whose names have one key, chains the list. -/
theorem chained_ofList {ls : List (Link d)} (hnodup : (ls.map key).Nodup) (last : Text) :
    Chained (.ofList (pairs ls last)) ls last := by
  have hpairs : ∀ pair ∈ pairs ls last,
      (Definitions.ofList (pairs ls last)).valuesOf (Definitions.key pair.1) = [pair.2] :=
    fun pair hp => Definitions.valuesOf_ofList_of_mem (by rwa [map_key_pairs]) hp
  clear hnodup
  generalize Definitions.ofList (pairs ls last) = ds at hpairs
  induction ls with
  | nil => exact trivial
  | cons l ls ih =>
    exact ⟨hpairs (l.name, entry ls last) List.mem_cons_self,
      ih fun pair hp => hpairs pair (List.mem_cons_of_mem _ hp)⟩

end Link

/-! ## Walks -/

theorem Chain.current?_generation {d : Dialect} (l : Link d) (chain : Chain) :
    Chain.current? (l.generation :: chain) l.key = some 0 :=
  Chain.current?_cons_self l.generation chain

/-- Names that are entered later do not hide one that is in progress. -/
theorem Chain.current?_walk {d : Dialect} {ls : List (Link d)} {k : Text}
    (hnew : k ∉ ls.map Link.key) (chain : Chain) :
    Chain.current? ((ls.map Link.generation).reverse ++ chain) k = chain.current? k := by
  refine Chain.current?_append_of_forall_ne (fun g hg => ?_) chain
  obtain ⟨l, hl, rfl⟩ := List.mem_map.1 (List.mem_reverse.1 hg)
  exact fun e => hnew (List.mem_map.2 ⟨l, hl, e⟩)

namespace Scope

variable {ds : Definitions} {d : Dialect} {unknownNames : UnknownNames} {chain : Chain}

theorem find_only {l : Link d} {text : Text} (unknownNames : UnknownNames) (hvalues : ds.valuesOf l.key = [text])
    (hc : chain.current? l.key = none) :
    find ⟨ds, d, unknownNames⟩ chain l.name = .value l.generation text false := by
  have hn : (ds.valuesOf (Definitions.key l.name)).length = 0 + 1 := congrArg List.length hvalues
  have ht : (ds.valuesOf (Definitions.key l.name))[0]? = some text := by
    rw [show ds.valuesOf (Definitions.key l.name) = [text] from hvalues]
    rfl
  exact find_newest hc hn ht

/--
The expansion of a name walks down the list and comes back with what the last text gives.  Since
that met a name of the chain above, none of the names on the way is kept in the memory.
-/
theorem descend_walk {ls : List (Link d)} {last target value : Text} {cyclic : Bool} {depth : Nat}
    {memory memory' : Memory} (hchained : Link.Chained ds ls last) (hnodup : (ls.map Link.key).Nodup)
    (hfresh : ∀ l ∈ ls, chain.current? l.key = none)
    (hunknown : ∀ l ∈ ls, memory.known? l.generation = none)
    (htarget : chain.current? target ≠ none)
    (hlast : descend ⟨ds, d, unknownNames⟩ depth ((ls.map Link.generation).reverse ++ chain) last memory =
      .ok (⟨⟨value, cyclic⟩, [target]⟩, memory'))
    (hsize : Text.byteLength value ≤ limit) :
    descend ⟨ds, d, unknownNames⟩ (depth + ls.length) chain (Link.entry ls last) memory =
      .ok (⟨⟨value, cyclic⟩, [target]⟩, memory') := by
  induction ls generalizing chain with
  | nil => exact hlast
  | cons l ls ih =>
    obtain ⟨hvalues, hrest⟩ := hchained
    rw [List.map_cons, List.nodup_cons] at hnodup
    have hne : target ≠ l.key := by
      rintro rfl
      exact htarget (hfresh l List.mem_cons_self)
    have hinner : descend ⟨ds, d, unknownNames⟩ (depth + ls.length) (l.generation :: chain)
        (Link.entry ls last) memory = .ok (⟨⟨value, cyclic⟩, [target]⟩, memory') := by
      refine ih hrest hnodup.2 (fun l' hl' => ?_) (fun l' hl' => hunknown l' (List.mem_cons_of_mem _ hl'))
        ?_ ?_
      · have hkey : l.key ≠ l'.key := fun e => hnodup.1 (List.mem_map.2 ⟨l', hl', e.symm⟩)
        rw [Chain.current?_cons_of_ne (g := l.generation) hkey]
        exact hfresh l' (List.mem_cons_of_mem _ hl')
      · rw [Chain.current?_cons_of_ne (g := l.generation) (Ne.symm hne)]
        exact htarget
      · simpa using hlast
    have hres := resolveWith_enter l.token memory
      (find_only unknownNames hvalues (hfresh l List.mem_cons_self))
      (hunknown l List.mem_cons_self) hinner
    have hdep : (([target] : List Text).all fun key =>
        key = l.generation.key || (chain.current? key).isNone) = false := by
      simpa using ⟨hne, Option.isSome_iff_ne_none.2 htarget⟩
    rw [if_neg (by simp [hdep])] at hres
    rw [List.length_cons, ← Nat.add_assoc, descend]
    simp only [Link.entry, Link.token, Template.read_bare l.named, bind, Except.bind]
    exact expandPiecesWith_reference hres hsize

/-- The site of a name whose only value is in progress is a cycle. -/
theorem descend_back {l : Link d} {depth : Nat} {memory : Memory}
    (hc : chain.current? l.key = some 0) :
    descend ⟨ds, d, unknownNames⟩ (depth + 1) chain l.token memory =
      .ok (⟨⟨[], true⟩, [l.key]⟩, memory.report (.cyclicReference l.name)) := by
  rw [descend]
  simp only [Link.token, Template.read_bare l.named, bind, Except.bind]
  exact expandPiecesWith_reference (resolveWith_exhausted hc) (Nat.zero_le _)

/-- A letter in front of it is all that is left. -/
theorem descend_letter_back {l : Link d} {depth : Nat} {memory : Memory}
    (hc : chain.current? l.key = some 0) :
    descend ⟨ds, d, unknownNames⟩ (depth + 1) chain ('x' :: l.token) memory =
      .ok (⟨⟨['x'], true⟩, [l.key]⟩, memory.report (.cyclicReference l.name)) := by
  rw [descend]
  simp only [Link.token, ← List.cons_append, Template.read_letter_bare l.named, bind, Except.bind]
  exact expandPiecesWith_letter (resolveWith_exhausted hc) (Nat.le_add_left 1 8190)

end Scope

end Unmask.Expansion
