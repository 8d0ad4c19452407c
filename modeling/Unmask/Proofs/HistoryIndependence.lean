import Unmask.Proofs.LazyResolution
import Unmask.Proofs.NameCycles

/-!
# What was asked before

A value is kept in the memory if it met no name of the chain above it, and it is used again below
any chain.  That is safe as long as no names are mutually recursive.  Where two are, a value may be
kept that was cut short at a name which is not in progress the next time.

So it depends on the references of a table alone whether the memory is safe: it is for every table
with no references but these exactly if they hold no mutual recursion.

## Algorithm

A cycle of names is turned into a table: each name stands for the next one, and the last for `x`
and the first.  Asked for the first name, the expansion keeps `x` as its value; asked for the last
name then, it gives `xx`, which is `x` if it is asked for the last name only.
-/

namespace Unmask.Expansion

open Template (read)
open Template.Fragment (Named)

namespace Scope

/-- A text is expanded to one value, whatever was asked of the scope before. -/
def HistoryIndependent (scope : Scope) : Prop :=
  ∀ steps memory, scope.run steps .empty = .ok memory →
    ∀ text, (scope.expand text memory).map Prod.fst = (scope.expand text .empty).map Prod.fst

theorem historyIndependent_of_not_mutuallyRecursive {scope : Scope}
    (hrec : ¬ scope.MutuallyRecursive) : scope.HistoryIndependent := by
  intro steps memory hrun text
  obtain ⟨val, denotes⟩ := exists_denotes hrec
  rw [expand_fst denotes hrec text (run_sound denotes hrec (sound_empty val) hrun),
    expand_fst denotes hrec text (sound_empty val)]

/-! ## A cycle whose values depend on the history -/

section Ring

variable {d : Dialect} {unknownNames : UnknownNames} {first final : Link d} {mid : List (Link d)}

/-- Outside of any definition a site expands to what its name is resolved to. -/
theorem expand_token {ds : Definitions} {l : Link d} {memory memory' : Memory} {o : Outcome}
    (hres : resolveWith (descend ⟨ds, d, unknownNames⟩ ds.total) ⟨ds, d, unknownNames⟩ [] l.token
      ⟨l.name, .whole⟩ memory = .ok (o, memory')) (hsize : Text.byteLength o.resolution.value ≤ limit) :
    expand ⟨ds, d, unknownNames⟩ l.token memory = .ok (o.resolution, memory') := by
  have hpieces := expandPiecesWith_reference hres hsize
  have hread : Template.read d l.token = .ok [⟨l.token, .reference ⟨l.name, .whole⟩⟩] :=
    Template.read_bare l.named
  unfold expand expandTemplate
  simp only [hread, bind, Except.bind, hpieces]
  rfl

/-- Each name stands for the next one, and the last for `x` and the first. -/
def ring (first final : Link d) (mid : List (Link d)) : Definitions :=
  .ofList (Link.pairs (first :: (mid ++ [final])) ('x' :: first.token))

theorem total_ring : (ring first final mid).total = 1 + (mid ++ [final]).length := by
  unfold ring
  rw [Definitions.total_ofList, Link.length_pairs, List.length_cons, Nat.add_comm]

theorem chained_ring (hnodup : ((first :: (mid ++ [final])).map Link.key).Nodup) :
    Link.Chained (ring first final mid) (first :: (mid ++ [final])) ('x' :: first.token) :=
  Link.chained_ofList hnodup _

/-- Asked for the first name, the expansion keeps `x` as its value. -/
theorem run_ring_first (hnodup : ((first :: (mid ++ [final])).map Link.key).Nodup) :
    run ⟨ring first final mid, d, unknownNames⟩ [.expand first.token] .empty =
      .ok ⟨[(first.generation, ⟨['x'], true⟩)], [.cyclicReference first.name]⟩ := by
  obtain ⟨hvalues, hrest⟩ := chained_ring hnodup
  rw [List.map_cons, List.nodup_cons] at hnodup
  have hwalk : descend ⟨ring first final mid, d, unknownNames⟩ (1 + (mid ++ [final]).length)
      [first.generation] (Link.entry (mid ++ [final]) ('x' :: first.token)) .empty =
        .ok (⟨⟨['x'], true⟩, [first.key]⟩, Memory.report (.cyclicReference first.name) .empty) :=
    descend_walk hrest hnodup.2
    (fun l hl => by
      rw [Chain.current?_cons_of_ne (g := first.generation)
        fun e => hnodup.1 (List.mem_map.2 ⟨l, hl, e.symm⟩)]
      rfl)
    (fun _ _ => rfl)
    (by
      rw [Chain.current?_generation]
      exact Option.some_ne_none _)
    (descend_letter_back (by
      rw [Chain.current?_walk hnodup.1]
      exact Chain.current?_generation first []))
    (by decide)
  have hres := resolveWith_enter first.token .empty
    (find_only unknownNames hvalues (show Chain.current? [] first.key = none from rfl)) rfl hwalk
  rw [if_pos (by simp [Link.generation]), ← total_ring] at hres
  have hexp := expand_token hres (by change Text.byteLength ['x'] ≤ limit; decide)
  simp only [run, step, hexp]
  rfl

/-- The last name gives `x` and what the first name gives under it. -/
theorem expand_ring_final (hnodup : ((first :: (mid ++ [final])).map Link.key).Nodup)
    {memory memory' : Memory} {value : Text} {cyclic : Bool} {hits : List Text}
    (hunknown : memory.known? final.generation = none)
    (hfirst : resolveWith (descend ⟨ring first final mid, d, unknownNames⟩ (1 + mid.length))
      ⟨ring first final mid, d, unknownNames⟩ [final.generation] first.token ⟨first.name, .whole⟩
      memory = .ok (⟨⟨value, cyclic⟩, hits⟩, memory'))
    (hsize : Text.byteLength value + 1 ≤ limit) :
    (expand ⟨ring first final mid, d, unknownNames⟩ final.token memory).map Prod.fst =
      .ok ⟨'x' :: value, cyclic⟩ := by
  have hchained : Link.Chained (ring first final mid) ((first :: mid) ++ [final])
      ('x' :: first.token) := chained_ring hnodup
  have hvalues := hchained.last
  have hinner : descend ⟨ring first final mid, d, unknownNames⟩ (ring first final mid).total
      [final.generation] ('x' :: first.token) memory =
        .ok (⟨⟨'x' :: value, cyclic⟩, hits⟩, memory') := by
    have hread : Template.read d ('x' :: first.token) =
        .ok [⟨['x'], .literal ['x']⟩, ⟨first.token, .reference ⟨first.name, .whole⟩⟩] :=
      Template.read_letter_bare first.named
    rw [total_ring, List.length_append, List.length_singleton, ← Nat.add_assoc, descend]
    simp only [hread, bind, Except.bind]
    exact expandPiecesWith_letter hfirst hsize
  have hres := resolveWith_enter final.token memory
    (find_only unknownNames hvalues (show Chain.current? [] final.key = none from rfl)) hunknown hinner
  have hx : Text.byteLength ('x' :: value) ≤ limit := by
    rw [Text.byteLength]
    have : Char.utf8Size 'x' = 1 := by decide
    omega
  rw [expand_token hres hx]
  rfl

/-- Asked for the last name alone, the expansion gives `x`. -/
theorem expand_ring_alone (hnodup : ((first :: (mid ++ [final])).map Link.key).Nodup) :
    (expand ⟨ring first final mid, d, unknownNames⟩ final.token .empty).map Prod.fst =
      .ok ⟨['x'], true⟩ := by
  have hchained : Link.Chained (ring first final mid) ((first :: mid) ++ [final])
      ('x' :: first.token) := chained_ring hnodup
  obtain ⟨hvalues, hrest⟩ := hchained.of_concat
  -- the keys of the walk are new under the chain of the last name and the first
  have hnodup' := hnodup
  rw [← List.cons_append, List.map_append, List.nodup_append] at hnodup'
  obtain ⟨hkeys, -, hdisjoint⟩ := hnodup'
  have hfinal : final.key ∉ (first :: mid).map Link.key := fun h =>
    hdisjoint _ h _ (List.mem_map.2 ⟨final, List.mem_singleton_self final, rfl⟩) rfl
  rw [List.map_cons, List.nodup_cons] at hkeys
  rw [List.map_cons, List.mem_cons, not_or] at hfinal
  have hcurrent : Chain.current? [final.generation] first.key = none := by
    rw [Chain.current?_cons_of_ne (g := final.generation) hfinal.1]
    rfl
  have hback : Chain.current? (first.generation :: [final.generation]) final.key = some 0 := by
    rw [Chain.current?_cons_of_ne (g := first.generation) (Ne.symm hfinal.1)]
    exact Chain.current?_generation final []
  have hwalk : descend ⟨ring first final mid, d, unknownNames⟩ (1 + mid.length)
      [first.generation, final.generation] (Link.entry mid final.token) .empty =
        .ok (⟨⟨[], true⟩, [final.key]⟩, Memory.report (.cyclicReference final.name) .empty) :=
    descend_walk hrest hkeys.2
    (fun l hl => by
      rw [Chain.current?_cons_of_ne (g := first.generation)
          fun e => hkeys.1 (List.mem_map.2 ⟨l, hl, e.symm⟩),
        Chain.current?_cons_of_ne (g := final.generation)
          fun e => hfinal.2 (List.mem_map.2 ⟨l, hl, e.symm⟩)]
      rfl)
    (fun _ _ => rfl)
    (by
      rw [hback]
      exact Option.some_ne_none _)
    (descend_back (by rw [Chain.current?_walk hfinal.2, hback]))
    (by decide)
  have hres := resolveWith_enter first.token .empty (find_only unknownNames hvalues hcurrent) rfl hwalk
  exact expand_ring_final hnodup rfl hres (by decide)

/-- Asked for the last name after the first, the expansion gives `xx`. -/
theorem expand_ring_after (hnodup : ((first :: (mid ++ [final])).map Link.key).Nodup)
    (diagnostics : List Diagnostic) :
    (expand ⟨ring first final mid, d, unknownNames⟩ final.token
      ⟨[(first.generation, ⟨['x'], true⟩)], diagnostics⟩).map Prod.fst = .ok ⟨['x', 'x'], true⟩ := by
  obtain ⟨hvalues, -⟩ := chained_ring hnodup
  have hne : first.key ≠ final.key := by
    rw [List.map_cons, List.nodup_cons] at hnodup
    exact fun e => hnodup.1 (List.mem_map.2 ⟨final, by simp, e.symm⟩)
  have hcurrent : Chain.current? [final.generation] first.key = none := by
    rw [Chain.current?_cons_of_ne (g := final.generation) (Ne.symm hne)]
    rfl
  have hbeq : (final.generation == first.generation) = false :=
    beq_eq_false_iff_ne.2 fun e => hne (congrArg Generation.key e).symm
  have hres : resolveWith (descend ⟨ring first final mid, d, unknownNames⟩ (1 + mid.length))
      ⟨ring first final mid, d, unknownNames⟩ [final.generation] first.token ⟨first.name, .whole⟩
      ⟨[(first.generation, ⟨['x'], true⟩)], diagnostics⟩ = .ok (⟨⟨['x'], true⟩, []⟩, _) :=
    resolveWith_known (find_only unknownNames hvalues hcurrent) (by simp [Memory.known?])
  refine expand_ring_final hnodup ?_ hres (by decide)
  rw [Memory.known?, List.lookup_cons, hbeq]
  rfl

/-- A cycle of names makes the memory change values. -/
theorem not_historyIndependent_ring (hnodup : ((first :: (mid ++ [final])).map Link.key).Nodup) :
    ¬ HistoryIndependent ⟨ring first final mid, d, unknownNames⟩ := by
  intro h
  have hsame := h _ _ (run_ring_first hnodup) final.token
  rw [expand_ring_after hnodup, expand_ring_alone hnodup] at hsame
  exact absurd hsame (by decide)

/-! ## From mutual recursion to a cycle of names -/

theorem exists_link {scope : Scope} {a b : Text} (h : scope.RefersTo a b) :
    ∃ l : Link scope.dialect, l.key = b := by
  obtain ⟨text, -, template, hread, r, hr, rfl⟩ := h
  obtain ⟨mark, body, hsite, -⟩ := Template.site_of_mem_read hread hr
  exact ⟨⟨mark, r.name, Template.Fragment.named_of_mem_cut hsite⟩, rfl⟩

theorem exists_links {keys : List Text} (h : ∀ k ∈ keys, ∃ l : Link d, l.key = k) :
    ∃ ls : List (Link d), ls.map Link.key = keys := by
  induction keys with
  | nil => exact ⟨[], rfl⟩
  | cons k keys ih =>
    obtain ⟨l, rfl⟩ := h k List.mem_cons_self
    obtain ⟨ls, rfl⟩ := ih fun k' hk' => h k' (List.mem_cons_of_mem _ hk')
    exact ⟨l :: ls, rfl⟩

/-- What is met along a path behind its start is referred to. -/
theorem exists_refersTo_of_mem {r : Text → Text → Prop} {a : Text} {keys : List Text}
    (hchain : (a :: keys).IsChain r) {k : Text} (hk : k ∈ keys) : ∃ a', r a' k := by
  induction keys generalizing a with
  | nil => cases hk
  | cons b keys ih =>
    obtain ⟨hab, hrest⟩ := List.isChain_cons_cons.1 hchain
    rcases List.mem_cons.1 hk with rfl | hin
    · exact ⟨a, hab⟩
    · exact ih hrest hin

/-- The references of a chained list are those along the list, and those of the last text. -/
theorem refersTo_of_mem_pairs {r : Text → Text → Prop} {ls : List (Link d)} {last : Text}
    (hchain : (ls.map Link.key).IsChain r) {text : Text} {template : Template} {pair : Text × Text}
    (hpair : pair ∈ Link.pairs ls last) (htext : pair.2 = text)
    (hread : Template.read d text = .ok template) {ref : Reference} (hr : ref ∈ template.references)
    (hlast : ∀ l ∈ ls.getLast?, text = last → r l.key (Definitions.key ref.name)) :
    r (Definitions.key pair.1) (Definitions.key ref.name) := by
  induction ls with
  | nil => cases hpair
  | cons l ls ih =>
    rcases List.mem_cons.1 hpair with rfl | hin
    · cases ls with
      | nil => exact hlast l rfl htext.symm
      | cons l' ls =>
        obtain ⟨hll, -⟩ := List.isChain_cons_cons.1 hchain
        have hbare : Template.read d l'.token = .ok [⟨l'.token, .reference ⟨l'.name, .whole⟩⟩] :=
          Template.read_bare l'.named
        rw [← htext] at hread
        have heq : template = [⟨l'.token, .reference ⟨l'.name, .whole⟩⟩] :=
          Except.ok.inj (hread.symm.trans hbare)
        subst heq
        rw [List.mem_singleton.1 hr]
        exact hll
    · refine ih (hchain.tail) hin fun l' hl' => hlast l' ?_
      rw [List.getLast?_cons, hl']
      rfl

end Ring

/--
The memory is safe for each table with no references but those of a given one exactly if these hold
no mutual recursion.
-/
theorem historyIndependent_iff (ds : Definitions) (d : Dialect) (unknownNames : UnknownNames) :
    (∀ ds', (∀ a b, RefersTo ⟨ds', d, unknownNames⟩ a b → RefersTo ⟨ds, d, unknownNames⟩ a b) →
      HistoryIndependent ⟨ds', d, unknownNames⟩) ↔ ¬ MutuallyRecursive ⟨ds, d, unknownNames⟩ := by
  constructor
  · intro hall hrec
    obtain ⟨a, mid, z, hnodup, hchain, hza⟩ := hrec.exists_cycle
    obtain ⟨ls, hls⟩ : ∃ ls : List (Link d), ls.map Link.key = a :: (mid ++ [z]) := by
      refine exists_links fun k hk => ?_
      rcases List.mem_cons.1 hk with rfl | hin
      · exact exists_link hza
      · obtain ⟨a', ha'⟩ := exists_refersTo_of_mem hchain hin
        exact exists_link ha'
    rw [← hls] at hnodup hchain
    obtain ⟨first, rest, rfl, rfl, hrest⟩ := List.map_eq_cons_iff.1 hls
    obtain ⟨mids, finals, rfl, rfl, hfinals⟩ := List.map_eq_append_iff.1 hrest
    obtain ⟨final, rfl, rfl⟩ := List.map_eq_singleton_iff.1 hfinals
    refine not_historyIndependent_ring hnodup (hall (ring first final mids) fun x y hxy => ?_)
    obtain ⟨text, htext, template, hread, r, hr, rfl⟩ := hxy
    obtain ⟨pair, hpair, rfl, hpt⟩ := Definitions.mem_of_mem_valuesOf_ofList htext
    refine refersTo_of_mem_pairs hchain hpair hpt hread hr fun l hl he => ?_
    -- the last text closes the cycle
    rw [← List.cons_append, List.getLast?_concat] at hl
    obtain rfl : final = l := Option.some.inj hl
    have hletter : Template.read d ('x' :: first.token) =
        .ok [⟨['x'], .literal ['x']⟩, ⟨first.token, .reference ⟨first.name, .whole⟩⟩] :=
      Template.read_letter_bare first.named
    rw [he] at hread
    have heq := Except.ok.inj (hread.symm.trans hletter)
    subst heq
    rw [List.mem_singleton.1 hr]
    exact hza
  · intro hrec ds' hsub
    exact historyIndependent_of_not_mutuallyRecursive fun h => hrec (h.mono hsub)

/-- Two names that refer to each other: asked for `B` first, `A` is worth `xx` and not `x`. -/
theorem not_historyIndependent_pair :
    ¬ HistoryIndependent
      ⟨.ofList [("A".toList, "x%B%".toList), ("B".toList, "%A%".toList)], .percent, .erase⟩ := by
  intro h
  have hsame := h [.expand "%B%".toList] ⟨[(⟨['b'], 0⟩, ⟨['x'], true⟩)], [.cyclicReference ['B']]⟩
    (by decide +kernel) "%A%".toList
  exact absurd hsame (by decide +kernel)

end Scope

end Unmask.Expansion
