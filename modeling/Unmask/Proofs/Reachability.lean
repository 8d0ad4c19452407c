import Unmask.Proofs.Chains
import Unmask.Proofs.Lookups

/-!
# What an expansion can come to

An expansion looks up the names in its text, and then the names in the values that it enters.  Every
key that it looks up is reachable in this way, so what other names were given does not count: not
for the value, the cyclic flag and the diagnostics, not for what is remembered and not for the
faults.  It does not count either how deep the tables would let the expansion go.

    Reachable                  the keys that an expansion of a text can look up
    Reachable.mem_of_closes    a list of keys that no reference leads out of
    descend_congr              the values of definitions, however deep the two runs may go
    expand_eq_of_reachable     two tables that agree on the reachable keys
-/

namespace Unmask.Expansion.Scope

/-! ## Reachable keys -/

/-- The keys of the names in a text, and of the names in the values of such keys, and so on. -/
inductive Reachable (scope : Scope) (text : Text) : Text → Prop
  | named {template : Template} {r : Reference} :
      Template.read scope.dialect text = .ok template → r ∈ template.references →
      Reachable scope text (Definitions.key r.name)
  | step {a b : Text} : Reachable scope text a → scope.RefersTo a b → Reachable scope text b

def namedKeys (d : Dialect) (text : Text) : List Text :=
  match Template.read d text with
  | .error _ => []
  | .ok template => template.references.map fun r => Definitions.key r.name

/-- Whether a list of keys has the names in a text and is left by no reference. -/
def closes (scope : Scope) (text : Text) (keys : List Text) : Bool :=
  (namedKeys scope.dialect text).all (· ∈ keys) &&
    keys.all fun k => (scope.definitions.valuesOf k).all fun value =>
      (namedKeys scope.dialect value).all (· ∈ keys)

theorem mem_namedKeys {d : Dialect} {text : Text} {template : Template} {r : Reference}
    (hread : Template.read d text = .ok template) (hr : r ∈ template.references) :
    Definitions.key r.name ∈ namedKeys d text := by
  rw [namedKeys, hread]
  exact List.mem_map.2 ⟨r, hr, rfl⟩

theorem Reachable.mem_of_closes {scope : Scope} {text : Text} {keys : List Text}
    (hcloses : scope.closes text keys = true) {k : Text} (h : scope.Reachable text k) : k ∈ keys := by
  unfold closes at hcloses
  simp only [Bool.and_eq_true, List.all_eq_true, decide_eq_true_eq] at hcloses
  obtain ⟨htext, hvalues⟩ := hcloses
  induction h with
  | named hread hr => exact htext _ (mem_namedKeys hread hr)
  | step _ hrefers ih =>
    obtain ⟨value, hvalue, template, hread, r, hr, rfl⟩ := hrefers
    exact hvalues _ ih value hvalue _ (mem_namedKeys hread hr)

/-! ## Two tables -/

def withDefinitions (scope : Scope) (definitions : Definitions) : Scope :=
  { scope with definitions }

theorem dialect_withDefinitions (scope : Scope) (definitions : Definitions) :
    (scope.withDefinitions definitions).dialect = scope.dialect := rfl

section

variable {scope : Scope} {definitions : Definitions} {K : Text → Prop}
  (hagree : ∀ k, K k → scope.definitions.valuesOf k = definitions.valuesOf k)

include hagree

/-- Where the keys of its names agree, a template is expanded alike if their values are. -/
theorem expandPiecesWith_withDefinitions {descend descend' : Descent} {chain : Chain}
    {template : Template} (hnamed : ∀ r ∈ template.references, K (Definitions.key r.name))
    (hdescend : ∀ (name : Text) g text hit memory, K (Definitions.key name) →
      scope.find chain name = .value g text hit →
      (scope.withDefinitions definitions).find chain name = .value g text hit →
      descend (g :: chain) text memory = descend' (g :: chain) text memory)
    (budget : Nat) (memory : Memory) :
    scope.expandPiecesWith descend chain budget template memory =
      (scope.withDefinitions definitions).expandPiecesWith descend' chain budget template memory := by
  refine expandPiecesWith_congr (fun r hr token memory => ?_) budget memory
  have hfind : scope.find chain r.name = (scope.withDefinitions definitions).find chain r.name :=
    find_congr (hagree _ (hnamed r hr))
  have hunknown : scope.unknownNames = (scope.withDefinitions definitions).unknownNames := rfl
  exact resolveWith_congr hunknown hfind (fun g text hit memory hvalue =>
    hdescend r.name g text hit memory (hnamed r hr) hvalue (hfind ▸ hvalue)) token memory

variable (hclosed : ∀ a b, K a → scope.RefersTo a b → K b)

include hclosed

/--
The text of a definition has one value over both tables.  The depths are independent: neither is
used up, since no chain is longer than a table.
-/
theorem descend_congr {depth depth' : Nat} {chain : Chain} (hchain : scope.Orderly chain)
    (hchain' : (scope.withDefinitions definitions).Orderly chain)
    (hdepth : scope.definitions.total < depth + chain.length)
    (hdepth' : definitions.total < depth' + chain.length) {text : Text}
    (hnamed : ∀ template, Template.read scope.dialect text = .ok template →
      ∀ r ∈ template.references, K (Definitions.key r.name)) (memory : Memory) :
    scope.descend depth chain text memory =
      (scope.withDefinitions definitions).descend depth' chain text memory := by
  induction depth generalizing depth' chain text memory with
  | zero =>
    have := hchain.length_le_total
    omega
  | succ depth ih =>
    cases depth' with
    | zero =>
      have : chain.length ≤ definitions.total := hchain'.length_le_total
      omega
    | succ depth' =>
      rw [descend, descend, dialect_withDefinitions]
      cases hread : Template.read scope.dialect text with
      | error fault => rfl
      | ok template =>
        refine expandPiecesWith_withDefinitions hagree (hnamed template hread)
          (fun name g value hit memory hname hfind hfind' => ?_) limit memory
        refine ih (hchain.cons hfind) (hchain'.cons hfind') ?_ ?_ (fun template' hread' r hr => ?_) memory
        · rw [List.length_cons]
          omega
        · rw [List.length_cons]
          omega
        · exact hclosed _ _ hname ⟨value, mem_of_find hfind, template', hread', r, hr, rfl⟩

end

/--
A text has one value over two tables with the same values for every name that it can come to, and
so the same is noticed and remembered.
-/
theorem expand_eq_of_reachable (scope : Scope) (definitions : Definitions) (text : Text)
    (h : ∀ k, scope.Reachable text k → scope.definitions.valuesOf k = definitions.valuesOf k)
    (memory : Memory) :
    scope.expand text memory = (scope.withDefinitions definitions).expand text memory := by
  unfold expand
  rw [dialect_withDefinitions]
  cases hread : Template.read scope.dialect text with
  | error fault => rfl
  | ok template =>
    have hpieces : scope.expandPiecesWith (scope.descend scope.definitions.total) [] limit template
        memory = (scope.withDefinitions definitions).expandPiecesWith
          ((scope.withDefinitions definitions).descend definitions.total) [] limit template memory := by
      refine expandPiecesWith_withDefinitions h (fun r hr => .named hread hr)
        (fun name g value hit memory hname hfind hfind' => ?_) limit memory
      refine descend_congr h (fun a b ha hab => ha.step hab) (scope.orderly_nil.cons hfind)
        ((orderly_nil _).cons hfind') (by simp) (by simp) (fun template' hread' r hr => ?_) memory
      exact hname.step ⟨value, mem_of_find hfind, template', hread', r, hr, rfl⟩
    exact congrArg (· >>= fun p => Except.ok (p.1.resolution, p.2)) hpieces

/-- `Z` was given other values, the other tables have it in other places, and `Q` is new. -/
theorem expand_eq_of_reachable_shadowed :
    let scope : Scope := ⟨Definitions.ofList
      [("A".toList, "%B%x".toList), ("B".toList, "1".toList), ("Z".toList, "%Z%%A%".toList),
        ("b".toList, "%B%2%A%".toList)], .percent, .keep⟩
    let definitions := Definitions.ofList
      [("B".toList, "1".toList), ("Q".toList, "%Z%".toList), ("b".toList, "%B%2%A%".toList),
        ("Z".toList, "%Q%".toList), ("Z".toList, "%A%".toList), ("A".toList, "%B%x".toList)]
    scope.definitions.valuesOf ['z'] ≠ definitions.valuesOf ['z'] ∧
      (∀ k, scope.Reachable "%a%%NO%".toList k →
        scope.definitions.valuesOf k = definitions.valuesOf k) ∧
      scope.expand "%a%%NO%".toList .empty =
        (scope.withDefinitions definitions).expand "%a%%NO%".toList .empty ∧
      (scope.expand "%a%%NO%".toList .empty).map (fun result => result.1) =
        .ok ⟨"12x%NO%".toList, true⟩ := by
  intro scope definitions
  have hvalues : ["a".toList, "b".toList, "no".toList].all (fun k =>
      scope.definitions.valuesOf k == definitions.valuesOf k) = true := by decide +kernel
  have hcloses : scope.closes "%a%%NO%".toList ["a".toList, "b".toList, "no".toList] = true := by
    decide +kernel
  have h : ∀ k, scope.Reachable "%a%%NO%".toList k →
      scope.definitions.valuesOf k = definitions.valuesOf k := fun k hk =>
    beq_iff_eq.1 (List.all_eq_true.1 hvalues k (hk.mem_of_closes hcloses))
  exact ⟨by decide +kernel, h, expand_eq_of_reachable scope definitions _ h .empty, by decide +kernel⟩

end Unmask.Expansion.Scope
