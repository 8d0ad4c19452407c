import Unmask.Proofs.LiteralRuns
import Unmask.Proofs.SingleSites

/-!
# Fallbacks

A site with a fallback holds `:-` and the fallback behind its name.  But a body with an equals sign
replaces, whatever it starts with.  So a fallback with an equals sign is none: it is read as the
replacement of what starts with the minus sign, which finds nothing in a value that is missing.

    read_fallbackSite     what the site of a fallback is read as
    expand_eq_resolve     a text of one reference expands to what that is resolved to, but for the cut
    fallbackSite_iff      it is read as that, and stands for a missing value, without equals signs only
-/

namespace Unmask

namespace Text

theorem head?_takeBytes_limit (s : Text) : (takeBytes Expansion.limit s).head? = s.head? := by
  cases s with
  | nil => rfl
  | cons c s =>
    have hsize : c.utf8Size ≤ Expansion.limit :=
      (Char.utf8Size_le_four c).trans (by decide)
    rw [takeBytes, if_pos hsize]
    rfl

end Text

namespace Template

open Fragment (Named Closed)

variable {d : Dialect} {mark : Char} {name fallback : Text}

def fallbackSite (mark : Char) (name fallback : Text) : Text :=
  mark :: name ++ ':' :: '-' :: fallback ++ [mark]

def fallbackModifier (fallback : Text) : Modifier :=
  if '=' ∈ fallback then
    .replace ('-' :: fallback.takeWhile (· != '=')) ((fallback.dropWhile (· != '=')).drop 1)
  else .fallback fallback

namespace Fragment

theorem readModifier_fallback (fallback : Text) :
    readModifier ('-' :: fallback) = .ok (fallbackModifier fallback) := by
  unfold readModifier fallbackModifier
  split
  · next h => cases h
  · rw [List.dropWhile_cons_of_pos (by decide), List.takeWhile_cons_of_pos (by decide)]
    by_cases hmem : '=' ∈ fallback
    · rw [if_pos hmem]
      cases hdrop : fallback.dropWhile (· != '=') with
      | nil =>
        have := List.dropWhile_eq_nil_iff.1 hdrop '=' hmem
        simp at this
      | cons c replacement => rfl
    · have hall : ∀ c ∈ fallback, (c != '=') = true := by
        intro c hc
        rw [bne_iff_ne]
        rintro rfl
        exact hmem hc
      rw [if_neg hmem, List.dropWhile_eq_nil_iff.2 hall]
      rfl

end Fragment

section
variable (hd : d ≠ .inf) (hname : Named d mark name)
  (hfallback : ∀ c ∈ fallback, c ≠ mark ∧ Text.isBreak c = false)
include hd hname hfallback

theorem closed_fallback : Closed mark name (some ('-' :: fallback)) := by
  obtain ⟨hmark, hnames⟩ := hname
  have hnamed : Template.isName mark name = true ∧ ∀ c ∈ name, isNameChar c = true := by
    cases d with
    | inf => exact absurd rfl hd
    | percent | delayed => exact hnames
  have hminus : '-' ≠ mark := by
    rintro rfl
    cases d <;> cases hmark
  refine ⟨hnamed.1, hnamed.2, ?_⟩
  intro body hbody
  obtain rfl : '-' :: fallback = body := Option.some.inj hbody
  refine ⟨by simp [isModifierBody], fun c hc => ?_⟩
  rcases List.mem_cons.1 hc with rfl | hc
  · simp [hminus, Text.isBreak]
  · obtain ⟨hne, hbreak⟩ := hfallback c hc
    simp [hne, hbreak]

theorem read_fallbackSite :
    read d (fallbackSite mark name fallback) =
      .ok [⟨fallbackSite mark name fallback, .reference ⟨name, fallbackModifier fallback⟩⟩] :=
  read_closed hd hname.1 (closed_fallback hd hname hfallback)
    (Fragment.readModifier_fallback fallback)

end

end Template

namespace Expansion.Scope

open Template (fallbackSite fallbackModifier read read_bare read_fallbackSite)
open Template.Fragment (Named)

variable {scope : Scope} {memory memory' : Memory} {s token name fallback : Text} {r : Reference}
  {o : Outcome} {mark : Char} {cyclic : Bool}

/-! ## Texts of one reference -/

/-- A text of one reference expands to what that is resolved to, cut to the limit. -/
theorem expand_eq_resolve (hread : read scope.dialect s = .ok [⟨token, .reference r⟩]) :
    scope.expand s memory = (scope.resolve token r memory).map fun p => (p.1.cut limit, p.2) := by
  have hpieces : scope.expandPiecesWith (scope.descend scope.definitions.total) [] limit
      [⟨token, .reference r⟩] memory =
        (scope.resolveWith (scope.descend scope.definitions.total) [] token r memory).map fun p =>
          ({ p.1 with resolution := p.1.resolution.cut limit }, p.2) :=
    scope.expandPiecesWith_singleton _ [] limit _ memory
  simp only [expand, expandTemplate, resolve, hread, hpieces, bind, Except.bind]
  cases scope.resolveWith (scope.descend scope.definitions.total) [] token r memory with
  | error fault => rfl
  | ok step => rfl

theorem expand_reference (hread : read scope.dialect s = .ok [⟨token, .reference r⟩])
    (hres : scope.resolveWith (scope.descend scope.definitions.total) [] token r memory =
      .ok (o, memory')) :
    scope.expand s memory = .ok (o.resolution.cut limit, memory') := by
  rw [expand_eq_resolve hread, resolve, hres]
  rfl

/-- A reference to a defined name is resolved to its value, whatever the modifier makes of that. -/
theorem resolveWith_modifier {descend : Descent} {chain : Chain} {m : Modifier}
    (token' : Text) (hdefined : scope.find chain name ≠ .unknown)
    (h : scope.resolveWith descend chain token ⟨name, .whole⟩ memory = .ok (o, memory')) :
    scope.resolveWith descend chain token' ⟨name, m⟩ memory =
      .ok (⟨m.apply o.resolution, o.hits⟩, memory') := by
  unfold resolveWith at h ⊢
  cases hfind : scope.find chain name with
  | unknown => exact absurd hfind hdefined
  | exhausted key =>
    rw [hfind] at h
    cases h
    rfl
  | value g text hit =>
    rw [hfind] at h
    dsimp only at h ⊢
    cases hknown : memory.known? g with
    | some known =>
      rw [hknown] at h
      cases h
      rfl
    | none =>
      rw [hknown] at h
      obtain ⟨⟨inner, memory''⟩, hdescend, h⟩ := bind_eq_ok.1 h
      cases h
      dsimp only
      rw [hdescend]
      rfl

theorem exists_resolveWith (hread : read scope.dialect s = .ok [⟨token, .reference r⟩])
    {result : Resolution} (h : scope.expand s memory = .ok (result, memory')) :
    ∃ o, scope.resolveWith (scope.descend scope.definitions.total) [] token r memory =
        .ok (o, memory') ∧
      result = o.resolution.cut limit := by
  rw [expand_eq_resolve hread, resolve] at h
  cases hres : scope.resolveWith (scope.descend scope.definitions.total) [] token r memory with
  | error fault =>
    rw [hres] at h
    cases h
  | ok step =>
    rw [hres] at h
    cases h
    exact ⟨step.1, rfl, rfl⟩

/-! ## What the site of a fallback stands for -/

section
variable (hd : scope.dialect ≠ .inf) (hname : Named scope.dialect mark name)
  (hfallback : ∀ c ∈ fallback, c ≠ mark ∧ Text.isBreak c = false)
include hd hname hfallback

theorem expand_fallbackSite_undefined (hundefined : scope.definitions.contains name = false) :
    scope.expand (fallbackSite mark name fallback) memory =
      .ok (if '=' ∈ fallback then
          (⟨Text.takeBytes limit
            (if scope.unknownNames = .keep then fallbackSite mark name fallback else []), false⟩,
            memory.report (.unresolvedReference name))
        else (⟨Text.takeBytes limit fallback, false⟩, memory)) := by
  have hvalues : scope.definitions.valuesOf (Definitions.key name) = [] := by
    by_contra hne
    rw [(Definitions.contains_iff _ _).2 hne] at hundefined
    cases hundefined
  have hfind : scope.find [] name = .unknown := find_undefined rfl hvalues
  have hres : scope.resolveWith (scope.descend scope.definitions.total) []
      (fallbackSite mark name fallback) ⟨name, fallbackModifier fallback⟩ memory =
        .ok (scope.missing (fallbackSite mark name fallback) ⟨name, fallbackModifier fallback⟩
          memory) := by
    rw [resolveWith, hfind]
  rw [expand_reference (read_fallbackSite hd hname hfallback) hres]
  by_cases hmem : '=' ∈ fallback
  · rw [if_pos hmem, fallbackModifier, if_pos hmem]
    rfl
  · rw [if_neg hmem, fallbackModifier, if_neg hmem]
    rfl

theorem expand_fallbackSite_empty (hdefined : scope.definitions.contains name = true)
    (hbare : scope.expand (mark :: name ++ [mark]) memory = .ok (⟨[], cyclic⟩, memory')) :
    scope.expand (fallbackSite mark name fallback) memory =
      .ok (⟨if '=' ∈ fallback then [] else Text.takeBytes limit fallback, cyclic⟩, memory') := by
  have hfind : scope.find [] name ≠ .unknown := by
    have hvalues := (Definitions.contains_iff _ _).1 hdefined
    obtain ⟨n, hn⟩ := Nat.exists_eq_succ_of_ne_zero (mt List.length_eq_zero_iff.1 hvalues)
    rw [find_newest rfl hn (List.getElem?_eq_getElem (by omega))]
    exact Finding.noConfusion
  obtain ⟨o, hres, hvalue⟩ := exists_resolveWith (read_bare hname) hbare
  have hempty : o.resolution = ⟨[], cyclic⟩ := by
    obtain ⟨⟨value, c⟩, hits⟩ := o
    obtain ⟨hnil, rfl⟩ := Resolution.mk.inj hvalue
    have hhead := Text.head?_takeBytes_limit value
    rw [← hnil, List.head?_nil] at hhead
    rw [List.head?_eq_none_iff.1 hhead.symm]
  have hmodified := resolveWith_modifier (m := fallbackModifier fallback)
    (fallbackSite mark name fallback) hfind hres
  rw [expand_reference (read_fallbackSite hd hname hfallback) hmodified, hempty]
  unfold fallbackModifier
  split
  · rfl
  · rfl

end

/-- A defined name whose newest value is empty is worth nothing, and nothing is noticed. -/
theorem expand_bare_empty (hname : Named scope.dialect mark name)
    (hlookup : scope.definitions.lookup? name = some []) :
    ∃ memory', memory'.diagnostics = [] ∧
      scope.expand (mark :: name ++ [mark]) .empty = .ok (⟨[], false⟩, memory') := by
  have hvalues : (scope.definitions.valuesOf (Definitions.key name)).getLast? = some [] := hlookup
  obtain ⟨older, hlast⟩ := List.getLast?_eq_some_iff.1 hvalues
  have hfind : scope.find [] name = .value ⟨Definitions.key name, older.length⟩ [] false :=
    find_newest rfl (by simp [hlast]) (by simp [hlast])
  have hdescend : ∀ depth chain, scope.descend depth chain [] .empty =
      .ok (.literal [], .empty) := by
    intro depth chain
    cases depth with
    | zero => rfl
    | succ depth =>
      rw [descend, Template.read, Template.Fragment.cut]
      rfl
  have hres := resolveWith_enter (mark :: name ++ [mark]) .empty hfind rfl
    (hdescend scope.definitions.total _)
  refine ⟨_, ?_, expand_reference (read_bare hname) hres⟩
  split <;> rfl

/-! ## Equals signs -/

/-- A fallback is neither nothing nor a text that starts with a mark, cut to the limit or not. -/
theorem takeBytes_ne_fallback (hfallback : ∀ c ∈ fallback, c ≠ mark ∧ Text.isBreak c = false)
    (hmem : '=' ∈ fallback) (hs : ∀ c ∈ s.head?, c = mark) :
    Text.takeBytes limit s ≠ Text.takeBytes limit fallback := by
  intro heq
  obtain ⟨c, rest, rfl⟩ := List.exists_cons_of_ne_nil (List.ne_nil_of_mem hmem)
  have hhead := congrArg List.head? heq
  rw [Text.head?_takeBytes_limit, Text.head?_takeBytes_limit, List.head?_cons] at hhead
  exact (hfallback c List.mem_cons_self).1 (hs c hhead)

section
variable (hd : scope.dialect ≠ .inf) (hname : Named scope.dialect mark name)
  (hfallback : ∀ c ∈ fallback, c ≠ mark ∧ Text.isBreak c = false)
include hd hname hfallback

theorem expand_undefined_iff (hundefined : scope.definitions.contains name = false) :
    scope.expand (fallbackSite mark name fallback) memory =
        .ok (⟨Text.takeBytes limit fallback, false⟩, memory) ↔
      '=' ∉ fallback := by
  rw [expand_fallbackSite_undefined hd hname hfallback hundefined]
  by_cases hmem : '=' ∈ fallback
  · have hkept : ∀ c ∈ (if scope.unknownNames = .keep then fallbackSite mark name fallback
        else []).head?, c = mark := by
      intro c hc
      split at hc
      · exact (Option.some.inj hc).symm
      · cases hc
    simp [hmem, takeBytes_ne_fallback hfallback hmem hkept]
  · simp [hmem]

theorem expand_empty_iff (hdefined : scope.definitions.contains name = true)
    (hbare : scope.expand (mark :: name ++ [mark]) memory = .ok (⟨[], cyclic⟩, memory'))
    {memory'' : Memory} :
    scope.expand (fallbackSite mark name fallback) memory =
        .ok (⟨Text.takeBytes limit fallback, cyclic⟩, memory'') ↔
      '=' ∉ fallback ∧ memory' = memory'' := by
  rw [expand_fallbackSite_empty hd hname hfallback hdefined hbare]
  by_cases hmem : '=' ∈ fallback
  · have hne : ([] : Text) ≠ Text.takeBytes limit fallback :=
      takeBytes_ne_fallback hfallback hmem (s := []) (by simp)
    simp [hmem, hne]
  · simp [hmem]

end

/--
The site of a fallback is read as a fallback, and a name that is undefined or worth nothing stands
for the fallback there, exactly if the fallback holds no equals sign.
-/
theorem fallbackSite_iff {d : Dialect} (hd : d ≠ .inf) (hname : Named d mark name)
    (hfallback : ∀ c ∈ fallback, c ≠ mark ∧ Text.isBreak c = false) :
    (read d (fallbackSite mark name fallback) =
        .ok [⟨fallbackSite mark name fallback, .reference ⟨name, .fallback fallback⟩⟩] ↔
      '=' ∉ fallback) ∧
    ∀ scope : Scope, scope.dialect = d →
      (∀ memory, scope.definitions.contains name = false →
        (scope.expand (fallbackSite mark name fallback) memory =
            .ok (⟨Text.takeBytes limit fallback, false⟩, memory) ↔
          '=' ∉ fallback)) ∧
      (∀ memory cyclic memory', scope.definitions.contains name = true →
        scope.expand (mark :: name ++ [mark]) memory = .ok (⟨[], cyclic⟩, memory') →
        (scope.expand (fallbackSite mark name fallback) memory =
            .ok (⟨Text.takeBytes limit fallback, cyclic⟩, memory') ↔
          '=' ∉ fallback)) ∧
      (scope.definitions.lookup? name = some [] →
        ((∃ memory', memory'.diagnostics = [] ∧
          scope.expand (fallbackSite mark name fallback) .empty =
            .ok (⟨Text.takeBytes limit fallback, false⟩, memory')) ↔
          '=' ∉ fallback)) := by
  refine ⟨?_, ?_⟩
  · rw [read_fallbackSite hd hname hfallback, fallbackModifier]
    by_cases hmem : '=' ∈ fallback
    · simp [hmem]
    · simp [hmem]
  · rintro scope rfl
    refine ⟨?_, ?_, ?_⟩
    · intro memory hundefined
      exact expand_undefined_iff hd hname hfallback hundefined
    · intro memory cyclic memory' hdefined hbare
      rw [expand_empty_iff hd hname hfallback hdefined hbare]
      exact and_iff_left rfl
    · intro hlookup
      obtain ⟨memory', hsilent, hbare⟩ := expand_bare_empty hname hlookup
      have hdefined : scope.definitions.contains name = true := by
        rw [Definitions.contains, hlookup]
        rfl
      simp only [expand_empty_iff hd hname hfallback hdefined hbare]
      constructor
      · rintro ⟨memory'', -, hnot, -⟩
        exact hnot
      · intro hnot
        exact ⟨memory', hsilent, hnot, rfl⟩

theorem fallbackSite_iff_equation :
    (read .percent (fallbackSite '%' "A".toList "x=y".toList) =
        .ok [⟨fallbackSite '%' "A".toList "x=y".toList,
          .reference ⟨"A".toList, .fallback "x=y".toList⟩⟩] ↔
      '=' ∉ "x=y".toList) ∧
    ((⟨.empty, .percent, .keep⟩ : Scope).expand (fallbackSite '%' "A".toList "x=y".toList) .empty =
        .ok (⟨Text.takeBytes limit "x=y".toList, false⟩, .empty) ↔
      '=' ∉ "x=y".toList) := by
  have hname : Named .percent '%' "A".toList := by
    refine ⟨rfl, rfl, fun c hc => ?_⟩
    rw [List.mem_singleton.1 hc]
    rfl
  have hfallback : ∀ c ∈ "x=y".toList, c ≠ '%' ∧ Text.isBreak c = false := by
    intro c hc
    have := List.all_eq_true.1
      (by decide +kernel : "x=y".toList.all (fun c => c != '%' && !Text.isBreak c) = true) c hc
    simpa using this
  obtain ⟨hread, hexpand⟩ := fallbackSite_iff (by decide) hname hfallback
  exact ⟨hread, (hexpand _ rfl).1 .empty rfl⟩

/-- A fallback with an equals sign is read as a replacement, and an undefined name is reported. -/
theorem read_fallback_ne :
    read .percent "%A:-x=y%".toList =
        .ok [⟨"%A:-x=y%".toList, .reference ⟨"A".toList, .replace "-x".toList "y".toList⟩⟩] ∧
      (⟨.empty, .percent, .erase⟩ : Scope).expand "%A:-x=y%".toList .empty =
        .ok (⟨[], false⟩, ⟨[], [.unresolvedReference "A".toList]⟩) := by
  decide +kernel

end Expansion.Scope

end Unmask
