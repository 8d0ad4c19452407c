import Unmask.Proofs.Cuts
import Unmask.Proofs.Fallbacks

/-!
# Values that are not cut

A reference can be resolved by itself or expanded as the text that it was read from.  Both come to
the same, but for the limit: an expansion is cut there, and a reference that is resolved is not.
The value of the name is the value of an expansion and has no more bytes than the limit, so only a
modifier that makes it longer tells the two apart.

    byteLength_expand_le          what is expanded fits
    resolve_eq_modifier_expand    a resolution is what the modifier makes of the value of the name
    resolve_eq_expand_iff         where the two are the same
-/

namespace Unmask

namespace Modifier

/-- What a reference without a value stands for. -/
def substitute : Modifier → Text
  | fallback text => text
  | _ => []

theorem apply_nil (m : Modifier) (cyclic : Bool) :
    m.apply ⟨[], cyclic⟩ = ⟨m.substitute, cyclic⟩ := by
  cases m with
  | whole => rfl
  | fallback text => rfl
  | slice start length => simp [apply, Expansion.slice, substitute]
  | replace search replacement =>
    have hnil : Expansion.replace search replacement [] = [] := by
      unfold Expansion.replace
      split <;> rfl
    exact congrArg (Resolution.mk · cyclic) hnil

theorem byteLength_slice_le (start : Int) (length : Option Int) (s : Text) :
    Text.byteLength (Expansion.slice start length s) ≤ Text.byteLength s :=
  Text.byteLength_le_of_sublist ((List.drop_sublist _ _).trans (List.take_sublist _ _))

end Modifier

namespace Expansion.Scope

open Template (read)

variable {scope : Scope} {s token token' : Text} {r : Reference} {memory memory' : Memory}
  {descend : Descent} {chain : Chain} {o : Outcome}

/-! ## What has no more bytes than the limit -/

theorem byteLength_expandPiecesWith_le {budget : Nat} {template : Template}
    (h : scope.expandPiecesWith descend chain budget template memory = .ok (o, memory')) :
    Text.byteLength o.resolution.value ≤ budget := by
  obtain ⟨done, rest, outcomes, -, -, rfl⟩ := expandPiecesWith_stops.1 h
  exact Text.byteLength_takeBytes_le _ _

theorem byteLength_descend_le {depth : Nat}
    (h : scope.descend depth chain s memory = .ok (o, memory')) :
    Text.byteLength o.resolution.value ≤ limit := by
  cases depth with
  | zero =>
    cases h
    exact Nat.zero_le _
  | succ depth =>
    obtain ⟨template, -, hpieces⟩ := bind_eq_ok.1 h
    exact byteLength_expandPiecesWith_le hpieces

theorem byteLength_expand_le {result : Resolution}
    (h : scope.expand s memory = .ok (result, memory')) : Text.byteLength result.value ≤ limit := by
  obtain ⟨template, -, h⟩ := bind_eq_ok.1 h
  obtain ⟨⟨o, memory''⟩, hpieces, h⟩ := bind_eq_ok.1 h
  cases h
  exact byteLength_expandPiecesWith_le hpieces

/-! ## A reference by itself -/

section
variable (herase : scope.unknownNames = .erase)
include herase

/-- Where undefined names stand for nothing, how a reference was written is no matter. -/
theorem resolve_token_congr (token token' : Text) :
    scope.resolve token r memory = scope.resolve token' r memory := by
  have hmissing : scope.missing token r memory = scope.missing token' r memory := by
    unfold missing
    rw [herase]
    rfl
  unfold resolve resolveWith
  rw [hmissing]

theorem missing_eq_modifier (token : Text) (r : Reference) (memory : Memory) :
    (scope.missing token r memory).1.resolution = r.modifier.apply ⟨[], false⟩ := by
  rw [Modifier.apply_nil, missing, herase]
  cases r.modifier <;> rfl

/-- A reference is resolved to what its modifier makes of what its name is resolved to. -/
theorem resolve_eq_modifier (token token' : Text) :
    (scope.resolve token r memory).map Prod.fst =
      (scope.resolve token' ⟨r.name, .whole⟩ memory).map fun p => r.modifier.apply p.1 := by
  unfold resolve resolveWith
  cases scope.find [] r.name with
  | unknown =>
    have hwhole := missing_eq_modifier herase token' ⟨r.name, .whole⟩ memory
    exact congrArg Except.ok
      ((missing_eq_modifier herase token r memory).trans (congrArg r.modifier.apply hwhole.symm))
  | exhausted key => rfl
  | value g text hit =>
    dsimp only
    cases memory.known? g with
    | some known => rfl
    | none =>
      dsimp only
      cases scope.descend scope.definitions.total (g :: []) text memory with
      | error fault => rfl
      | ok step => rfl

/-- The value of a name by itself has no more bytes than the limit. -/
theorem byteLength_resolve_whole_le {name : Text} {result : Resolution}
    (h : scope.resolve token ⟨name, .whole⟩ .empty = .ok (result, memory')) :
    Text.byteLength result.value ≤ limit := by
  obtain ⟨⟨o, memory''⟩, hres, h⟩ := bind_eq_ok.1 h
  cases h
  unfold resolveWith at hres
  cases hfind : scope.find [] name with
  | unknown =>
    rw [hfind] at hres
    dsimp only at hres
    rw [missing, herase] at hres
    cases hres
    exact Nat.zero_le _
  | exhausted key =>
    rw [hfind] at hres
    cases hres
    exact Nat.zero_le _
  | value g text hit =>
    rw [hfind] at hres
    obtain ⟨⟨inner, memory₁⟩, hdescend, hres⟩ := bind_eq_ok.1 hres
    cases hres
    have hinner : Text.byteLength inner.resolution.value ≤ limit := byteLength_descend_le hdescend
    exact hinner

end

/-! ## Both ways -/

/-- A resolution is what the modifier makes of the value of the name. -/
theorem resolve_eq_modifier_expand (hd : scope.dialect = .percent)
    (herase : scope.unknownNames = .erase) (hname : Template.Fragment.Named .percent '%' r.name)
    (token : Text) :
    (scope.resolve token r .empty).map Prod.fst =
      (scope.expand ('%' :: r.name ++ ['%']) .empty).map fun p => r.modifier.apply p.1 := by
  have hbare : read scope.dialect ('%' :: r.name ++ ['%']) =
      .ok [⟨'%' :: r.name ++ ['%'], .reference ⟨r.name, .whole⟩⟩] := by
    rw [hd]
    exact Template.read_bare hname
  rw [expand_eq_resolve hbare, resolve_eq_modifier herase token ('%' :: r.name ++ ['%'])]
  cases hwhole : scope.resolve ('%' :: r.name ++ ['%']) ⟨r.name, .whole⟩ .empty with
  | error fault => rfl
  | ok step =>
    obtain ⟨result, memory'⟩ := step
    have hcut := Resolution.cut_eq_self_iff.2 (byteLength_resolve_whole_le herase hwhole)
    simp only [Except.map, hcut]

/-- What a reference makes of the value of its name has no more bytes than the limit. -/
def Fits (scope : Scope) (r : Reference) : Prop :=
  ∀ value memory, scope.expand ('%' :: r.name ++ ['%']) .empty = .ok (value, memory) →
    Text.byteLength (r.modifier.apply value).value ≤ limit

theorem fits_of_not_longer
    (h : r.modifier = .whole ∨ ∃ start length, r.modifier = .slice start length) : scope.Fits r := by
  intro value memory hexpand
  have hvalue := byteLength_expand_le hexpand
  rcases h with h | ⟨start, length, h⟩
  · rw [h]
    exact hvalue
  · rw [h]
    exact Nat.le_trans (Modifier.byteLength_slice_le start length value.value) hvalue

theorem fits_iff_resolve (hd : scope.dialect = .percent) (herase : scope.unknownNames = .erase)
    (hname : Template.Fragment.Named .percent '%' r.name) (token : Text) :
    scope.Fits r ↔ ∀ result memory, scope.resolve token r .empty = .ok (result, memory) →
      Text.byteLength result.value ≤ limit := by
  have hvalue := resolve_eq_modifier_expand hd herase hname token
  unfold Fits
  cases hexpand : scope.expand ('%' :: r.name ++ ['%']) .empty with
  | error fault =>
    cases hresolve : scope.resolve token r .empty with
    | error fault' =>
      constructor
      · rintro - _ _ ⟨⟩
      · rintro - _ _ ⟨⟩
    | ok step =>
      rw [hexpand, hresolve] at hvalue
      cases hvalue
  | ok step =>
    obtain ⟨value, memory⟩ := step
    cases hresolve : scope.resolve token r .empty with
    | error fault =>
      rw [hexpand, hresolve] at hvalue
      cases hvalue
    | ok step' =>
      obtain ⟨result, memory'⟩ := step'
      rw [hexpand, hresolve] at hvalue
      obtain rfl : result = r.modifier.apply value := Except.ok.inj hvalue
      constructor
      · rintro h _ _ he
        cases he
        exact h value memory rfl
      · rintro h _ _ he
        cases he
        exact h _ memory' rfl

/--
Resolving a reference of a text and expanding its token come to the same but for the limit, to which
only the expansion is cut.  So they are the same exactly if the resolved value has no more bytes than
the limit, which is so exactly if what the modifier makes of the value of the name has no more.
-/
theorem resolve_eq_expand_iff (hd : scope.dialect = .percent)
    (herase : scope.unknownNames = .erase) {template : Template}
    (h : read scope.dialect s = .ok template) {piece : Piece} (hp : piece ∈ template)
    (he : piece.expr = .reference r) :
    scope.expand piece.token .empty =
        ((scope.resolve r.toText r .empty).map fun p => (p.1.cut limit, p.2)) ∧
      (scope.resolve r.toText r .empty = scope.expand piece.token .empty ↔ scope.Fits r) ∧
      ((∀ result memory, scope.resolve r.toText r .empty = .ok (result, memory) →
        Text.byteLength result.value ≤ limit) ↔ scope.Fits r) ∧
      (r.modifier = .whole ∨ (∃ start length, r.modifier = .slice start length) → scope.Fits r) := by
  have hd' : scope.dialect ≠ .inf := by
    rw [hd]
    decide
  obtain ⟨mark, body, hmark, hclosed, -, -⟩ := Template.closed_of_mem hd' h hp he
  have hname : Template.Fragment.Named .percent '%' r.name := by
    obtain rfl : mark = '%' := by simpa [hd, Template.isMark] using hmark
    exact ⟨rfl, hclosed.isName, hclosed.isNameChar⟩
  have hexpand : scope.expand piece.token .empty =
      (scope.resolve r.toText r .empty).map fun p => (p.1.cut limit, p.2) := by
    obtain ⟨token, expr⟩ := piece
    obtain rfl : expr = .reference r := he
    rw [expand_eq_resolve (Template.read_token hd' h hp),
      resolve_token_congr herase token r.toText]
  have hfits := fits_iff_resolve hd herase hname r.toText
  refine ⟨hexpand, ?_, hfits.symm, fits_of_not_longer⟩
  rw [hfits, hexpand]
  cases scope.resolve r.toText r .empty with
  | error fault =>
    refine ⟨?_, fun _ => rfl⟩
    rintro - _ _ ⟨⟩
  | ok step =>
    obtain ⟨result, memory⟩ := step
    constructor
    · rintro hsame _ _ hresolve
      cases hresolve
      have hcut : result = result.cut limit := congrArg Prod.fst (Except.ok.inj hsame)
      exact Resolution.cut_eq_self_iff.1 hcut.symm
    · intro hresolve
      have hcut := Resolution.cut_eq_self_iff.2 (hresolve result memory rfl)
      simp only [Except.map, hcut]

/-- A replacement that finds its text in the other letter case, behind a slice. -/
theorem resolve_eq_expand_iff_replaced :
    let scope : Scope := ⟨.ofList [(['A'], "iXXu".toList)], .percent, .erase⟩
    let r : Reference := ⟨['a'], .replace "xx".toList "e4".toList⟩
    let s := "%A:~1,2% %a:xx=e4%".toList
    ∃ template, read .percent s = .ok template ∧
      ⟨"%a:xx=e4%".toList, .reference r⟩ ∈ template ∧
      (scope.resolve r.toText r .empty = scope.expand "%a:xx=e4%".toList .empty ↔ scope.Fits r) := by
  intro scope r s
  have hread : read .percent s = .ok [⟨"%A:~1,2%".toList, .reference ⟨['A'], .slice 1 (some 2)⟩⟩,
      ⟨[' '], .literal [' ']⟩, ⟨"%a:xx=e4%".toList, .reference r⟩] := by
    decide +kernel
  have hmem : (⟨"%a:xx=e4%".toList, .reference r⟩ : Piece) ∈
      ([⟨"%A:~1,2%".toList, .reference ⟨['A'], .slice 1 (some 2)⟩⟩, ⟨[' '], .literal [' ']⟩,
        ⟨"%a:xx=e4%".toList, .reference r⟩] : Template) :=
    List.mem_cons_of_mem _ (List.mem_cons_of_mem _ List.mem_cons_self)
  have hdialect : scope.dialect = .percent := rfl
  exact ⟨_, hread, hmem, (resolve_eq_expand_iff hdialect rfl hread hmem rfl).2.1⟩

/-- A replacement that makes a short value longer than the limit. -/
theorem resolve_ne_expand :
    let long : Text := List.replicate 8192 'x'
    let r : Reference := ⟨['A'], .replace ['a'] long⟩
    let scope : Scope := ⟨.ofList [(['A'], ['a'])], .percent, .erase⟩
    read .percent r.toText = .ok [⟨r.toText, .reference r⟩] ∧
      ∃ memory, scope.resolve r.toText r .empty = .ok (⟨long, false⟩, memory) ∧
        scope.expand r.toText .empty = .ok (⟨List.replicate 8191 'x', false⟩, memory) ∧
        limit < Text.byteLength long := by
  intro long r scope
  have hlong : Text.byteLength long = limit + 1 := Text.byteLength_replicate 8192 'x'
  have hread : read .percent r.toText = .ok [⟨r.toText, .reference r⟩] := by
    have hclosed : Template.Fragment.Closed '%' ['A'] (some ('a' :: '=' :: long)) := by
      refine ⟨rfl, List.forall_mem_singleton.2 rfl, fun b hb => ?_⟩
      obtain rfl : 'a' :: '=' :: long = b := Option.some.inj hb
      refine ⟨rfl, List.forall_mem_cons.2 ⟨by decide, List.forall_mem_cons.2 ⟨by decide, ?_⟩⟩⟩
      intro c hc
      rw [List.eq_of_mem_replicate hc]
      decide
    exact Template.read_closed (by decide) rfl hclosed rfl
  let memory : Memory := ⟨[(⟨['a'], 0⟩, ⟨['a'], false⟩)], []⟩
  have hwhole : scope.resolveWith (scope.descend scope.definitions.total) [] "%A%".toList
      ⟨['A'], .whole⟩ .empty = .ok (.literal ['a'], memory) := by
    decide +kernel
  have hvalue : r.modifier.apply ⟨['a'], false⟩ = ⟨long, false⟩ := by
    have hmatch : Text.dropMatch? Text.sameFolded ['a'] ['a'] = some [] := by decide +kernel
    have hreplaced : Text.replaceAll Text.sameFolded ['a'] long ['a'] = long ++ [] := by
      rw [Text.replaceAll, Text.replaceFrom, hmatch]
      rfl
    rw [List.append_nil] at hreplaced
    exact congrArg (Resolution.mk · false) hreplaced
  have hresolve : scope.resolve r.toText r .empty = .ok (⟨long, false⟩, memory) := by
    have hdefined : scope.find [] ['A'] ≠ .unknown := by decide +kernel
    rw [resolve, resolveWith_modifier r.toText hdefined hwhole]
    exact congrArg (fun value => Except.ok (value, memory)) hvalue
  have hcut : Text.takeBytes limit long = List.replicate 8191 'x' := by
    have hlast : long = List.replicate 8191 'x' ++ ['x'] := List.replicate_succ'
    have hsize : Text.byteLength (List.replicate 8191 'x') = limit :=
      Text.byteLength_replicate 8191 'x'
    rw [hlast, Text.takeBytes_append hsize.le, hsize, Nat.sub_self]
    exact List.append_nil _
  refine ⟨hread, memory, hresolve, ?_, by omega⟩
  have hexpand : scope.expand r.toText .empty = _ := expand_eq_resolve hread
  rw [hexpand, hresolve]
  exact congrArg (fun value => Except.ok (Resolution.mk value false, memory)) hcut

end Expansion.Scope

end Unmask
