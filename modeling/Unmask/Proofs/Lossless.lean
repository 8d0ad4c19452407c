import Unmask.Proofs.Cuts
import Unmask.Proofs.Overflows
import Unmask.Proofs.Tokens

/-!
# Nothing is lost

A text that can be read is its tokens one behind the other.  A mark that completes no site is a
literal by itself, so literal text is its own token, but for the percent sign that is written twice
in an INF file.  A command line without references therefore expands to itself, as far as the limit
goes.

    text_eq_literalOf      the text of a literal, from its token
    expandTemplate_plain   what a template without references expands to
    exists_keeps           a text without an offset that overflows is kept
-/

namespace Unmask

namespace Template

/-- The literal text of a token: two percent signs in an INF file are one. -/
def literalOf (d : Dialect) (token : Text) : Text :=
  if d = .inf ∧ token = "%%".toList then ['%'] else token

variable {d : Dialect} {s : Text} {t : Template}

/-- The text of a literal, from its token. -/
theorem text_eq_literalOf (h : read d s = .ok t) {piece : Piece} (hp : piece ∈ t) {text : Text}
    (he : piece.expr = .literal text) : text = literalOf d piece.token := by
  by_cases hd : d = .inf
  · subst hd
    obtain ⟨f, hf, hread⟩ := exists_of_mapM_ok h hp
    cases f with
    | plain text' =>
      cases hread
      cases he
      have hne : text ≠ "%%".toList := by
        rintro rfl
        rcases Fragment.plain_of_mem_cut hf with ⟨c, hc⟩ | hplain
        · cases hc
        · cases hplain '%' List.mem_cons_self
      exact (if_neg fun hboth => hne hboth.2).symm
    | escape =>
      cases hread
      cases he
      rfl
    | site mark name body =>
      obtain rfl := Fragment.body_eq_none_of_mem_cut hf
      cases hread
      cases he
  · rw [text_eq_token hd h hp he]
    exact (if_neg fun hboth => hd hboth.1).symm

theorem token_ne_nil (h : read d s = .ok t) {piece : Piece} (hp : piece ∈ t) : piece.token ≠ [] := by
  obtain ⟨f, hf, hread⟩ := exists_of_mapM_ok h hp
  obtain ⟨c, s', hheads⟩ := Fragment.exists_heads_of_mem_cut hf
  rw [Fragment.token_of_read hread]
  exact hheads.isPrefix.1

theorem name_ne_nil (h : read d s = .ok t) {r : Reference} (hr : r ∈ t.references) : r.name ≠ [] := by
  obtain ⟨mark, body, hf, -⟩ := site_of_mem_read h hr
  obtain ⟨-, hname⟩ := Fragment.named_of_mem_cut hf
  cases d with
  | inf => exact hname.1
  | percent | delayed =>
    intro hnil
    rw [hnil] at hname
    cases hname.1

/-- What is kept of a text that is read as a template. -/
structure Keeps (d : Dialect) (s : Text) (t : Template) : Prop where
  /-- The tokens make up the text. -/
  tokens : t.flatMap Piece.token = s
  ne_nil : ∀ piece ∈ t, piece.token ≠ []
  literal : ∀ piece ∈ t, ∀ text, piece.expr = .literal text → text = literalOf d piece.token
  named : ∀ r ∈ t.references, r.name ≠ []

theorem not_overflows_of_read (h : read d s = .ok t) : ¬ Overflows d s := by
  intro hoverflows
  have herror : read d s = .error .offsetOverflow := read_eq_error_iff.2 ⟨rfl, hoverflows⟩
  rw [herror] at h
  cases h

theorem keeps_of_read (h : read d s = .ok t) : Keeps d s t where
  tokens := flatMap_token h
  ne_nil _ := token_ne_nil h
  literal _ hp _ := text_eq_literalOf h hp
  named _ := name_ne_nil h

/-! ## Without references -/

theorem exists_literal_of_isPlain (h : t.isPlain = true) {piece : Piece} (hp : piece ∈ t) :
    ∃ text, piece.expr = .literal text := by
  cases he : piece.expr with
  | literal text => exact ⟨text, rfl⟩
  | reference r =>
    have hmem := mem_references.2 ⟨piece, hp, he⟩
    rw [List.isEmpty_iff.1 h] at hmem
    cases hmem

/-- Pieces of literal text make up their texts. -/
theorem literals_of_forall (h : ∀ piece ∈ t, ∃ text, piece.expr = .literal text) :
    Literals t (t.flatMap fun piece => piece.expr.toText) := by
  induction t with
  | nil => exact .nil
  | cons piece t ih =>
    obtain ⟨token, expr⟩ := piece
    obtain ⟨text, rfl⟩ := h _ List.mem_cons_self
    exact .cons token text (ih fun piece hp => h piece (List.mem_cons_of_mem _ hp))

/-- On a command line they make up the text that was read. -/
theorem flatMap_toText (hd : d ≠ .inf) (h : read d s = .ok t) (hplain : t.isPlain = true) :
    t.flatMap (fun piece => piece.expr.toText) = s := by
  rw [← flatMap_token h, List.flatMap_def, List.flatMap_def]
  refine congrArg List.flatten (List.map_congr_left fun piece hp => ?_)
  obtain ⟨text, he⟩ := exists_literal_of_isPlain hplain hp
  rw [he]
  exact text_eq_token hd h hp he

end Template

namespace Expansion.Scope

/-- A template without references expands to its texts, as far as the limit goes. -/
theorem expandTemplate_plain (scope : Scope) {t : Template} (h : t.isPlain = true)
    (memory : Memory) :
    scope.expandTemplate t memory =
      .ok (⟨Text.takeBytes limit (t.flatMap fun piece => piece.expr.toText), false⟩, memory) := by
  have hliterals := Template.literals_of_forall fun _ hp => Template.exists_literal_of_isPlain h hp
  have hpieces := expandPiecesWith_literals scope (scope.descend scope.definitions.total) []
    hliterals limit memory
  rw [expandTemplate, hpieces]
  rfl

end Expansion.Scope

namespace Template

open Expansion (limit Scope)

/--
A text without an offset that overflows is read, and nothing of it is lost.  On a command line it
expands to itself if it holds no references, up to where the limit cuts it.
-/
theorem exists_keeps {d : Dialect} {s : Text} (h : ¬ Overflows d s) :
    ∃ t, read d s = .ok t ∧ Keeps d s t ∧
      (d ≠ .inf → t.isPlain = true → ∀ (scope : Scope) (memory : Expansion.Memory), ∃ value,
        Text.IsCut limit s value ∧ scope.expandTemplate t memory = .ok (⟨value, false⟩, memory)) := by
  obtain ⟨t, hread⟩ := exists_ok_iff.2 fun _ herror => h (read_eq_error_iff.1 herror).2
  refine ⟨t, hread, keeps_of_read hread, fun hd hplain scope memory =>
    ⟨Text.takeBytes limit s, Text.isCut_iff.2 rfl, ?_⟩⟩
  rw [scope.expandTemplate_plain hplain, flatMap_toText hd hread hplain]

/-- Marks that complete no site, and in an INF file a percent sign that is written twice. -/
theorem exists_keeps_malformed :
    let s := "%A:b%% %1".toList
    ¬ Overflows .percent s ∧ ¬ Overflows .inf s ∧
      (∃ t, read .percent s = .ok t ∧ Keeps .percent s t ∧ t.isPlain = true ∧
        ∀ (scope : Scope) (memory : Expansion.Memory), ∃ value,
          Text.IsCut limit s value ∧ scope.expandTemplate t memory = .ok (⟨value, false⟩, memory)) ∧
      ∃ t, read .inf s = .ok t ∧ Keeps .inf s t ∧ ⟨"%%".toList, .literal ['%']⟩ ∈ t := by
  intro s
  have hpercent : read .percent s = .ok [⟨['%'], .literal ['%']⟩,
      ⟨"A:b".toList, .literal "A:b".toList⟩, ⟨['%'], .literal ['%']⟩, ⟨['%'], .literal ['%']⟩,
      ⟨[' '], .literal [' ']⟩, ⟨['%'], .literal ['%']⟩, ⟨['1'], .literal ['1']⟩] := by
    decide +kernel
  have hinf : read .inf s = .ok [⟨['%'], .literal ['%']⟩,
      ⟨"A:b".toList, .literal "A:b".toList⟩, ⟨"%%".toList, .literal ['%']⟩,
      ⟨[' '], .literal [' ']⟩, ⟨['%'], .literal ['%']⟩, ⟨['1'], .literal ['1']⟩] := by
    decide +kernel
  refine ⟨not_overflows_of_read hpercent, not_overflows_of_read hinf, ?_, ?_⟩
  · obtain ⟨t, hread, hkeeps, hexpand⟩ := exists_keeps (not_overflows_of_read hpercent)
    cases hpercent.symm.trans hread
    exact ⟨_, hread, hkeeps, rfl, hexpand (by decide) rfl⟩
  · obtain ⟨t, hread, hkeeps, -⟩ := exists_keeps (not_overflows_of_read hinf)
    cases hinf.symm.trans hread
    exact ⟨_, hread, hkeeps, List.mem_cons_of_mem _ (List.mem_cons_of_mem _ List.mem_cons_self)⟩

end Template

end Unmask
