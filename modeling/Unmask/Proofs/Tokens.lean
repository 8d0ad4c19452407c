import Unmask.Proofs.Fragments
import Unmask.Text.ByteLength

/-!
# Tokens

Reading a text as a template loses nothing: each fragment stands at the head of what is left of the
text, so the tokens of the pieces are the text again.

    flatMap_token            the tokens of a template make up the text
    text_eq_token            on a command line, literal text is its own token
    byteLength_fallback_lt   a fallback is shorter than the site that it stands in
-/

namespace Unmask.Template

namespace Fragment

theorem Heads.isPrefix {d : Dialect} {c : Char} {s : Text} {f : Fragment} (h : Heads d c s f) :
    f.toText ≠ [] ∧ f.toText <+: c :: s := by
  cases h with
  | run hc =>
    exact ⟨List.cons_ne_nil _ _, List.cons_prefix_cons.2 ⟨rfl, List.takeWhile_prefix _⟩⟩
  | mark hc => exact ⟨List.cons_ne_nil _ _, List.cons_prefix_cons.2 ⟨rfl, List.nil_prefix⟩⟩
  | escape hd hs => exact ⟨List.cons_ne_nil _ _, s.tail, hs⟩
  | key hd hc hf =>
    obtain ⟨name, rfl, hprefix, -⟩ := infSite?_eq_some hf
    exact ⟨List.cons_ne_nil _ _, hc ▸ hprefix⟩
  | site hd hc hf =>
    obtain ⟨name, body, rfl, hprefix, -⟩ := site?_eq_some hf
    cases body <;> exact ⟨List.cons_ne_nil _ _, hprefix⟩

theorem flatMap_toText_cut (d : Dialect) (s : Text) : (cut d s).flatMap toText = s := by
  induction s using cut.induct (d := d) with
  | case1 =>
    rw [cut]
    rfl
  | case2 c s f ih =>
    obtain ⟨hne, rest, hrest⟩ := (heads_first d c s).isPrefix
    rw [Text.drop_pred_length hne hrest] at ih
    rw [cut, List.flatMap_cons, Text.drop_pred_length hne hrest, ih, hrest]

theorem token_of_read {f : Fragment} {piece : Piece} (h : read f = .ok piece) :
    piece.token = f.toText := by
  cases f with
  | plain text | escape =>
    cases h
    rfl
  | site mark name body =>
    cases body with
    | none =>
      cases h
      rfl
    | some body =>
      obtain ⟨modifier, -, h⟩ := bind_eq_ok.1 h
      cases h
      rfl

/-- Only INF files have escapes. -/
theorem escape_not_mem_cut {d : Dialect} (hd : d ≠ .inf) (s : Text) : escape ∉ cut d s := by
  intro h
  obtain ⟨c, s', hheads⟩ := exists_heads_of_mem_cut h
  cases hheads with
  | escape hd' hs => exact hd hd'
  | key hd' hc hf => exact hd hd'
  | site hd' hc hf =>
    obtain ⟨name, body, he, -⟩ := site?_eq_some hf
    cases he

theorem eq_drop_of_readModifier {body text : Text} (h : readModifier body = .ok (.fallback text)) :
    text = body.drop 1 := by
  unfold readModifier at h
  split at h
  · obtain ⟨start, -, h⟩ := bind_eq_ok.1 h
    split at h
    · cases start <;> cases h
    · obtain ⟨length, -, h⟩ := bind_eq_ok.1 h
      split at h <;> cases h
  · split at h
    · cases h
    · cases h
      rfl

end Fragment

variable {d : Dialect} {s : Text} {t : Template}

/-- The tokens of a template make up the text that it was read from. -/
theorem flatMap_token (h : read d s = .ok t) : t.flatMap Piece.token = s := by
  have htokens : t.map Piece.token = (Fragment.cut d s).map Fragment.toText :=
    map_eq_of_mapM_ok (fun _ _ => Fragment.token_of_read) h
  rw [List.flatMap_def, htokens, ← List.flatMap_def, Fragment.flatMap_toText_cut]

theorem text_eq_token (hd : d ≠ .inf) (h : read d s = .ok t) {piece : Piece} (hp : piece ∈ t)
    {text : Text} (he : piece.expr = .literal text) : text = piece.token := by
  obtain ⟨f, hf, hread⟩ := exists_of_mapM_ok h hp
  cases f with
  | plain text' =>
    cases hread
    cases he
    rfl
  | escape => exact absurd hf (Fragment.escape_not_mem_cut hd s)
  | site mark name body =>
    cases body with
    | none =>
      cases hread
      cases he
    | some body =>
      obtain ⟨modifier, -, hread⟩ := bind_eq_ok.1 hread
      cases hread
      cases he

/-- A fallback is shorter than the site that it stands in. -/
theorem byteLength_fallback_lt (h : read d s = .ok t) {piece : Piece} (hp : piece ∈ t)
    {r : Reference} (he : piece.expr = .reference r) {text : Text}
    (hfallback : r.modifier = .fallback text) :
    Text.byteLength text < Text.byteLength piece.token := by
  obtain ⟨f, -, hread⟩ := exists_of_mapM_ok h hp
  cases f with
  | plain text' | escape =>
    cases hread
    cases he
  | site mark name body =>
    cases body with
    | none =>
      cases hread
      cases he
      cases hfallback
    | some body =>
      obtain ⟨modifier, hmodifier, hread⟩ := bind_eq_ok.1 hread
      cases hread
      cases he
      dsimp only at hfallback
      rw [hfallback] at hmodifier
      rw [Fragment.eq_drop_of_readModifier hmodifier]
      have hbody : Text.byteLength (body.drop 1) ≤ Text.byteLength body := by
        rw [← List.take_append_drop 1 body, Text.byteLength_append, List.take_append_drop]
        exact Nat.le_add_left _ _
      have hmark := mark.utf8Size_pos
      simp only [Fragment.toText, List.cons_append, Text.byteLength, Text.byteLength_append]
      omega

end Unmask.Template
