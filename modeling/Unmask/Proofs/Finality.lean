import Unmask.Proofs.Review
import Unmask.Proofs.Tokens
import Unmask.Proofs.Valuation

/-!
# Expanding an output again

The output of a script that is not flagged mentions no name that is defined.  If it is expanded once
more, and references to undefined names are kept, then every site stays as it is but one with a
fallback: that becomes the fallback, with or without a flag.

So the output is final exactly if none of its sites has a fallback.

    expand_kept                 what becomes of a text that mentions no defined name
    flatMap_kept_eq_iff         when that is the text itself
    expand_output_eq_iff        the output of a script that is not flagged
-/

namespace Unmask

/-- What becomes of a piece whose name has no value, where such references are kept. -/
def Piece.kept (piece : Piece) : Text :=
  match piece.expr with
  | .literal text => text
  | .reference r =>
    match r.modifier with
    | .fallback text => text
    | _ => piece.token

theorem Piece.kept_of_literal {piece : Piece} {text : Text} (he : piece.expr = .literal text) :
    piece.kept = text := by
  unfold kept
  rw [he]

theorem Piece.kept_of_fallback {piece : Piece} {r : Reference} (he : piece.expr = .reference r)
    {text : Text} (h : r.modifier = .fallback text) : piece.kept = text := by
  unfold kept
  rw [he]
  dsimp only
  rw [h]

theorem Piece.kept_of_reference {piece : Piece} {r : Reference} (he : piece.expr = .reference r)
    (h : ∀ text, r.modifier ≠ .fallback text) : piece.kept = piece.token := by
  unfold kept
  rw [he]
  dsimp only
  split
  · next text htext => exact absurd htext (h text)
  · rfl

/-! ## Texts that mention no defined name -/

namespace Expansion

theorem Agrees.exists_ok {val : Valuation} {run : Except Fault (Outcome × Memory)} {r : Resolution}
    (h : Agrees val run (.ok r)) : ∃ o memory, run = .ok (o, memory) ∧ o.resolution = r := by
  cases run with
  | error fault => cases h
  | ok found => exact ⟨found.1, found.2, rfl, (Except.ok.inj h.1).symm⟩

namespace Scope

variable {scope : Scope}

/-- A name that is not defined is worth nothing, and no definition is entered for it. -/
theorem serves_undefined {name : Text} (h : scope.definitions.contains name = false)
    (val : Valuation) (descend : Descent) :
    scope.Serves val (fun _ => .ok none) descend [] name := by
  have hvalues : scope.definitions.valuesOf (Definitions.key name) = [] := by
    by_contra hne
    rw [(Definitions.contains_iff _ _).2 hne] at h
    cases h
  have hfind : scope.find [] name = .unknown := find_undefined rfl hvalues
  constructor
  · rw [hfind]
    rfl
  · intro g text hit hf
    rw [hfind] at hf
    cases hf

theorem pieceValue_kept (hkeep : scope.unknownNames = .keep) (piece : Piece) :
    scope.pieceValue (fun _ => .ok none) piece = .ok ⟨piece.kept, false⟩ := by
  unfold pieceValue Piece.kept
  cases piece.expr with
  | literal text => rfl
  | reference r =>
    simp only [referenceValue, bind, Except.bind, absent]
    cases r.modifier with
    | fallback text => rfl
    | whole | slice _ _ | replace _ _ =>
      dsimp only
      rw [if_pos hkeep]
      rfl

/-- A template is worth what its pieces are worth, if that is not too long. -/
theorem piecesValue_eq_flatMap {worth : Worth} {f : Piece → Text} {t : Template} {budget : Nat}
    (hpieces : ∀ piece ∈ t, scope.pieceValue worth piece = .ok ⟨f piece, false⟩)
    (hsize : Text.byteLength (t.flatMap f) ≤ budget) :
    scope.piecesValue worth budget t = .ok ⟨t.flatMap f, false⟩ := by
  induction t generalizing budget with
  | nil => rfl
  | cons piece pieces ih =>
    rw [List.flatMap_cons, Text.byteLength_append] at hsize
    have htail : scope.piecesValue worth (budget - Text.byteLength (f piece)) pieces =
        .ok ⟨pieces.flatMap f, false⟩ :=
      ih (fun p hp => hpieces p (List.mem_cons_of_mem _ hp)) (by omega)
    rw [piecesValue, hpieces piece List.mem_cons_self]
    simp only [bind, Except.bind]
    rw [if_neg (by omega), htail]
    rfl

/-- A text that mentions no defined name: its sites are kept, and fallbacks are put in. -/
theorem expand_kept (hkeep : scope.unknownNames = .keep) {s : Text} {t : Template}
    (hread : Template.read scope.dialect s = .ok t)
    (hundefined : ∀ r ∈ t.references, scope.definitions.contains r.name = false)
    (hsize : Text.byteLength (t.flatMap Piece.kept) ≤ limit) :
    ∃ memory, scope.expand s .empty = .ok (⟨t.flatMap Piece.kept, false⟩, memory) := by
  let val : Valuation := fun _ => .ok ⟨[], false⟩
  have hagrees : Agrees val
      (scope.expandPiecesWith (scope.descend scope.definitions.total) [] limit t .empty)
      (scope.piecesValue (fun _ => .ok none) limit t) :=
    expandPiecesWith_agrees (fun r hr => serves_undefined (hundefined r hr) val _) limit
      (sound_empty val)
  rw [piecesValue_eq_flatMap (fun piece _ => pieceValue_kept hkeep piece) hsize] at hagrees
  obtain ⟨o, memory, hrun, ho⟩ := hagrees.exists_ok
  refine ⟨memory, bind_eq_ok.2 ⟨t, hread, bind_eq_ok.2 ⟨(o, memory), hrun, ?_⟩⟩⟩
  rw [← ho]
  rfl

end Scope

end Expansion

/-! ## Where nothing changes -/

namespace Text

variable {α : Type} {f g : α → Text} {l : List α}

theorem byteLength_flatMap_le (h : ∀ a ∈ l, byteLength (f a) ≤ byteLength (g a)) :
    byteLength (l.flatMap f) ≤ byteLength (l.flatMap g) := by
  induction l with
  | nil => exact Nat.le_refl _
  | cons a l ih =>
    have hhead := h a List.mem_cons_self
    have htail := ih fun b hb => h b (List.mem_cons_of_mem _ hb)
    simp only [List.flatMap_cons, byteLength_append]
    omega

theorem byteLength_flatMap_lt (h : ∀ a ∈ l, byteLength (f a) ≤ byteLength (g a)) {a : α} (ha : a ∈ l)
    (hlt : byteLength (f a) < byteLength (g a)) :
    byteLength (l.flatMap f) < byteLength (l.flatMap g) := by
  obtain ⟨before, after, rfl⟩ := List.append_of_mem ha
  have hbefore := byteLength_flatMap_le (l := before) fun b hb => h b (by simp [hb])
  have hafter := byteLength_flatMap_le (l := after) fun b hb => h b (by simp [hb])
  simp only [List.flatMap_append, List.flatMap_cons, byteLength_append]
  omega

end Text

namespace Template

variable {d : Dialect} {s : Text} {t : Template}

/-- A piece stays as it is, or it has a fallback and gets shorter. -/
theorem kept_eq_token_or (hd : d ≠ .inf) (h : read d s = .ok t) {piece : Piece} (hp : piece ∈ t) :
    piece.kept = piece.token ∨
      ∃ r text, piece.expr = .reference r ∧ r.modifier = .fallback text ∧
        Text.byteLength piece.kept < Text.byteLength piece.token := by
  cases he : piece.expr with
  | literal text => exact .inl ((Piece.kept_of_literal he).trans (text_eq_token hd h hp he))
  | reference r =>
    by_cases hfallback : ∃ text, r.modifier = .fallback text
    · obtain ⟨text, htext⟩ := hfallback
      refine .inr ⟨r, text, rfl, htext, ?_⟩
      rw [Piece.kept_of_fallback he htext]
      exact byteLength_fallback_lt h hp he htext
    · exact .inl (Piece.kept_of_reference he (not_exists.1 hfallback))

theorem byteLength_kept_le (hd : d ≠ .inf) (h : read d s = .ok t) {piece : Piece} (hp : piece ∈ t) :
    Text.byteLength piece.kept ≤ Text.byteLength piece.token := by
  rcases kept_eq_token_or hd h hp with heq | ⟨r, text, -, -, hlt⟩
  · rw [heq]
  · exact Nat.le_of_lt hlt

theorem byteLength_flatMap_kept_le (hd : d ≠ .inf) (h : read d s = .ok t) :
    Text.byteLength (t.flatMap Piece.kept) ≤ Text.byteLength s := by
  have hle := Text.byteLength_flatMap_le fun piece (hp : piece ∈ t) => byteLength_kept_le hd h hp
  rwa [flatMap_token h] at hle

/-- Where sites are kept and fallbacks put in, a text stays as it is if it has no fallbacks. -/
theorem flatMap_kept_eq_iff (hd : d ≠ .inf) (h : read d s = .ok t) :
    t.flatMap Piece.kept = s ↔ ∀ r ∈ t.references, ∀ text, r.modifier ≠ .fallback text := by
  constructor
  · intro heq r hr text hfallback
    -- a fallback makes the whole text shorter
    obtain ⟨piece, hp, he⟩ := mem_references.1 hr
    have hpiece : Text.byteLength piece.kept < Text.byteLength piece.token := by
      rw [Piece.kept_of_fallback he hfallback]
      exact byteLength_fallback_lt h hp he hfallback
    have hlt := Text.byteLength_flatMap_lt
      (fun piece (hp : piece ∈ t) => byteLength_kept_le hd h hp) hp hpiece
    rw [heq, flatMap_token h] at hlt
    exact Nat.lt_irrefl _ hlt
  · intro hnone
    have hpieces : t.map Piece.kept = t.map Piece.token := by
      refine List.map_congr_left fun piece hp => ?_
      rcases kept_eq_token_or hd h hp with heq | ⟨r, text, he, hfallback, -⟩
      · exact heq
      · exact absurd hfallback (hnone r (mem_references.2 ⟨piece, hp, he⟩) text)
    rw [List.flatMap_def, hpieces, ← List.flatMap_def, flatMap_token h]

end Template

/-! ## Outputs -/

namespace Script

/-- What the output of a script is expanded against once more: what the run knows in its end. -/
def finalScope (settings : Settings) (s : Text) (assignments : List Assignment) : Expansion.Scope where
  definitions := assignments.foldl (fun ds a => ds.define a)
    (if settings.wellKnown then Definitions.stock .percent else .empty)
  dialect := lastDialect settings (read s)
  unknownNames := .keep

theorem lastDialect_ne_inf (settings : Settings) (script : Script) :
    lastDialect settings script ≠ .inf := by
  unfold lastDialect dialect
  split <;> exact fun h => by cases h

/--
Where the output of a script is not flagged and not too long, expanding it once more puts fallbacks
in and changes nothing else.  So it changes nothing exactly if no site of the output has a fallback.
-/
theorem expand_output_eq_iff (settings : Settings) (s : Text) (r : Revealed)
    (h : reveal settings s = .ok r) (hflag : r.isAmbiguous = false)
    (hsize : Text.byteLength r.output ≤ Expansion.limit) :
    ∃ template memory,
      Template.read (lastDialect settings (read s)) r.output = .ok template ∧
      (finalScope settings s r.assignments).expand r.output .empty =
        .ok (⟨template.flatMap Piece.kept, false⟩, memory) ∧
      (template.flatMap Piece.kept = r.output ↔
        ∀ ref ∈ template.references, ∀ text, ref.modifier ≠ .fallback text) := by
  obtain ⟨p, hrecorded, hassignments, template, hread, hrefers⟩ := exists_recorded h
  have hd := lastDialect_ne_inf settings (read s)
  have hdefinitions : p.definitions = (finalScope settings s r.assignments).definitions := by
    rw [hrecorded, hassignments]
    rfl
  have hundefined : ∀ ref ∈ template.references,
      (finalScope settings s r.assignments).definitions.contains ref.name = false := by
    intro ref href
    rw [← hdefinitions, ← Bool.not_eq_true]
    intro hdefined
    rw [hrefers.2 ⟨ref, href, hdefined⟩] at hflag
    cases hflag
  have hle := Template.byteLength_flatMap_kept_le hd hread
  have hkeep : (finalScope settings s r.assignments).unknownNames = .keep := rfl
  obtain ⟨memory, hexpand⟩ := Expansion.Scope.expand_kept hkeep hread hundefined
    (Nat.le_trans hle hsize)
  exact ⟨template, memory, hread, hexpand, Template.flatMap_kept_eq_iff hd hread⟩

/-- A site that is put together from its parts, and one that keeps its slice. -/
theorem expand_output_eq_iff_assembled :
    let settings : Settings := { unknownNames := .keep }
    let s := "set P=%& echo %P%X:-foo%P% %Y:~1%".toList
    let r : Revealed := ⟨"echo %X:-foo% %Y:~1%".toList, [⟨['P'], ['%'], 0⟩],
      [.unresolvedReference ['Y']], false⟩
    reveal settings s = .ok r ∧ r.isAmbiguous = false ∧
      Text.byteLength r.output ≤ Expansion.limit ∧
      ∃ template memory,
        Template.read (lastDialect settings (read s)) r.output = .ok template ∧
        (finalScope settings s r.assignments).expand r.output .empty =
          .ok (⟨template.flatMap Piece.kept, false⟩, memory) ∧
        (template.flatMap Piece.kept = r.output ↔
          ∀ ref ∈ template.references, ∀ text, ref.modifier ≠ .fallback text) := by
  intro settings s r
  have h : reveal settings s = .ok r := by decide +kernel
  exact ⟨h, rfl, by decide, expand_output_eq_iff settings s r h rfl (by decide)⟩

/-- An output that is not flagged and changes when it is expanded once more. -/
theorem expand_output_ne_fallback :
    ∃ r memory, reveal { unknownNames := .keep } "set P=%& echo %P%X:-foo%P%".toList = .ok r ∧
      r.isAmbiguous = false ∧ r.output = "echo %X:-foo%".toList ∧
      (finalScope { unknownNames := .keep } "set P=%& echo %P%X:-foo%P%".toList
        r.assignments).expand r.output .empty = .ok (⟨"echo foo".toList, false⟩, memory) := by
  exact ⟨⟨"echo %X:-foo%".toList, [⟨['P'], ['%'], 0⟩], [], false⟩, .empty,
    by decide +kernel, rfl, rfl, by decide +kernel⟩

end Script

end Unmask
