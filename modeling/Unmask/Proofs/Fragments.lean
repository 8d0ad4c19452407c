import Mathlib.Data.List.TakeWhile
import Unmask.Proofs.Outcomes
import Unmask.Template.Fragment

/-!
# Sites

What a site looks like in each dialect, and that a name which some site holds can be written as a
site without a modifier.

    site?_eq_some        what is found behind a mark
    heads_first          what can stand at the head of a text
    named_of_mem_cut     the names of sites
    cut_bare             a bare site is one fragment
    read_bare            and it reads as one reference
-/

namespace Unmask.Template

theorem mem_references {t : Template} {r : Reference} :
    r ∈ t.references ↔ ∃ piece ∈ t, piece.expr = .reference r := by
  unfold references
  rw [List.mem_filterMap]
  constructor
  · rintro ⟨piece, hp, he⟩
    refine ⟨piece, hp, ?_⟩
    cases hx : piece.expr with
    | literal text => rw [hx] at he; cases he
    | reference r' =>
      rw [hx] at he
      rw [Option.some.inj he]
  · rintro ⟨piece, hp, he⟩
    exact ⟨piece, hp, by rw [he]; rfl⟩

/-- A reference was read from a site with its name and, in the body, its modifier. -/
theorem site_of_mem_read {d : Dialect} {s : Text} {t : Template} (h : read d s = .ok t)
    {r : Reference} (hr : r ∈ t.references) :
    ∃ mark body, Fragment.site mark r.name body ∈ Fragment.cut d s ∧
      body.elim (.ok .whole) Fragment.readModifier = .ok r.modifier := by
  obtain ⟨piece, hp, he⟩ := mem_references.1 hr
  obtain ⟨fragment, hf, hread⟩ := exists_of_mapM_ok h hp
  cases fragment with
  | plain text =>
    cases hread
    cases he
  | escape =>
    cases hread
    cases he
  | site mark name body =>
    cases body with
    | none =>
      cases hread
      cases he
      exact ⟨mark, none, hf, rfl⟩
    | some body =>
      obtain ⟨modifier, hmodifier, hread⟩ := bind_eq_ok.1 hread
      cases hread
      cases he
      exact ⟨mark, some body, hf, hmodifier⟩

/-! ## The names of sites -/

namespace Fragment

/-- A name that can stand between two of the marks in a dialect. -/
def Named (d : Dialect) (mark : Char) (name : Text) : Prop :=
  isMark d mark = true ∧
    match d with
    | .inf => name ≠ [] ∧ ∀ c ∈ name, isKeyChar c = true
    | _ => isName mark name = true ∧ ∀ c ∈ name, isNameChar c = true

/-- What is found behind a mark is a site, which stands at the head of the text. -/
theorem site?_eq_some {mark : Char} {s : Text} {f : Fragment} (h : site? mark s = some f) :
    ∃ name body, f = site mark name body ∧ f.toText <+: mark :: s ∧
      isName mark name = true ∧ ∀ c ∈ name, isNameChar c = true := by
  have hs : s.takeWhile isNameChar ++ s.dropWhile isNameChar = s := List.takeWhile_append_dropWhile
  have hall : ∀ c ∈ s.takeWhile isNameChar, isNameChar c = true := fun c hc =>
    List.mem_takeWhile_imp hc
  unfold site? at h
  dsimp only at h
  split at h
  · next hname =>
    split at h
    · cases h
    · next c rest hdrop =>
      rw [hdrop] at hs
      split at h
      · next hc =>
        cases h
        subst hc
        refine ⟨_, none, rfl, ⟨rest, ?_⟩, hname, hall⟩
        simp only [toText, List.cons_append, List.append_assoc, List.nil_append, hs]
      · split at h
        · next hcolon =>
          split at h
          · next hcond =>
            cases h
            subst hcolon
            -- the body ends in front of the mark that closes the site
            have hclose := (Bool.and_eq_true_iff.1 hcond).2
            obtain ⟨rest', hrest'⟩ := List.head?_eq_some_iff.1 (beq_iff_eq.1 hclose)
            have hbody := List.prefix_iff_eq_append.1
              (List.takeWhile_prefix (fun c => c != mark && !Text.isBreak c) (l := rest))
            rw [hrest'] at hbody
            refine ⟨_, some _, rfl, ⟨rest', ?_⟩, hname, hall⟩
            simp only [toText, List.cons_append, List.append_assoc, List.nil_append, hbody, hs]
          · cases h
        · cases h
  · cases h

theorem infSite?_eq_some {s : Text} {f : Fragment} (h : infSite? s = some f) :
    ∃ name, f = site '%' name none ∧ f.toText <+: '%' :: s ∧
      name ≠ [] ∧ ∀ c ∈ name, isKeyChar c = true := by
  have hall : ∀ c ∈ s.takeWhile isKeyChar, isKeyChar c = true := fun c hc =>
    List.mem_takeWhile_imp hc
  unfold infSite? at h
  dsimp only at h
  split at h
  · next hcond =>
    cases h
    have hclose := (Bool.and_eq_true_iff.1 hcond).2
    obtain ⟨rest, hrest⟩ := List.head?_eq_some_iff.1 (beq_iff_eq.1 hclose)
    have hname := List.prefix_iff_eq_append.1 (List.takeWhile_prefix isKeyChar (l := s))
    rw [hrest] at hname
    simp only [Bool.and_eq_true, Bool.not_eq_true', List.isEmpty_eq_false_iff] at hcond
    refine ⟨_, rfl, ⟨rest, ?_⟩, hcond.1, hall⟩
    simp only [toText, List.cons_append, List.append_assoc, List.nil_append, hname]
  · cases h

/-- What can stand at the head of the text `c :: s`. -/
inductive Heads (d : Dialect) (c : Char) (s : Text) : Fragment → Prop
  /-- The text up to the next mark. -/
  | run (hc : isMark d c = false) : Heads d c s (plain (c :: s.takeWhile fun c => !isMark d c))
  /-- A mark that opens nothing. -/
  | mark (hc : isMark d c = true) : Heads d c s (plain [c])
  | escape (hd : d = .inf) (hs : '%' :: '%' :: s.tail = c :: s) : Heads d c s escape
  | key {f : Fragment} (hd : d = .inf) (hc : c = '%') (hf : infSite? s = some f) : Heads d c s f
  | site {f : Fragment} (hd : d ≠ .inf) (hc : isMark d c = true) (hf : site? c s = some f) :
      Heads d c s f

theorem heads_first (d : Dialect) (c : Char) (s : Text) : Heads d c s (first d c s) := by
  unfold first
  split
  · next hc =>
    cases d with
    | inf =>
      obtain rfl : c = '%' := by simpa [isMark] using hc
      dsimp only
      split
      · next hs =>
        obtain ⟨rest, rfl⟩ := List.head?_eq_some_iff.1 (beq_iff_eq.1 hs)
        exact .escape rfl rfl
      · cases hsite : infSite? s with
        | none => exact .mark hc
        | some f => exact .key rfl rfl hsite
    | percent | delayed =>
      dsimp only
      cases hsite : site? c s with
      | none => exact .mark hc
      | some f => exact .site (by decide) hc hsite
  · next hc => exact .run (Bool.eq_false_iff.2 hc)

theorem exists_heads_of_mem_cut {d : Dialect} {s : Text} {fragment : Fragment}
    (h : fragment ∈ cut d s) : ∃ c s', Heads d c s' fragment := by
  induction s using cut.induct (d := d) with
  | case1 =>
    rw [cut] at h
    cases h
  | case2 c s _ ih =>
    rw [cut] at h
    rcases List.mem_cons.1 h with rfl | hin
    · exact ⟨c, s, heads_first d c s⟩
    · exact ih hin

theorem named_of_mem_cut {d : Dialect} {s name : Text} {mark : Char} {body : Option Text}
    (h : site mark name body ∈ cut d s) : Named d mark name := by
  obtain ⟨c, s', hheads⟩ := exists_heads_of_mem_cut h
  cases hheads with
  | key hd hc hf =>
    obtain ⟨name', he, -, hname⟩ := infSite?_eq_some hf
    cases he
    subst hd
    exact ⟨rfl, hname⟩
  | site hd hc hf =>
    obtain ⟨name', body', he, -, hname⟩ := site?_eq_some hf
    cases he
    cases d with
    | inf => exact absurd rfl hd
    | percent | delayed => exact ⟨hc, hname⟩

theorem body_eq_none_of_mem_cut {s name : Text} {mark : Char} {body : Option Text}
    (h : site mark name body ∈ cut .inf s) : body = none := by
  obtain ⟨c, s', hheads⟩ := exists_heads_of_mem_cut h
  cases hheads with
  | key hd hc hf =>
    obtain ⟨name', he, -⟩ := infSite?_eq_some hf
    cases he
    rfl
  | site hd hc hf => exact absurd rfl hd

theorem plain_of_mem_cut {d : Dialect} {s text : Text} (h : plain text ∈ cut d s) :
    (∃ mark, text = [mark]) ∨ ∀ c ∈ text, isMark d c = false := by
  obtain ⟨c, s', hheads⟩ := exists_heads_of_mem_cut h
  cases hheads with
  | run hc =>
    refine .inr (List.forall_mem_cons.2 ⟨hc, fun a ha => ?_⟩)
    simpa using List.mem_takeWhile_imp ha
  | mark hc => exact .inl ⟨c, rfl⟩
  | key hd hc hf =>
    obtain ⟨name, he, -⟩ := infSite?_eq_some hf
    cases he
  | site hd hc hf =>
    obtain ⟨name, body, he, -⟩ := site?_eq_some hf
    cases he

theorem isNameChar_of_isMark {d : Dialect} {c : Char} (h : isMark d c = true) :
    isNameChar c = false := by
  have hc : c = '%' ∨ c = '!' := by
    cases d <;> simp only [isMark, Bool.or_eq_true, beq_iff_eq] at h
    · exact Or.inl h
    · exact h
    · exact Or.inl h
  rcases hc with rfl | rfl <;> decide

theorem takeWhile_append_mark {p : Char → Bool} {name : Text} (hname : ∀ c ∈ name, p c = true)
    {mark : Char} (hmark : p mark = false) (s : Text) :
    (name ++ mark :: s).takeWhile p = name ∧ (name ++ mark :: s).dropWhile p = mark :: s := by
  rw [List.takeWhile_append_of_pos hname, List.dropWhile_append_of_pos hname,
    List.takeWhile_cons_of_neg (by simp [hmark]), List.dropWhile_cons_of_neg (by simp [hmark]),
    List.append_nil]
  exact ⟨rfl, rfl⟩

/-- A run up to a character ends with that character, if anything follows it. -/
theorem eq_of_dropWhile {s rest : Text} {stop c : Char} (h : s.dropWhile (· != stop) = c :: rest) :
    c = stop := by
  have hhead := List.head?_dropWhile_not (· != stop) s
  rw [h] at hhead
  simpa using hhead

theorem first_bare {d : Dialect} {mark : Char} {name : Text} (h : Named d mark name) (s : Text) :
    first d mark (name ++ mark :: s) = site mark name none := by
  obtain ⟨hmark, hname⟩ := h
  unfold first
  rw [if_pos hmark]
  cases d with
  | inf =>
    obtain ⟨hne, hall⟩ := hname
    obtain rfl : mark = '%' := by simpa [isMark] using hmark
    obtain ⟨c, rest, rfl⟩ := List.exists_cons_of_ne_nil hne
    have hc : c ≠ '%' := by
      rintro rfl
      exact absurd (hall '%' List.mem_cons_self) (by decide)
    obtain ⟨htake, -⟩ := takeWhile_append_mark hall (by decide : isKeyChar '%' = false) s
    simp only [infSite?]
    rw [htake]
    simp [hc]
  | percent | delayed =>
    obtain ⟨hisName, hall⟩ := hname
    obtain ⟨htake, hdrop⟩ := takeWhile_append_mark hall (isNameChar_of_isMark hmark) s
    simp only [site?]
    rw [htake, hdrop, if_pos hisName]
    simp

/-- A bare site is one fragment, and what follows it is cut on its own. -/
theorem cut_bare_append {d : Dialect} {mark : Char} {name : Text} (h : Named d mark name)
    (s : Text) : cut d (mark :: name ++ mark :: s) = site mark name none :: cut d s := by
  have hdrop : (name ++ mark :: s).drop ((site mark name none).toText.length - 1) = s := by
    refine Text.drop_pred_length (c := mark) (List.cons_ne_nil _ _) ?_
    simp only [toText, List.cons_append, List.append_assoc, List.nil_append]
  rw [List.cons_append, cut, first_bare h, hdrop]

/-- Text without marks is one fragment up to the next mark. -/
theorem cut_plain_append {d : Dialect} {text : Text} (hne : text ≠ [])
    (htext : ∀ c ∈ text, isMark d c = false) {s : Text} (hs : ∀ c ∈ s.head?, isMark d c = true) :
    cut d (text ++ s) = plain text :: cut d s := by
  obtain ⟨c, text, rfl⟩ := List.exists_cons_of_ne_nil hne
  have htake : (text ++ s).takeWhile (fun c => !isMark d c) = text := by
    rw [List.takeWhile_append_of_pos fun a ha => by simp [htext a (List.mem_cons_of_mem _ ha)]]
    cases s with
    | nil => exact List.append_nil _
    | cons a s => rw [List.takeWhile_cons_of_neg (by simp [hs a rfl]), List.append_nil]
  have hfirst : first d c (text ++ s) = plain (c :: text) := by
    unfold first
    rw [htext c List.mem_cons_self, if_neg Bool.false_ne_true, htake]
  have hdrop : (text ++ s).drop ((plain (c :: text)).toText.length - 1) = s :=
    Text.drop_pred_length (c := c) hne rfl
  rw [List.cons_append, cut, hfirst, hdrop]

theorem cut_bare {d : Dialect} {mark : Char} {name : Text} (h : Named d mark name) :
    cut d (mark :: name ++ [mark]) = [site mark name none] := by
  rw [cut_bare_append h, cut]

/-- A letter in front of a bare site is plain text. -/
theorem cut_letter_bare {d : Dialect} {mark : Char} {name : Text} (h : Named d mark name) :
    cut d ('x' :: mark :: name ++ [mark]) = [plain ['x'], site mark name none] := by
  have hx : ∀ c ∈ ['x'], isMark d c = false := by
    intro c hc
    rw [List.mem_singleton.1 hc]
    cases d <;> rfl
  have hplain := cut_plain_append (List.cons_ne_nil _ _) hx (s := mark :: name ++ [mark])
    fun c hc => Option.some.inj hc ▸ h.1
  exact hplain.trans (congrArg _ (cut_bare h))

end Fragment

theorem read_bare {d : Dialect} {mark : Char} {name : Text} (h : Fragment.Named d mark name) :
    read d (mark :: name ++ [mark]) = .ok [⟨mark :: name ++ [mark], .reference ⟨name, .whole⟩⟩] := by
  unfold read
  rw [Fragment.cut_bare h]
  rfl

theorem read_letter_bare {d : Dialect} {mark : Char} {name : Text} (h : Fragment.Named d mark name) :
    read d ('x' :: mark :: name ++ [mark]) =
      .ok [⟨['x'], .literal ['x']⟩, ⟨mark :: name ++ [mark], .reference ⟨name, .whole⟩⟩] := by
  unfold read
  rw [Fragment.cut_letter_bare h]
  rfl

end Unmask.Template
