import Unmask.Proofs.Borders
import Unmask.Proofs.Overflows

/-!
# Texts of one site

A text reads as a single reference exactly if it is one site: a mark, a name with perhaps a body
behind a colon, and the mark again.  So the token of a reference reads as that reference, wherever
it was found.

With delayed expansion a site stands between percent signs or between exclamation marks.  What
holds neither and may start a name between percent signs spells the same reference between both.

    readsAs_iff                        the texts that read as a single reference
    read_token                         the tokens of references do
    readsAs_percent_iff_exclamation    both kinds of marks take the same between them
-/

namespace Unmask.Template

namespace Fragment

variable {d : Dialect} {s name between : Text} {mark : Char} {body : Option Text}

/-! ## Names and bodies -/

def inside (name : Text) : (body : Option Text) → Text
  | none => name
  | some body => name ++ ':' :: body

def modifierOf (body : Option Text) : Except Fault Modifier :=
  body.elim (.ok .whole) readModifier

theorem toText_site (mark : Char) (name : Text) (body : Option Text) :
    (site mark name body).toText = mark :: inside name body ++ [mark] := by
  cases body with
  | none => rfl
  | some body => simp [toText, inside]

theorem read_site (mark : Char) (name : Text) (body : Option Text) :
    read (site mark name body) =
      (modifierOf body).map fun m => ⟨(site mark name body).toText, .reference ⟨name, m⟩⟩ := by
  cases body with
  | none => rfl
  | some body =>
    rw [read, modifierOf, Option.elim_some]
    cases readModifier body <;> rfl

theorem read_site_eq_error_iff {fault : Fault} :
    read (site mark name body) = .error fault ↔ modifierOf body = .error fault := by
  rw [read_site]
  cases modifierOf body with
  | error fault' => simp [Except.map]
  | ok m => simp [Except.map]

theorem modifierOf_of_read {piece : Piece} {r : Reference}
    (h : read (site mark name body) = .ok piece) (he : piece.expr = .reference r) :
    name = r.name ∧ modifierOf body = .ok r.modifier := by
  rw [read_site] at h
  cases hm : modifierOf body with
  | error fault =>
    rw [hm] at h
    cases h
  | ok m =>
    rw [hm] at h
    cases h
    cases he
    exact ⟨rfl, rfl⟩

theorem closed_of_mem_cut (hd : d ≠ .inf) (h : site mark name body ∈ cut d s) :
    isMark d mark = true ∧ Closed mark name body := by
  have hsite : site mark name body ∈ sites d s := List.mem_filter.2 ⟨h, rfl⟩
  obtain ⟨mark', rest, hmark, hfound⟩ := exists_site?_of_mem_sites hd hsite
  obtain ⟨name', body', -, heq, -, hclosed⟩ := (site?_eq_some_iff hmark).1 hfound
  cases heq
  exact ⟨hmark, hclosed⟩

theorem cut_closed (hd : d ≠ .inf) (hmark : isMark d mark = true) (h : Closed mark name body) :
    cut d (site mark name body).toText = [site mark name body] := by
  obtain ⟨s, hs⟩ : ∃ s, (site mark name body).toText = mark :: s := ⟨_, toText_site mark name body⟩
  have hfirst : first d mark s = site mark name body := by
    have hsite : site? mark s = some (site mark name body) :=
      h.site?_append hmark ((List.append_nil _).trans hs).symm
    unfold first
    rw [if_pos hmark]
    cases d with
    | inf => exact absurd rfl hd
    | percent | delayed => rw [hsite, Option.getD_some]
  have hdrop : s.drop ((site mark name body).toText.length - 1) = [] := by
    simp [hs]
  rw [hs, cut, hfirst, hdrop, cut]

/-! ## Between two marks -/

/-- A text that goes on behind a mark, and a longer one that ends with the first such mark. -/
theorem eq_of_append_mark {inner rest : Text} (hmark : mark ∉ between)
    (h : between ++ [mark] = inner ++ mark :: rest) : between = inner ∧ rest = [] := by
  rcases List.append_eq_append_iff.1 h with ⟨more, rfl, hmore⟩ | ⟨more, rfl, hmore⟩
  · cases more with
    | nil => exact ⟨(List.append_nil _).symm, (List.cons.inj hmore).2.symm⟩
    | cons c more => simp at hmore
  · cases more with
    | nil => exact ⟨List.append_nil _, (List.cons.inj hmore).2⟩
    | cons c more =>
      obtain rfl : mark = c := (List.cons.inj hmore).1
      exact absurd (List.mem_append_right inner List.mem_cons_self) hmark

theorem notMem_of_isMark (hmark : isMark d mark = true)
    (hbetween : ∀ c ∈ between, isMark d c = false) : mark ∉ between := by
  intro h
  rw [hbetween mark h] at hmark
  cases hmark

/-- Between two marks without another one there is at most one site, which takes them both. -/
theorem site_mem_cut_iff (hd : d ≠ .inf) (hmark : isMark d mark = true)
    (hbetween : ∀ c ∈ between, isMark d c = false) {mark' : Char} :
    site mark' name body ∈ cut d (mark :: between ++ [mark]) ↔
      mark' = mark ∧ between = inside name body ∧ Closed mark name body := by
  have hmem : site mark' name body ∈ cut d (mark :: between ++ [mark]) ↔
      site mark' name body ∈ sites d (mark :: (between ++ [mark])) :=
    ⟨fun h => List.mem_filter.2 ⟨h, rfl⟩, fun h => (List.mem_filter.1 h).1⟩
  rw [hmem]
  constructor
  · intro h
    cases hsite : site? mark (between ++ [mark]) with
    | none =>
      rw [sites_cons_none hd hmark hsite, sites_plain_append hbetween,
        sites_cons_none hd hmark rfl, sites_nil] at h
      cases h
    | some f =>
      obtain ⟨name', body', rest, rfl, htext, hclosed⟩ := (site?_eq_some_iff hmark).1 hsite
      have hinside : between ++ [mark] = inside name' body' ++ mark :: rest := by
        rw [toText_site] at htext
        simpa using htext
      obtain ⟨hbetween, rfl⟩ := eq_of_append_mark (notMem_of_isMark hmark hbetween) hinside
      rw [sites_cons_some hd hmark hsite htext, sites_nil] at h
      cases List.mem_singleton.1 h
      exact ⟨rfl, hbetween, hclosed⟩
  · rintro ⟨rfl, rfl, hclosed⟩
    refine List.mem_filter.2 ⟨?_, rfl⟩
    rw [← List.cons_append, ← toText_site, cut_closed hd hmark hclosed]
    exact List.mem_singleton_self _

end Fragment

open Fragment (Closed inside modifierOf site)

variable {d : Dialect} {s between : Text} {mark : Char} {t : Template} {r : Reference}

/-! ## Texts that read as one reference -/

/-- A text reads as a single reference. -/
def ReadsAs (d : Dialect) (s : Text) (r : Reference) : Prop :=
  ∃ piece, read d s = .ok [piece] ∧ piece.expr = .reference r

theorem ReadsAs.unique {r' : Reference} (h : ReadsAs d s r) (h' : ReadsAs d s r') : r = r' := by
  obtain ⟨piece, hread, he⟩ := h
  obtain ⟨piece', hread', he'⟩ := h'
  cases hread.symm.trans hread'
  exact Expr.reference.inj (he.symm.trans he')

theorem read_closed (hd : d ≠ .inf) (hmark : isMark d mark = true) {name : Text}
    {body : Option Text} (h : Closed mark name body) {m : Modifier} (hm : modifierOf body = .ok m) :
    read d (site mark name body).toText =
      .ok [⟨(site mark name body).toText, .reference ⟨name, m⟩⟩] := by
  rw [read, Fragment.cut_closed hd hmark h, List.mapM_cons, Fragment.read_site, hm]
  rfl

/-- A text reads as a single reference exactly if it is one site. -/
theorem readsAs_iff (hd : d ≠ .inf) : ReadsAs d s r ↔
    ∃ mark body, isMark d mark = true ∧ Closed mark r.name body ∧
      s = (site mark r.name body).toText ∧ modifierOf body = .ok r.modifier := by
  constructor
  · rintro ⟨piece, hread, he⟩
    -- the text was cut into as many fragments as there are pieces
    have hone := map_eq_of_mapM_ok (g := fun _ => ()) (k := fun _ => ()) (fun _ _ _ => rfl) hread
    obtain ⟨fragment, hcut⟩ : ∃ fragment, Fragment.cut d s = [fragment] :=
      List.length_eq_one_iff.1 (by simpa using (congrArg List.length hone).symm)
    have htext := Fragment.flatMap_toText_cut d s
    obtain ⟨fragment', hmem, hread⟩ := exists_of_mapM_ok hread List.mem_cons_self
    rw [hcut] at hmem htext
    obtain rfl := List.mem_singleton.1 hmem
    cases fragment' with
    | plain text | escape =>
      cases hread
      cases he
    | site mark name body =>
      obtain ⟨rfl, hmodifier⟩ := Fragment.modifierOf_of_read hread he
      obtain ⟨hmark, hclosed⟩ := Fragment.closed_of_mem_cut hd (hcut ▸ List.mem_singleton_self _)
      exact ⟨mark, body, hmark, hclosed, by simpa using htext.symm, hmodifier⟩
  · rintro ⟨mark, body, hmark, hclosed, rfl, hmodifier⟩
    exact ⟨_, read_closed hd hmark hclosed hmodifier, rfl⟩

/-- Between two marks stand a name and a body. -/
theorem readsAs_marked_iff (hd : d ≠ .inf) (hmark : isMark d mark = true) :
    ReadsAs d (mark :: between ++ [mark]) r ↔
      ∃ body, between = inside r.name body ∧ Closed mark r.name body ∧
        modifierOf body = .ok r.modifier := by
  rw [readsAs_iff hd]
  constructor
  · rintro ⟨mark', body, -, hclosed, htext, hmodifier⟩
    rw [Fragment.toText_site] at htext
    obtain ⟨rfl, hinside⟩ := List.cons.inj htext
    exact ⟨body, List.append_cancel_right hinside, hclosed, hmodifier⟩
  · rintro ⟨body, rfl, hclosed, hmodifier⟩
    exact ⟨mark, body, hmark, hclosed, (Fragment.toText_site mark r.name body).symm, hmodifier⟩

theorem closed_of_mem (hd : d ≠ .inf) (h : read d s = .ok t) {piece : Piece} (hp : piece ∈ t)
    (he : piece.expr = .reference r) :
    ∃ mark body, isMark d mark = true ∧ Closed mark r.name body ∧
      piece.token = (site mark r.name body).toText ∧ modifierOf body = .ok r.modifier := by
  obtain ⟨fragment, hmem, hread⟩ := exists_of_mapM_ok h hp
  cases fragment with
  | plain text | escape =>
    cases hread
    cases he
  | site mark name body =>
    obtain ⟨rfl, hmodifier⟩ := Fragment.modifierOf_of_read hread he
    obtain ⟨hmark, hclosed⟩ := Fragment.closed_of_mem_cut hd hmem
    exact ⟨mark, body, hmark, hclosed, Fragment.token_of_read hread, hmodifier⟩

theorem read_token (hd : d ≠ .inf) (h : read d s = .ok t) {token : Text}
    (hp : ⟨token, .reference r⟩ ∈ t) : read d token = .ok [⟨token, .reference r⟩] := by
  obtain ⟨mark, body, hmark, hclosed, htoken, hmodifier⟩ := closed_of_mem hd h hp rfl
  dsimp only at htoken
  rw [htoken]
  exact read_closed hd hmark hclosed hmodifier

/-! ## Both kinds of marks -/

/-- A name and perhaps a body as they may stand between two marks of either kind. -/
structure Fills (name : Text) (body : Option Text) : Prop where
  ne_nil : name ≠ []
  isNameChar : ∀ c ∈ name, isNameChar c = true
  body : ∀ b ∈ body, isModifierBody b = true ∧ ∀ c ∈ b, Text.isBreak c = false

/-- Without marks, and with a start that names between percent signs may have, the mark is no matter. -/
theorem closed_iff_fills {name : Text} {body : Option Text} (hmark : mark ∉ inside name body)
    (hhead : ∀ c ∈ (inside name body).head?, ¬ (c.isDigit = true ∨ c = '~' ∨ c = '*')) :
    Closed mark name body ↔ Fills name body := by
  have hname : isName mark name = true ↔ name ≠ [] := by
    cases name with
    | nil => simp [isName]
    | cons c name =>
      have hc : ¬ (c.isDigit = true ∨ c = '~' ∨ c = '*') := by
        cases body <;> exact hhead c rfl
      simp [isName, not_or.1 hc, not_or.1 (not_or.1 hc).2]
  have hbody : ∀ b ∈ body, ((∀ c ∈ b, (c != mark && !Text.isBreak c) = true) ↔
      ∀ c ∈ b, Text.isBreak c = false) := by
    rintro b rfl
    refine forall₂_congr fun c hc => ?_
    have hne : c ≠ mark := by
      rintro rfl
      exact hmark (List.mem_append_right name (List.mem_cons_of_mem _ hc))
    simp [hne]
  constructor
  · intro h
    exact ⟨hname.1 h.isName, h.isNameChar, fun b hb => ⟨(h.body b hb).1, (hbody b hb).1 (h.body b hb).2⟩⟩
  · intro h
    exact ⟨hname.2 h.ne_nil, h.isNameChar, fun b hb => ⟨(h.body b hb).1, (hbody b hb).2 (h.body b hb).2⟩⟩

section
variable (hd : d ≠ .inf) (hmark : isMark d mark = true)
  (hbetween : ∀ c ∈ between, isMark d c = false)
  (hhead : ∀ c ∈ between.head?, ¬ (c.isDigit = true ∨ c = '~' ∨ c = '*'))
include hd hmark hbetween hhead

theorem readsAs_fills_iff : ReadsAs d (mark :: between ++ [mark]) r ↔
    ∃ body, between = inside r.name body ∧ Fills r.name body ∧ modifierOf body = .ok r.modifier := by
  rw [readsAs_marked_iff hd hmark]
  refine exists_congr fun body => and_congr_right ?_
  rintro rfl
  rw [closed_iff_fills (Fragment.notMem_of_isMark hmark hbetween) hhead]

theorem read_fills_eq_error_iff {fault : Fault} :
    read d (mark :: between ++ [mark]) = .error fault ↔
      ∃ name body, between = inside name body ∧ Fills name body ∧ modifierOf body = .error fault := by
  have hclosed {name body} (h : between = inside name body) :
      Closed mark name body ↔ Fills name body := by
    subst h
    exact closed_iff_fills (Fragment.notMem_of_isMark hmark hbetween) hhead
  rw [read, mapM_read_eq_error]
  constructor
  · rintro ⟨fragment, hmem, hfault⟩
    cases fragment with
    | plain text | escape => cases hfault
    | site mark' name body =>
      obtain ⟨rfl, hinside, h⟩ := (Fragment.site_mem_cut_iff hd hmark hbetween).1 hmem
      exact ⟨name, body, hinside, (hclosed hinside).1 h, Fragment.read_site_eq_error_iff.1 hfault⟩
  · rintro ⟨name, body, hinside, h, hfault⟩
    exact ⟨site mark name body, (Fragment.site_mem_cut_iff hd hmark hbetween).2
      ⟨rfl, hinside, (hclosed hinside).2 h⟩, Fragment.read_site_eq_error_iff.2 hfault⟩

end

/--
A text without percent signs and exclamation marks reads as a single reference between the ones
exactly if it does between the others, and as the same one, which is what its name and its body say.
What stops the reading of one stops that of the other.
-/
theorem readsAs_percent_iff_exclamation {between : Text} (hmarks : ∀ c ∈ between, c ≠ '%' ∧ c ≠ '!')
    (hhead : ∀ c ∈ between.head?, ¬ (c.isDigit = true ∨ c = '~' ∨ c = '*')) :
    (∀ r, (ReadsAs .delayed ('%' :: between ++ ['%']) r ↔
        ReadsAs .delayed ('!' :: between ++ ['!']) r) ∧
      (ReadsAs .delayed ('%' :: between ++ ['%']) r ↔
        ∃ body, between = inside r.name body ∧ Fills r.name body ∧
          modifierOf body = .ok r.modifier)) ∧
    ∀ fault, read .delayed ('%' :: between ++ ['%']) = .error fault ↔
      read .delayed ('!' :: between ++ ['!']) = .error fault := by
  have hbetween : ∀ c ∈ between, isMark .delayed c = false := fun c hc => by
    simp [isMark, hmarks c hc]
  have hreads : ∀ mark, isMark .delayed mark = true → ∀ r, ReadsAs .delayed (mark :: between ++ [mark]) r ↔
      ∃ body, between = inside r.name body ∧ Fills r.name body ∧ modifierOf body = .ok r.modifier :=
    fun mark hmark r => readsAs_fills_iff (by decide) hmark hbetween hhead
  have hfaults : ∀ mark, isMark .delayed mark = true → ∀ fault,
      read .delayed (mark :: between ++ [mark]) = .error fault ↔
        ∃ name body, between = inside name body ∧ Fills name body ∧ modifierOf body = .error fault :=
    fun mark hmark fault => read_fills_eq_error_iff (by decide) hmark hbetween hhead
  refine ⟨fun r => ⟨?_, hreads '%' rfl r⟩, fun fault => ?_⟩
  · rw [hreads '%' rfl, hreads '!' rfl]
  · rw [hfaults '%' rfl, hfaults '!' rfl]

/-- A slice whose offsets are written in hexadecimal and in octal. -/
theorem readsAs_percent_iff_exclamation_slice :
    let between := "A(x):~ 0x1,-010".toList
    let r : Reference := ⟨"A(x)".toList, .slice 1 (some (-8))⟩
    (∀ c ∈ between, c ≠ '%' ∧ c ≠ '!') ∧
      (∀ c ∈ between.head?, ¬ (c.isDigit = true ∨ c = '~' ∨ c = '*')) ∧
      (ReadsAs .delayed ('%' :: between ++ ['%']) r ↔
        ReadsAs .delayed ('!' :: between ++ ['!']) r) ∧
      ReadsAs .delayed ('!' :: between ++ ['!']) r := by
  intro between r
  have hmarks : ∀ c ∈ between, c ≠ '%' ∧ c ≠ '!' := by
    have hall : between.all (fun c => c != '%' && c != '!') = true := by decide +kernel
    intro c hc
    simpa using List.all_eq_true.1 hall c hc
  have hhead : ∀ c ∈ between.head?, ¬ (c.isDigit = true ∨ c = '~' ∨ c = '*') := by
    intro c hc
    obtain rfl : 'A' = c := Option.some.inj hc
    decide
  refine ⟨hmarks, hhead, ((readsAs_percent_iff_exclamation hmarks hhead).1 r).1, ?_⟩
  exact ⟨⟨'!' :: between ++ ['!'], .reference r⟩, by decide +kernel, rfl⟩

end Unmask.Template
