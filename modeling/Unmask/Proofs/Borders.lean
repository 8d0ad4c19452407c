import Mathlib.Data.List.Basic
import Unmask.Proofs.Tokens

/-!
# Sites at a border

Where a text is put together from two parts, its sites are those of the parts, as long as each site
that starts in the first part also ends there.  A site holds no line break and ends with a mark, so
none goes over a line break, and none ends in text without marks.

    site?_eq_some_iff     what stands behind a mark where a site is found
    sites_append          the sites of two parts
    sites_append_break    the sites in front of a line break and behind it
-/

namespace Unmask

namespace Template.Fragment

/-! ## What a site is -/

/-- A name, and perhaps a body, that make a site between two marks. -/
structure Closed (mark : Char) (name : Text) (body : Option Text) : Prop where
  isName : isName mark name = true
  isNameChar : ∀ c ∈ name, isNameChar c = true
  body : ∀ b ∈ body, isModifierBody b = true ∧ ∀ c ∈ b, (c != mark && !Text.isBreak c) = true

variable {mark : Char} {d : Dialect}

/-- Whether a site is found depends on nothing behind it. -/
theorem Closed.site?_append {name : Text} {body : Option Text} (hmark : isMark d mark = true)
    (h : Closed mark name body) {s rest : Text}
    (hs : mark :: s = (site mark name body).toText ++ rest) :
    site? mark s = some (site mark name body) := by
  have hname := isNameChar_of_isMark hmark
  unfold site?
  cases body with
  | none =>
    obtain rfl : s = name ++ mark :: rest := by
      simpa only [toText, List.cons_append, List.append_assoc, List.nil_append,
        List.cons.injEq, true_and] using hs
    obtain ⟨htake, hdrop⟩ := takeWhile_append_mark h.isNameChar hname rest
    simp only [htake, hdrop, h.isName, if_true]
  | some b =>
    obtain rfl : s = name ++ ':' :: (b ++ mark :: rest) := by
      simpa only [toText, List.cons_append, List.append_assoc, List.nil_append,
        List.cons.injEq, true_and] using hs
    obtain ⟨hmodifier, hbody⟩ := h.body b rfl
    obtain ⟨htake, hdrop⟩ := takeWhile_append_mark h.isNameChar
      (by decide : Template.isNameChar ':' = false) (b ++ mark :: rest)
    have hcolon : ':' ≠ mark := by
      rintro rfl
      cases d <;> cases hmark
    have hstop : (mark != mark && !Text.isBreak mark) = false := by simp
    obtain ⟨htake', -⟩ := takeWhile_append_mark hbody hstop rest
    simp only [htake, hdrop, h.isName, if_true, if_neg hcolon, htake', hmodifier, List.drop_left,
      List.head?_cons, beq_self_eq_true, Bool.and_self]

theorem site?_eq_some_iff (hmark : isMark d mark = true) {s : Text} {f : Fragment} :
    site? mark s = some f ↔
      ∃ name body rest, f = site mark name body ∧ mark :: s = f.toText ++ rest ∧
        Closed mark name body := by
  constructor
  · intro h
    obtain ⟨name, body, rfl, ⟨rest, hrest⟩, hname, hchars⟩ := site?_eq_some h
    refine ⟨name, body, rest, rfl, hrest.symm, hname, hchars, fun b hb => ?_⟩
    -- the body was found as the longest run without the mark and without line breaks
    unfold site? at h
    dsimp only at h
    split at h
    · split at h
      · cases h
      · split at h
        · cases h
          cases hb
        · split at h
          · split at h
            · next hcond =>
              cases h
              cases hb
              exact ⟨(Bool.and_eq_true_iff.1 hcond).1, fun c hc => List.mem_takeWhile_imp
                (p := fun c => c != mark && !Text.isBreak c) hc⟩
            · cases h
          · cases h
    · cases h
  · rintro ⟨name, body, rest, rfl, hs, hclosed⟩
    exact hclosed.site?_append hmark hs

/-- What a site looks like: it is not empty, holds no line break, and ends with a mark. -/
theorem toText_of_site? (hmark : isMark d mark = true) {s : Text} {f : Fragment}
    (h : site? mark s = some f) :
    f.toText ≠ [] ∧ (∀ c ∈ f.toText, Text.isBreak c = false) ∧
      ∃ c ∈ f.toText.getLast?, isMark d c = true := by
  obtain ⟨name, body, rest, rfl, -, hclosed⟩ := (site?_eq_some_iff hmark).1 h
  have hbreak : Text.isBreak mark = false := by
    cases hb : Text.isBreak mark with
    | false => rfl
    | true =>
      simp only [Text.isBreak, Bool.or_eq_true, beq_iff_eq] at hb
      rcases hb with rfl | rfl <;> cases d <;> cases hmark
  have hname : ∀ c ∈ name, Text.isBreak c = false := by
    intro c hc
    have hchar := hclosed.isNameChar c hc
    cases hb : Text.isBreak c with
    | false => rfl
    | true =>
      simp only [Text.isBreak, Bool.or_eq_true, beq_iff_eq] at hb
      rcases hb with rfl | rfl <;> exact absurd hchar (by decide)
  cases body with
  | none =>
    refine ⟨List.cons_ne_nil _ _, fun c hc => ?_, mark, List.getLast?_concat, hmark⟩
    simp only [toText, List.cons_append, List.mem_cons, List.mem_append, List.not_mem_nil,
      or_false] at hc
    rcases hc with rfl | hc | rfl
    · exact hbreak
    · exact hname c hc
    · exact hbreak
  | some b =>
    obtain ⟨-, hbody⟩ := hclosed.body b rfl
    refine ⟨List.cons_ne_nil _ _, fun c hc => ?_, mark, List.getLast?_concat, hmark⟩
    simp only [toText, List.cons_append, List.append_assoc, List.mem_cons, List.mem_append,
      List.not_mem_nil, or_false] at hc
    rcases hc with rfl | hc | rfl | hc | rfl
    · exact hbreak
    · exact hname c hc
    · decide
    · simpa using (Bool.and_eq_true_iff.1 (hbody c hc)).2
    · exact hbreak

/-! ## The sites of a text -/

def isSite : Fragment → Bool
  | site _ _ _ => true
  | _ => false

def sites (d : Dialect) (s : Text) : List Fragment :=
  (cut d s).filter isSite

theorem sites_nil : sites d [] = [] := by
  rw [sites, cut]
  rfl

theorem sites_dropWhile (d : Dialect) (s : Text) :
    sites d (s.dropWhile fun c => !isMark d c) = sites d s := by
  cases s with
  | nil => rfl
  | cons c s =>
    by_cases hc : isMark d c = true
    · rw [List.dropWhile_cons_of_neg (by simp [hc])]
    · have hfirst : first d c s = plain (c :: s.takeWhile fun c => !isMark d c) := by
        unfold first
        rw [if_neg hc]
      have hdrop : s.drop ((plain (c :: s.takeWhile fun c => !isMark d c)).toText.length - 1) =
          s.dropWhile fun c => !isMark d c :=
        Text.drop_pred_length (c := c) (List.cons_ne_nil _ _)
          (congrArg (c :: ·) List.takeWhile_append_dropWhile)
      rw [List.dropWhile_cons_of_pos (by simp [hc]), sites, sites, cut, hfirst, hdrop]
      rfl

theorem sites_cons_plain {c : Char} (hc : isMark d c = false) (s : Text) :
    sites d (c :: s) = sites d s := by
  rw [← sites_dropWhile d (c :: s), List.dropWhile_cons_of_pos (by simp [hc]), sites_dropWhile]

/-- A mark that opens no site is plain text. -/
theorem sites_cons_none (hd : d ≠ .inf) (hmark : isMark d mark = true) {s : Text}
    (h : site? mark s = none) : sites d (mark :: s) = sites d s := by
  have hfirst : first d mark s = plain [mark] := by
    unfold first
    rw [if_pos hmark]
    cases d with
    | inf => exact absurd rfl hd
    | percent | delayed => rw [h, Option.getD_none]
  rw [sites, cut, hfirst]
  rfl

theorem sites_cons_some (hd : d ≠ .inf) (hmark : isMark d mark = true) {s rest : Text} {f : Fragment}
    (h : site? mark s = some f) (hs : mark :: s = f.toText ++ rest) :
    sites d (mark :: s) = f :: sites d rest := by
  obtain ⟨name, body, -, rfl, -⟩ := (site?_eq_some_iff hmark).1 h
  have hfirst : first d mark s = site mark name body := by
    unfold first
    rw [if_pos hmark]
    cases d with
    | inf => exact absurd rfl hd
    | percent | delayed => rw [h, Option.getD_some]
  have hdrop := Text.drop_pred_length (toText_of_site? hmark h).1 hs.symm
  rw [sites, cut, hfirst, hdrop]
  rfl

/-- A site of a text was found behind some mark. -/
theorem exists_site?_of_mem_sites (hd : d ≠ .inf) {s : Text} {f : Fragment} (h : f ∈ sites d s) :
    ∃ mark rest, isMark d mark = true ∧ site? mark rest = some f := by
  obtain ⟨hmem, hsite⟩ := List.mem_filter.1 h
  obtain ⟨c, rest, hheads⟩ := exists_heads_of_mem_cut hmem
  cases hheads with
  | run hc => cases hsite
  | mark hc => cases hsite
  | escape hd' hs => exact absurd hd' hd
  | key hd' hc hf => exact absurd hd' hd
  | site hd' hc hf => exact ⟨c, rest, hc, hf⟩

/-! ## Two parts -/

/-- Where each site that starts in the first part ends there, the sites are those of the parts. -/
theorem sites_append (hd : d ≠ .inf) {x y : Text}
    (h : ∀ f ∈ sites d (x ++ y), ∀ u, u ≠ [] → u <:+ x → f.toText <+: u ++ y → f.toText <+: u) :
    sites d (x ++ y) = sites d x ++ sites d y := by
  -- by induction on the length, as behind a site the rest of the first part is what is left
  generalize hn : x.length = n
  induction n using Nat.strongRecOn generalizing x with
  | ind n ih =>
    cases x with
    | nil => rw [sites_nil, List.nil_append, List.nil_append]
    | cons c u =>
      rw [List.length_cons] at hn
      rw [List.cons_append] at h ⊢
      by_cases hc : isMark d c = true
      · cases hs : site? c u with
        | some f =>
          obtain ⟨name, body, rest, hf, hu, hclosed⟩ := (site?_eq_some_iff hc).1 hs
          have hu' : c :: (u ++ y) = f.toText ++ (rest ++ y) := by
            rw [← List.cons_append, hu, List.append_assoc]
          have hs' : site? c (u ++ y) = some f :=
            (site?_eq_some_iff hc).2 ⟨name, body, rest ++ y, hf, hu', hclosed⟩
          rw [sites_cons_some hd hc hs hu, sites_cons_some hd hc hs' hu'] at *
          have hsuffix : rest <:+ c :: u := ⟨f.toText, hu.symm⟩
          have hlength : rest.length < n := by
            have hpos := List.length_pos_iff.2 (toText_of_site? hc hs).1
            have hadd := congrArg List.length hu
            rw [List.length_cons, List.length_append] at hadd
            omega
          rw [ih rest.length hlength (fun g hg v hv hvx => h g (List.mem_cons_of_mem _ hg) v hv
            (hvx.trans hsuffix)) rfl, List.cons_append]
        | none =>
          have hs' : site? c (u ++ y) = none := by
            by_contra hne
            obtain ⟨f, hf⟩ := Option.ne_none_iff_exists'.1 hne
            obtain ⟨name, body, rest, rfl, hu, hclosed⟩ := (site?_eq_some_iff hc).1 hf
            have hmem : site c name body ∈ sites d (c :: (u ++ y)) := by
              rw [sites_cons_some hd hc hf hu]
              exact List.mem_cons_self
            obtain ⟨rest', hrest'⟩ := h _ hmem (c :: u) (List.cons_ne_nil _ _) (List.suffix_refl _)
              ⟨rest, hu.symm⟩
            rw [(site?_eq_some_iff hc).2 ⟨name, body, rest', rfl, hrest'.symm, hclosed⟩] at hs
            cases hs
          rw [sites_cons_none hd hc hs, sites_cons_none hd hc hs'] at *
          exact ih u.length (by omega) (fun f hf v hv hvx => h f hf v hv
            (hvx.trans (List.suffix_cons c u))) rfl
      · have hc' : isMark d c = false := by simpa using hc
        rw [sites_cons_plain hc' u, sites_cons_plain hc' (u ++ y)] at *
        exact ih u.length (by omega) (fun f hf v hv hvx => h f hf v hv
          (hvx.trans (List.suffix_cons c u))) rfl

/-- A site does not end in text without marks. -/
theorem isPrefix_of_plain {t u p : Text} (h : t <+: u ++ p) (hlast : ∃ c ∈ t.getLast?, isMark d c = true)
    (hp : ∀ c ∈ p, isMark d c = false) : t <+: u := by
  rcases List.prefix_or_prefix_of_prefix h (List.prefix_append u p) with hu | ⟨v, rfl⟩
  · exact hu
  · have hv := (List.prefix_append_right_inj u).1 h
    obtain ⟨c, hc, hmark⟩ := hlast
    by_cases hne : v = []
    · simp [hne]
    · rw [List.getLast?_append_of_ne_nil u hne] at hc
      rw [hp c (hv.mem (List.mem_of_getLast? hc))] at hmark
      cases hmark

theorem sites_plain_append {p : Text} (hp : ∀ c ∈ p, isMark d c = false) (x : Text) :
    sites d (p ++ x) = sites d x := by
  induction p with
  | nil => rfl
  | cons c p ih =>
    rw [List.cons_append, sites_cons_plain (hp c List.mem_cons_self),
      ih fun a ha => hp a (List.mem_cons_of_mem c ha)]

theorem sites_append_plain (hd : d ≠ .inf) {p : Text} (hp : ∀ c ∈ p, isMark d c = false) (x : Text) :
    sites d (x ++ p) = sites d x := by
  have hborder := sites_append hd (x := x) (y := p) fun f hf u _ _ h => by
    obtain ⟨mark, rest, hmark, hsite⟩ := exists_site?_of_mem_sites hd hf
    exact isPrefix_of_plain h (toText_of_site? hmark hsite).2.2 hp
  have hnone := sites_plain_append hp []
  rw [List.append_nil, sites_nil] at hnone
  rw [hborder, hnone, List.append_nil]

/-- No site goes over a line break. -/
theorem sites_append_break (hd : d ≠ .inf) {c : Char} (hc : Text.isBreak c = true) (x y : Text) :
    sites d (x ++ c :: y) = sites d x ++ sites d y := by
  have hplain : isMark d c = false := by
    simp only [Text.isBreak, Bool.or_eq_true, beq_iff_eq] at hc
    rcases hc with rfl | rfl <;> cases d <;> rfl
  rw [sites_append hd, sites_cons_plain hplain]
  intro f hf u _ _ h
  obtain ⟨mark, rest, hmark, hsite⟩ := exists_site?_of_mem_sites hd hf
  refine Text.isPrefix_of_notMem h fun hmem => ?_
  rw [(toText_of_site? hmark hsite).2.1 c hmem] at hc
  cases hc

/-- A text without marks that no site holds parts the sites. -/
theorem sites_append_between (hd : d ≠ .inf) {p : Text} (hp : ∀ c ∈ p, isMark d c = false)
    {x y : Text} (h : ∀ f ∈ sites d (x ++ (p ++ y)), ¬ p <:+: f.toText) :
    sites d (x ++ (p ++ y)) = sites d x ++ sites d y := by
  rw [sites_append hd, sites_plain_append hp]
  intro f hf u _ _ hprefix
  obtain ⟨mark, rest, hmark, hsite⟩ := exists_site?_of_mem_sites hd hf
  rw [← List.append_assoc] at hprefix
  rcases List.prefix_or_prefix_of_prefix hprefix (List.prefix_append (u ++ p) y) with hfits | hholds
  · exact isPrefix_of_plain hfits (toText_of_site? hmark hsite).2.2 hp
  · exact absurd ((List.suffix_append u p).isInfix.trans hholds.isInfix) (h f hf)

/-! ## What is read -/

/-- What is picked from the references of a text depends on its sites alone. -/
theorem map_filterMap_read {α : Type} {pick : Piece → Option α}
    (hpick : ∀ piece text, piece.expr = .literal text → pick piece = none) (d : Dialect) (s : Text) :
    (Template.read d s).map (List.filterMap pick) =
      ((sites d s).mapM read).map (List.filterMap pick) := by
  unfold Template.read sites
  -- a piece in front of the others adds what is picked from it
  have hcons : ∀ (piece : Piece) (rest : Except Fault Template),
      (rest >>= fun pieces => pure (piece :: pieces)).map (List.filterMap pick) =
        (rest.map (List.filterMap pick)).map fun picked => (pick piece).toList ++ picked := by
    intro piece rest
    cases rest with
    | error fault => rfl
    | ok pieces =>
      refine congrArg Except.ok ?_
      rw [List.filterMap_cons]
      cases pick piece <;> rfl
  induction cut d s with
  | nil => rfl
  | cons f fragments ih =>
    have hliteral : ∀ piece text, read f = .ok piece → piece.expr = .literal text →
        ((f :: fragments).mapM read).map (List.filterMap pick) =
          ((fragments.filter isSite).mapM read).map (List.filterMap pick) := by
      intro piece text hread hexpr
      rw [List.mapM_cons, hread, ← ih]
      refine (hcons piece (fragments.mapM read)).trans ?_
      rw [hpick piece text hexpr]
      cases fragments.mapM read <;> rfl
    cases f with
    | plain text => exact hliteral ⟨text, .literal text⟩ text rfl rfl
    | escape => exact hliteral ⟨escape.toText, .literal ['%']⟩ ['%'] rfl rfl
    | site mark name body =>
      rw [List.filter_cons_of_pos rfl, List.mapM_cons, List.mapM_cons]
      cases read (site mark name body) with
      | error fault => rfl
      | ok piece => exact (hcons piece _).trans ((congrArg _ ih).trans (hcons piece _).symm)

end Template.Fragment

end Unmask
