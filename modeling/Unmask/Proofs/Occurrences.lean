import Mathlib.Data.List.Forall2
import Unmask.Expansion.Value

/-!
# Occurrences of a pattern

A search goes through a text from the left.  It takes the first occurrence of the pattern, goes on
behind it, and ends where there is none.  This cuts the text in one way, and both forms of a
replacement are read off that cut, whatever is put in.

    Decomposition.eq           a text is cut in one way
    replaceAll_assemble        all occurrences are replaced
    afterFirst?_part           what stands behind the first one is found
    exists_decomposition       what a replacement makes of a value
-/

namespace Unmask

namespace Text

variable {same : Char → Char → Bool} {pattern s part rest : Text}

/-! ## Occurrences -/

/-- A text is an occurrence of a pattern: both are the same, character by character. -/
def Occurs (same : Char → Char → Bool) (pattern part : Text) : Prop :=
  List.Forall₂ (fun p c => same p c = true) pattern part

/-- No occurrence starts among the first `n` characters of a text. -/
def StartsBehind (same : Char → Char → Bool) (pattern : Text) (n : Nat) (s : Text) : Prop :=
  ∀ before part behind, s = before ++ (part ++ behind) → Occurs same pattern part →
    n ≤ before.length

def Free (same : Char → Char → Bool) (pattern s : Text) : Prop :=
  ∀ before part behind, s = before ++ (part ++ behind) → ¬ Occurs same pattern part

theorem Occurs.ne_nil (h : Occurs same pattern part) (hne : pattern ≠ []) : part ≠ [] := by
  rintro rfl
  exact hne (List.forall₂_nil_right_iff.1 h)

theorem occurs_cons_iff {p : Char} : Occurs same (p :: pattern) part ↔
    ∃ c tail, same p c = true ∧ Occurs same pattern tail ∧ part = c :: tail :=
  List.forall₂_cons_left_iff

theorem dropMatch?_eq_some_iff :
    dropMatch? same pattern s = some rest ↔
      ∃ part, Occurs same pattern part ∧ s = part ++ rest := by
  induction pattern generalizing s with
  | nil =>
    rw [dropMatch?, Option.some.injEq]
    constructor
    · rintro rfl
      exact ⟨[], .nil, rfl⟩
    · rintro ⟨part, hpart, rfl⟩
      rw [List.forall₂_nil_left_iff.1 hpart, List.nil_append]
  | cons p pattern ih =>
    cases s with
    | nil =>
      rw [dropMatch?]
      constructor
      · intro h
        cases h
      · rintro ⟨part, hpart, hnil⟩
        have hpartNil := (List.append_eq_nil_iff.1 hnil.symm).1
        exact absurd hpartNil (hpart.ne_nil (List.cons_ne_nil p pattern))
    | cons c s =>
      rw [dropMatch?]
      constructor
      · intro h
        split at h
        · next hsame =>
          obtain ⟨part, hpart, rfl⟩ := ih.1 h
          exact ⟨c :: part, .cons hsame hpart, rfl⟩
        · cases h
      · rintro ⟨part, hpart, hs⟩
        obtain ⟨d, tail, hsame, htail, rfl⟩ := occurs_cons_iff.1 hpart
        obtain ⟨rfl, hrest⟩ := List.cons.inj hs
        rw [if_pos hsame]
        exact ih.2 ⟨tail, htail, hrest⟩

theorem dropMatch?_eq_none (h : StartsBehind same pattern 1 s) : dropMatch? same pattern s = none :=
  Option.eq_none_iff_forall_ne_some.2 fun rest hrest => by
    obtain ⟨part, hpart, hs⟩ := dropMatch?_eq_some_iff.1 hrest
    exact absurd (h [] part rest hs hpart) (by decide)

theorem StartsBehind.tail {n : Nat} {c : Char} (h : StartsBehind same pattern (n + 1) (c :: s)) :
    StartsBehind same pattern n s := by
  rintro before part behind rfl hpart
  exact Nat.le_of_succ_le_succ (h (c :: before) part behind rfl hpart)

theorem StartsBehind.head {n : Nat} (h : StartsBehind same pattern (n + 1) s) :
    StartsBehind same pattern 1 s :=
  fun before part behind hs hpart => Nat.le_trans (by omega) (h before part behind hs hpart)

theorem Free.startsBehind (h : Free same pattern s) :
    StartsBehind same pattern s.length (s ++ []) := by
  rw [List.append_nil]
  exact fun before part behind hs hpart => absurd hpart (h before part behind hs)

theorem exists_first (same : Char → Char → Bool) (hne : pattern ≠ []) (s : Text) :
    Free same pattern s ∨
      ∃ before part rest, s = before ++ (part ++ rest) ∧ Occurs same pattern part ∧
        StartsBehind same pattern before.length s := by
  induction s with
  | nil =>
    refine .inl fun before part behind hs hpart => hpart.ne_nil hne ?_
    exact (List.append_eq_nil_iff.1 (List.append_eq_nil_iff.1 hs.symm).2).1
  | cons c s ih =>
    by_cases hhead : ∃ part rest, c :: s = part ++ rest ∧ Occurs same pattern part
    · obtain ⟨part, rest, hs, hpart⟩ := hhead
      exact .inr ⟨[], part, rest, hs, hpart, fun _ _ _ _ _ => Nat.zero_le _⟩
    · -- an occurrence starts behind the first character, and so it starts in the rest
      have htail {before part behind : Text} (hs : c :: s = before ++ (part ++ behind))
          (hpart : Occurs same pattern part) :
          ∃ lead, before = c :: lead ∧ s = lead ++ (part ++ behind) := by
        cases before with
        | nil => exact absurd ⟨part, behind, hs, hpart⟩ hhead
        | cons d lead =>
          obtain ⟨rfl, hrest⟩ := List.cons.inj hs
          exact ⟨lead, rfl, hrest⟩
      rcases ih with hfree | ⟨before, part, rest, hs, hpart, hfirst⟩
      · refine .inl fun before part behind hs hpart => ?_
        obtain ⟨lead, -, hs⟩ := htail hs hpart
        exact hfree lead part behind hs hpart
      · refine .inr ⟨c :: before, part, rest, by rw [hs]; rfl, hpart, ?_⟩
        intro before' part' behind' hs' hpart'
        obtain ⟨lead, rfl, hrest⟩ := htail hs' hpart'
        exact Nat.succ_le_succ (hfirst lead part' behind' hrest hpart')

/-! ## Decompositions -/

/-- What stands before each occurrence and the occurrence, one after the other, and then a tail. -/
def assemble : List (Text × Text) → (tail : Text) → Text
  | [], tail => tail
  | (before, part) :: parts, tail => before ++ (part ++ assemble parts tail)

/--
Each part is an occurrence, none starts in front of it and behind the one before it, and the tail
holds none.
-/
inductive Leftmost (same : Char → Char → Bool) (pattern : Text) : List (Text × Text) → Text → Prop
  | tail {tail : Text} (free : Free same pattern tail) : Leftmost same pattern [] tail
  | part {before part tail : Text} {parts : List (Text × Text)} (occurs : Occurs same pattern part)
      (first : StartsBehind same pattern before.length (assemble ((before, part) :: parts) tail))
      (behind : Leftmost same pattern parts tail) :
      Leftmost same pattern ((before, part) :: parts) tail

/-- A text cut at the occurrences of a pattern that a search from the left finds. -/
structure Decomposition (same : Char → Char → Bool) (pattern s : Text) where
  parts : List (Text × Text)
  tail : Text
  assembled : assemble parts tail = s
  leftmost : Leftmost same pattern parts tail

namespace Decomposition

def replaced (d : Decomposition same pattern s) (replacement : Text) : Text :=
  assemble (d.parts.map fun (before, _) => (before, replacement)) d.tail

/-- `replacement` and what stands behind the first occurrence, or the text if it holds none. -/
def replacedThrough (d : Decomposition same pattern s) (replacement : Text) : Text :=
  match d.parts with
  | [] => s
  | _ :: parts => replacement ++ assemble parts d.tail

end Decomposition

theorem exists_leftmost (same : Char → Char → Bool) (hne : pattern ≠ []) (s : Text) :
    ∃ parts tail, assemble parts tail = s ∧ Leftmost same pattern parts tail := by
  induction hlength : s.length using Nat.strongRecOn generalizing s with
  | ind length ih =>
    subst hlength
    rcases exists_first same hne s with hfree | ⟨before, part, rest, hs, hpart, hfirst⟩
    · exact ⟨[], s, rfl, .tail hfree⟩
    · have hshorter : rest.length < s.length := by
        have := List.length_pos_iff.2 (hpart.ne_nil hne)
        rw [hs, List.length_append, List.length_append]
        omega
      obtain ⟨parts, tail, rfl, hbehind⟩ := ih rest.length hshorter rest rfl
      subst hs
      exact ⟨(before, part) :: parts, tail, rfl, .part hpart hfirst hbehind⟩

theorem Leftmost.unique {parts parts' : List (Text × Text)} {tail tail' : Text}
    (h : Leftmost same pattern parts tail) (h' : Leftmost same pattern parts' tail')
    (hs : assemble parts tail = assemble parts' tail') : parts = parts' ∧ tail = tail' := by
  induction h generalizing parts' with
  | tail free =>
    cases h' with
    | tail _ => exact ⟨rfl, hs⟩
    | part occurs _ _ => exact absurd occurs (free _ _ _ hs)
  | @part before part tail parts occurs first behind ih =>
    cases h' with
    | tail free => exact absurd occurs (free _ _ _ hs.symm)
    | @part before' part' _ parts' occurs' first' behind' =>
      have hlength : before.length = before'.length :=
        Nat.le_antisymm (first before' part' _ hs occurs') (first' before part _ hs.symm occurs)
      obtain ⟨rfl, hfrom⟩ := List.append_inj hs hlength
      have hpart : part.length = part'.length :=
        (List.Forall₂.length_eq occurs).symm.trans (List.Forall₂.length_eq occurs')
      obtain ⟨rfl, hbehind⟩ := List.append_inj hfrom hpart
      obtain ⟨rfl, rfl⟩ := ih behind' hbehind
      exact ⟨rfl, rfl⟩

theorem Decomposition.eq (d d' : Decomposition same pattern s) : d = d' := by
  obtain ⟨hparts, htail⟩ := d.leftmost.unique d'.leftmost (d.assembled.trans d'.assembled.symm)
  cases d
  cases d'
  cases hparts
  cases htail
  rfl

/-! ## Replacing all occurrences -/

variable {replacement : Text}

theorem replaceFrom_eq_drop (same : Char → Char → Bool) (pattern replacement : Text) (skip : Nat)
    (s : Text) :
    replaceFrom same pattern replacement skip s =
      replaceAll same pattern replacement (s.drop skip) := by
  induction skip generalizing s with
  | zero => rfl
  | succ skip ih =>
    cases s with
    | nil => rfl
    | cons c s => exact ih s

theorem replaceAll_occurs_append (hne : pattern ≠ []) (hpart : Occurs same pattern part)
    (s : Text) : replaceAll same pattern replacement (part ++ s) =
      replacement ++ replaceAll same pattern replacement s := by
  obtain ⟨c, t, ht⟩ := List.exists_cons_of_ne_nil
    (List.append_ne_nil_of_left_ne_nil (hpart.ne_nil hne) s)
  have hmatch : dropMatch? same pattern (c :: t) = some s :=
    dropMatch?_eq_some_iff.2 ⟨part, hpart, ht.symm⟩
  rw [ht, replaceAll, replaceFrom, hmatch]
  dsimp only
  rw [replaceFrom_eq_drop, List.Forall₂.length_eq hpart, drop_pred_length (hpart.ne_nil hne) ht]

theorem replaceAll_append_of_startsBehind {before : Text}
    (h : StartsBehind same pattern before.length (before ++ s)) :
    replaceAll same pattern replacement (before ++ s) =
      before ++ replaceAll same pattern replacement s := by
  induction before with
  | nil => rfl
  | cons c before ih =>
    rw [List.cons_append] at h ⊢
    rw [replaceAll, replaceFrom, dropMatch?_eq_none h.head]
    exact congrArg (c :: ·) (ih h.tail)

theorem replaceAll_assemble (hne : pattern ≠ []) {parts : List (Text × Text)} {tail : Text}
    (h : Leftmost same pattern parts tail) :
    replaceAll same pattern replacement (assemble parts tail) =
      assemble (parts.map fun (before, _) => (before, replacement)) tail := by
  induction h with
  | @tail tail free =>
    rw [assemble, ← List.append_nil tail, replaceAll_append_of_startsBehind free.startsBehind]
    rfl
  | part occurs first behind ih =>
    rw [assemble, replaceAll_append_of_startsBehind first, replaceAll_occurs_append hne occurs, ih]
    rfl

/-! ## The first occurrence -/

theorem afterFirst?_occurs_append (hne : pattern ≠ []) (hpart : Occurs same pattern part)
    (s : Text) : afterFirst? same pattern (part ++ s) = some s := by
  obtain ⟨c, t, ht⟩ := List.exists_cons_of_ne_nil
    (List.append_ne_nil_of_left_ne_nil (hpart.ne_nil hne) s)
  rw [ht, afterFirst?, dropMatch?_eq_some_iff.2 ⟨part, hpart, ht.symm⟩]

theorem afterFirst?_append_of_startsBehind {before : Text}
    (h : StartsBehind same pattern before.length (before ++ s)) :
    afterFirst? same pattern (before ++ s) = afterFirst? same pattern s := by
  induction before with
  | nil => rfl
  | cons c before ih =>
    rw [List.cons_append] at h ⊢
    rw [afterFirst?, dropMatch?_eq_none h.head]
    exact ih h.tail

theorem afterFirst?_of_free (h : Free same pattern s) : afterFirst? same pattern s = none := by
  rw [← List.append_nil s, afterFirst?_append_of_startsBehind h.startsBehind]
  rfl

theorem afterFirst?_part (hne : pattern ≠ []) {before tail : Text} {parts : List (Text × Text)}
    (h : Leftmost same pattern ((before, part) :: parts) tail) :
    afterFirst? same pattern (assemble ((before, part) :: parts) tail) =
      some (assemble parts tail) := by
  cases h with
  | part occurs first _ =>
    rw [assemble, afterFirst?_append_of_startsBehind first, afterFirst?_occurs_append hne occurs]

/-! ## Letter case -/

theorem sameFolded_iff {c d : Char} : sameFolded c d = true ↔ foldChar c = foldChar d :=
  beq_iff_eq

/-- Patterns that are the same but for letter case have the same occurrences. -/
theorem occurs_congr {pattern' : Text} (h : Occurs sameFolded pattern pattern') :
    Occurs sameFolded pattern part ↔ Occurs sameFolded pattern' part := by
  induction h generalizing part with
  | nil => exact Iff.rfl
  | cons hsame _ ih =>
    rw [occurs_cons_iff, occurs_cons_iff]
    simp only [ih, sameFolded_iff, sameFolded_iff.1 hsame]

theorem Leftmost.congr {pattern' tail : Text} {parts : List (Text × Text)}
    (hoccurs : ∀ part, Occurs same pattern part ↔ Occurs same pattern' part)
    (h : Leftmost same pattern parts tail) : Leftmost same pattern' parts tail := by
  induction h with
  | tail free =>
    exact .tail fun before part behind hs hpart =>
      free before part behind hs ((hoccurs part).2 hpart)
  | part occurs first _ ih =>
    exact .part ((hoccurs _).1 occurs)
      (fun before part behind hs hpart => first before part behind hs ((hoccurs part).2 hpart)) ih

theorem eq_of_ofNat_eq_star {n : Nat} (h : Char.ofNat n = '*') : n = 42 := by
  by_cases hvalid : n.isValidChar
  · have hchar : Char.ofNat n = Char.ofNatAux n hvalid := dif_pos hvalid
    exact congrArg Char.toNat (hchar.symm.trans h)
  · have hchar : Char.ofNat n = '\x00' := dif_neg hvalid
    exact absurd (hchar.symm.trans h) (by decide)

theorem imageIn?_ne_star {runs : List CaseRun} (hruns : runs.all (42 < ·.target) = true)
    (c : Char) : imageIn? runs c ≠ some '*' := by
  intro h
  obtain ⟨n, hn, hstar⟩ := Option.map_eq_some_iff.1 h
  obtain ⟨run, hrun, hn⟩ := List.exists_of_findSome?_eq_some hn
  have htarget := of_decide_eq_true (List.all_eq_true.1 hruns run hrun)
  have hn42 := eq_of_ofNat_eq_star hstar
  unfold CaseRun.image? at hn
  split at hn
  · cases hn
    omega
  · cases hn

theorem toLower_eq_star : ∀ n < 128, (Char.ofNat n).toLower = '*' → Char.ofNat n = '*' := by
  decide +kernel

/-- Only the star folds to the star. -/
theorem eq_star_of_foldChar {c : Char} (h : foldChar c = '*') : c = '*' := by
  unfold foldChar at h
  split at h
  · next hascii =>
    have hc := toLower_eq_star c.toNat hascii
    rw [Char.ofNat_toNat] at hc
    exact hc h
  · cases hfold : imageIn? foldRuns c with
    | some d =>
      rw [hfold] at h
      exact absurd (hfold.trans (congrArg some h)) (imageIn?_ne_star (by decide +kernel) c)
    | none =>
      rw [hfold] at h
      cases hlower : imageIn? lowercaseRuns c with
      | some d =>
        rw [hlower] at h
        exact absurd (hlower.trans (congrArg some h)) (imageIn?_ne_star (by decide +kernel) c)
      | none =>
        rw [hlower] at h
        exact h

/-- A pattern that is the same as one without a star at its head has none there either. -/
theorem Occurs.head?_ne_star (h : Occurs sameFolded pattern part)
    (hstar : pattern.head? ≠ some '*') : part.head? ≠ some '*' := by
  cases h with
  | nil => exact hstar
  | cons hsame _ =>
    intro hc
    obtain rfl := Option.some.inj hc
    have hfold : foldChar '*' = '*' := by decide
    exact hstar (congrArg some (eq_star_of_foldChar ((sameFolded_iff.1 hsame).trans hfold)))

end Text

namespace Expansion

open Text (Decomposition Occurs sameFolded)

variable {search : Text}

theorem replace_plain (hne : search ≠ []) (hstar : search.head? ≠ some '*') (replacement s : Text) :
    replace search replacement s = Text.replaceAll sameFolded search replacement s := by
  unfold replace
  split
  · exact absurd rfl hne
  · exact absurd rfl hstar
  · exact absurd rfl hstar
  · rfl

theorem replace_star (hne : search ≠ []) (replacement s : Text) :
    replace ('*' :: search) replacement s =
      ((Text.afterFirst? sameFolded search s).map (replacement ++ ·)).getD s := by
  unfold replace
  split
  · next heq => cases heq
  · next heq =>
    cases heq
    exact absurd rfl hne
  · next heq =>
    cases heq
    cases Text.afterFirst? sameFolded search s <;> rfl
  · next hother => exact absurd rfl (hother search)

/-- Both forms of a replacement are read off a decomposition of the value. -/
theorem replace_eq_of_decomposition {s : Text} (hne : search ≠ []) (hstar : search.head? ≠ some '*')
    (d : Decomposition sameFolded search s) (replacement : Text) :
    replace search replacement s = d.replaced replacement ∧
      replace ('*' :: search) replacement s = d.replacedThrough replacement := by
  obtain ⟨parts, tail, rfl, hleftmost⟩ := d
  rw [replace_plain hne hstar, replace_star hne]
  refine ⟨Text.replaceAll_assemble hne hleftmost, ?_⟩
  cases parts with
  | nil =>
    cases hleftmost with
    | tail free =>
      have hnone : Text.afterFirst? sameFolded search (Text.assemble [] tail) = none :=
        Text.afterFirst?_of_free free
      rw [hnone]
      rfl
  | cons p parts =>
    rw [Text.afterFirst?_part hne hleftmost]
    rfl

/--
A value is cut in one way at the occurrences of a search text, letter case apart.  The plain form
puts the replacement in place of each occurrence; the form with a star puts it in place of all up
to the end of the first one.  Neither depends on the letter case of the search text.
-/
theorem exists_decomposition (hne : search ≠ []) (hstar : search.head? ≠ some '*') (s : Text) :
    ∃ d : Decomposition sameFolded search s, (∀ d', d' = d) ∧
      (∀ replacement, replace search replacement s = d.replaced replacement ∧
        replace ('*' :: search) replacement s = d.replacedThrough replacement) ∧
      ∀ search', Occurs sameFolded search search' → ∀ replacement,
        replace search' replacement s = replace search replacement s ∧
        replace ('*' :: search') replacement s = replace ('*' :: search) replacement s := by
  obtain ⟨parts, tail, hs, hleftmost⟩ := Text.exists_leftmost sameFolded hne s
  let d : Decomposition sameFolded search s := ⟨parts, tail, hs, hleftmost⟩
  refine ⟨d, fun d' => d'.eq d, replace_eq_of_decomposition hne hstar d, ?_⟩
  intro search' hsearch replacement
  have hleftmost' := hleftmost.congr fun part => Text.occurs_congr hsearch
  let d' : Decomposition sameFolded search' s := ⟨parts, tail, hs, hleftmost'⟩
  obtain ⟨hplain, hthrough⟩ := replace_eq_of_decomposition hne hstar d replacement
  obtain ⟨hplain', hthrough'⟩ :=
    replace_eq_of_decomposition (hsearch.ne_nil hne) (hsearch.head?_ne_star hstar) d' replacement
  exact ⟨hplain'.trans hplain.symm, hthrough'.trans hthrough.symm⟩

/-- Occurrences that overlap: the second one starts behind the first, and letter case is ignored. -/
theorem exists_decomposition_overlapping :
    let search := "ss".toList
    let s := "xSſsSsy".toList
    let replacement := "$0s".toList
    (search ≠ [] ∧ search.head? ≠ some '*' ∧ Occurs sameFolded search "ſS".toList) ∧
      ∃ d : Decomposition sameFolded search s, (∀ d', d' = d) ∧
        d.replaced replacement = "x$0s$0ssy".toList ∧
        d.replacedThrough replacement = "$0ssSsy".toList ∧
        replace "ſS".toList replacement s = "x$0s$0ssy".toList := by
  intro search s replacement
  have hne : search ≠ [] := by decide
  have hstar : search.head? ≠ some '*' := by decide
  have hsearch : Occurs sameFolded search "ſS".toList :=
    .cons (by decide +kernel) (.cons (by decide +kernel) .nil)
  have hplain : replace search replacement s = "x$0s$0ssy".toList := by decide +kernel
  have hthrough : replace ('*' :: search) replacement s = "$0ssSsy".toList := by decide +kernel
  obtain ⟨d, hunique, hreplaced, hfolded⟩ := exists_decomposition hne hstar s
  exact ⟨⟨hne, hstar, hsearch⟩, d, hunique, (hreplaced replacement).1.symm.trans hplain,
    (hreplaced replacement).2.symm.trans hthrough, (hfolded _ hsearch replacement).1.trans hplain⟩

end Expansion

end Unmask
