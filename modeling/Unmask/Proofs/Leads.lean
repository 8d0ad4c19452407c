import Unmask.Proofs.Openings

/-!
# What a lead looks at

An item of a lead is read up to the end of a run of path characters and one character further, which
has to be a blank.  So a lead that ends in front of some border is the same whatever stands behind
the border, as long as no path goes over it.

    first?_append_congr    one item
    lead_append_congr      the whole lead
-/

namespace Unmask.Script

namespace LeadItem

def isPath (c : Char) : Bool :=
  isPathChar c || c == '\\'

/-- Two texts that an item in front of them cannot tell apart. -/
structure EndsAlike (y y' : Text) : Prop where
  left : ∀ c ∈ y.head?, isPath c = false
  right : ∀ c ∈ y'.head?, isPath c = false
  blankFollows : blankFollows y = blankFollows y'

/-- In front of a blank, what stands behind the blank does not count. -/
theorem endsAlike_blank {c : Char} (hc : Text.isBlank c = true) (z z' : Text) :
    EndsAlike (c :: z) (c :: z') := by
  have hpath : isPath c = false := by
    simp only [Text.isBlank, Bool.or_eq_true, beq_iff_eq] at hc
    rcases hc with rfl | rfl <;> decide
  exact ⟨fun a ha => Option.some.inj ha ▸ hpath, fun a ha => Option.some.inj ha ▸ hpath, rfl⟩

variable {y y' : Text}

/-- A run that does not go on behind a border ends there. -/
theorem takeWhile_append_border {p : Char → Bool} (hy : ∀ c ∈ y.head?, p c = false) (s : Text) :
    (s ++ y).takeWhile p = s.takeWhile p := by
  induction s with
  | nil =>
    cases y with
    | nil => rfl
    | cons c y => exact List.takeWhile_cons_of_neg (by simp [hy c rfl])
  | cons c s ih =>
    rw [List.cons_append]
    by_cases hc : p c = true
    · rw [List.takeWhile_cons_of_pos hc, List.takeWhile_cons_of_pos hc, ih]
    · rw [List.takeWhile_cons_of_neg hc, List.takeWhile_cons_of_neg hc]

theorem blankFollows_drop (h : EndsAlike y y') {n : Nat} {s : Text} (hn : n ≤ s.length) :
    blankFollows ((s ++ y).drop n) = blankFollows ((s ++ y').drop n) := by
  rw [List.drop_append_of_le_length hn, List.drop_append_of_le_length hn]
  cases s.drop n with
  | nil => exact h.blankFollows
  | cons c rest => rfl

theorem switch?_value (letter : Char) (s : Text) :
    switch? (letter :: ':' :: s) =
      if letter.isAlpha then
        if !(s.takeWhile Char.isAlphanum).isEmpty &&
            blankFollows (s.drop (s.takeWhile Char.isAlphanum).length) then
          some (switch letter (some (s.takeWhile Char.isAlphanum)))
        else none
      else none :=
  rfl

theorem switch?_bare (letter : Char) {s : Text} (hs : s.head? ≠ some ':') :
    switch? (letter :: s) =
      if letter.isAlpha && blankFollows s then some (switch letter none) else none := by
  unfold switch?
  dsimp only
  cases hletter : letter.isAlpha with
  | false => rfl
  | true =>
    rw [if_pos rfl, Bool.true_and]
    split
    · exact absurd rfl hs
    · rfl

theorem switch?_append_congr (h : EndsAlike y y') (s : Text) :
    switch? (s ++ y) = switch? (s ++ y') := by
  have hnone : ∀ {y : Text}, (∀ c ∈ y.head?, isPath c = false) → switch? y = none := by
    intro y hy
    cases y with
    | nil => rfl
    | cons c y =>
      have hpath := hy c rfl
      simp only [isPath, isPathChar, Char.isAlphanum, Bool.or_eq_false_iff] at hpath
      unfold switch?
      dsimp only
      rw [if_neg (by simp [hpath])]
  cases s with
  | nil => exact (hnone h.left).trans (hnone h.right).symm
  | cons letter s =>
    rw [List.cons_append, List.cons_append]
    by_cases hcolon : ∃ t, s = ':' :: t
    · obtain ⟨t, rfl⟩ := hcolon
      have halnum : ∀ {y : Text}, (∀ c ∈ y.head?, isPath c = false) →
          ∀ c ∈ y.head?, c.isAlphanum = false := by
        intro y hy c hc
        have hpath := hy c hc
        simp only [isPath, isPathChar, Bool.or_eq_false_iff] at hpath
        exact hpath.1.1.1.1.1
      rw [List.cons_append, List.cons_append, switch?_value, switch?_value,
        takeWhile_append_border (halnum h.left), takeWhile_append_border (halnum h.right),
        blankFollows_drop h (List.takeWhile_prefix _).length_le]
    · have hs : ∀ {y : Text}, (∀ c ∈ y.head?, isPath c = false) → (s ++ y).head? ≠ some ':' := by
        intro y hy hhead
        cases s with
        | nil => exact absurd (hy ':' hhead) (by decide)
        | cons c s => exact hcolon ⟨s, congrArg (· :: s) (Option.some.inj hhead)⟩
      have hblank := blankFollows_drop h (Nat.zero_le s.length)
      rw [List.drop_zero, List.drop_zero] at hblank
      rw [switch?_bare letter (hs h.left), switch?_bare letter (hs h.right), hblank]

theorem interpreter?_append_congr (h : EndsAlike y y') (s : Text) :
    interpreter? (s ++ y) = interpreter? (s ++ y') := by
  unfold interpreter?
  have hpath := takeWhile_append_border h.left s
  have hpath' := takeWhile_append_border h.right s
  unfold isPath at hpath hpath'
  dsimp only
  rw [hpath, hpath', blankFollows_drop h (List.takeWhile_prefix _).length_le]

theorem first?_append_congr (h : EndsAlike y y') (c : Char) (s : Text) :
    first? c (s ++ y) = first? c (s ++ y') := by
  unfold first?
  rw [switch?_append_congr h, ← List.cons_append, ← List.cons_append, interpreter?_append_congr h]

end LeadItem

theorem lead_eq_nil_of_leadText {s : Text} (h : leadText (lead s) = []) : lead s = [] := by
  cases s with
  | nil => rw [lead]
  | cons c s =>
    cases hfirst : LeadItem.first? c s with
    | none => rw [lead, hfirst]
    | some item =>
      rw [lead, hfirst] at h
      exact absurd (List.append_eq_nil_iff.1 h).1 (LeadItem.first?_eq_some hfirst).1

/-- A lead that ends in front of a border is the same whatever stands behind it. -/
theorem lead_append_congr {y y' : Text} (h : LeadItem.EndsAlike y y')
    (hnil : lead y = [] → lead y' = []) {s : Text} (hends : leadText (lead (s ++ y)) <+: s) :
    lead (s ++ y') = lead (s ++ y) := by
  -- by induction on the length, as each item leaves a shorter text in front of the border
  generalize hn : s.length = n
  induction n using Nat.strongRecOn generalizing s with
  | ind n ih =>
    cases s with
    | nil =>
      rw [List.nil_append] at hends ⊢
      have hlead : lead y = [] := lead_eq_nil_of_leadText (List.prefix_nil.1 hends)
      rw [List.nil_append, hnil hlead, hlead]
    | cons c s =>
      rw [List.cons_append] at hends ⊢
      have hfirst := LeadItem.first?_append_congr h c s
      rw [List.cons_append, lead, lead, ← hfirst]
      cases hitem : LeadItem.first? c (s ++ y) with
      | none => rfl
      | some item =>
        rw [lead, hitem] at hends
        have hne := (LeadItem.first?_eq_some hitem).1
        have hpos := List.length_pos_iff.2 hne
        have hitem' : item.toText <+: c :: s := (List.prefix_append _ _).trans hends
        have hle := hitem'.length_le
        rw [List.length_cons] at hle hn
        have hdrop : ∀ z : Text, (s ++ z).drop (item.toText.length - 1) =
            s.drop (item.toText.length - 1) ++ z := fun z =>
          List.drop_append_of_le_length (by omega)
        obtain ⟨rest, hrest⟩ := hitem'
        have hs : s.drop (item.toText.length - 1) = rest := Text.drop_pred_length hne hrest
        dsimp only at hends ⊢
        rw [hdrop, hs] at hends
        rw [hdrop, hdrop, hs]
        have hends' : leadText (lead (rest ++ y)) <+: rest := by
          rw [← hrest] at hends
          exact (List.prefix_append_right_inj item.toText).1 hends
        have hlength : rest.length < n := by
          have hadd := congrArg List.length hrest
          rw [List.length_append, List.length_cons] at hadd
          omega
        rw [ih rest.length hlength hends' rfl]

end Unmask.Script
