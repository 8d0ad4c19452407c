import Unmask.Proofs.Occurrences

/-!
# Replacing a pattern in a text with gaps

A text with gaps stands for the texts that arise when something is put into the gaps.  With the
pattern in its gaps the text may hold further occurrences of the pattern, and then replacing all of
them is not the same as putting the replacement into the gaps.

The pattern is unbordered, so that its occurrences lie apart: each is a gap, or it is made of
characters that stand side by side in the text.

    gapped_induction         a text with gaps, from one occurrence of the pattern to the next
    replaceAll_fill_iff      when replacing the pattern is putting the replacement into the gaps
-/

namespace Unmask.Text

/-! ## The first occurrence -/

variable {pattern replacement s rest : Text} {c : Char}

theorem length_lt_append (hne : pattern ≠ []) (s : Text) : s.length < (pattern ++ s).length := by
  have := List.length_pos_iff.2 hne
  rw [List.length_append]
  omega

theorem occurs_beq_iff {part : Text} : Occurs (· == ·) pattern part ↔ pattern = part := by
  unfold Occurs
  simp only [beq_iff_eq]
  rw [List.forall₂_eq_eq_eq]

theorem replaceAll_append (hne : pattern ≠ []) (s : Text) :
    replaceAll (· == ·) pattern replacement (pattern ++ s) =
      replacement ++ replaceAll (· == ·) pattern replacement s :=
  replaceAll_occurs_append hne (occurs_beq_iff.2 rfl) s

theorem replaceAll_cons (h : ¬ pattern <+: c :: s) :
    replaceAll (· == ·) pattern replacement (c :: s) =
      c :: replaceAll (· == ·) pattern replacement s := by
  have hfirst : StartsBehind (· == ·) pattern 1 ([c] ++ s) := by
    intro before part behind hs hpart
    cases before with
    | nil => exact absurd ⟨behind, by rw [occurs_beq_iff.1 hpart]; exact hs.symm⟩ h
    | cons d before => exact Nat.succ_le_succ (Nat.zero_le _)
  exact replaceAll_append_of_startsBehind hfirst

/-! ## Unbordered patterns -/

/-- What a pattern starts with it does not end with, the whole of it and nothing apart. -/
def Unbordered (pattern : Text) : Prop :=
  ∀ start border behind, pattern = start ++ border → pattern = border ++ behind →
    start = [] ∨ border = []

/-- No occurrence starts inside another one. -/
theorem Unbordered.eq_nil {pattern start border s : Text} (hp : Unbordered pattern)
    (hborder : pattern = start ++ border) (h : border <+: pattern ++ s) :
    start = [] ∨ border = [] := by
  have hhead : border <+: pattern := by
    refine List.prefix_of_prefix_length_le h (List.prefix_append pattern s) ?_
    rw [hborder, List.length_append]
    exact Nat.le_add_left ..
  obtain ⟨behind, hbehind⟩ := hhead
  exact hp start border behind hborder hbehind.symm

/-- Two occurrences are the same or lie apart. -/
theorem Unbordered.split {pattern : Text} (hp : Unbordered pattern) {s before behind : Text}
    (h : pattern ++ s = before ++ (pattern ++ behind)) :
    before = [] ∨ ∃ between, before = pattern ++ between := by
  rcases List.append_eq_append_iff.1 h with ⟨between, hbetween, -⟩ | ⟨border, hborder, hs⟩
  · exact .inr ⟨between, hbetween⟩
  · rcases hp.eq_nil hborder ⟨s, hs.symm⟩ with rfl | rfl
    · exact .inl rfl
    · exact .inr ⟨[], by rw [hborder, List.append_nil, List.append_nil]⟩

/-! ## Gaps -/

abbrev Gapped := List (Option Char)

def fill (s : Text) : Gapped → Text
  | [] => []
  | some c :: m => c :: fill s m
  | none :: m => s ++ fill s m

/-- Wherever the text with the pattern in its gaps holds the pattern, there is a gap. -/
def OnlyGaps (pattern : Text) (m : Gapped) : Prop :=
  ∀ before behind, fill pattern m = before ++ (pattern ++ behind) →
    ∃ front back, m = front ++ none :: back ∧ fill pattern front = before

theorem fill_append (s : Text) (m n : Gapped) : fill s (m ++ n) = fill s m ++ fill s n := by
  induction m with
  | nil => rfl
  | cons c m ih =>
    cases c with
    | none => rw [List.cons_append, fill, fill, ih, List.append_assoc]
    | some c => rw [List.cons_append, fill, fill, ih, List.cons_append]

theorem fill_map_some (s t : Text) : fill s (t.map some) = t := by
  induction t with
  | nil => rfl
  | cons c t ih => rw [List.map_cons, fill, ih]

section

variable (hne : pattern ≠ []) (hp : Unbordered pattern)

include hp

/-- The end of an occurrence that starts with a character holds no gap. -/
theorem exists_map_some {start border : Text} (hborder : pattern = start ++ border)
    (hstart : start ≠ []) {m : Gapped} (h : border <+: fill pattern m) :
    ∃ n, m = border.map some ++ n := by
  induction border generalizing start m with
  | nil => exact ⟨m, rfl⟩
  | cons c border ih =>
    cases m with
    | nil => cases List.prefix_nil.1 h
    | cons d m =>
      cases d with
      | some d =>
        obtain ⟨rfl, hrest⟩ := List.cons_prefix_cons.1 h
        have hborder' : pattern = (start ++ [c]) ++ border := by rw [hborder, List.append_cons]
        obtain ⟨n, rfl⟩ := ih hborder' (List.append_ne_nil_of_right_ne_nil start (by simp)) hrest
        exact ⟨n, rfl⟩
      | none =>
        -- the pattern in the gap would start inside the occurrence
        rcases hp.eq_nil hborder h with rfl | hnil
        · exact absurd rfl hstart
        · cases hnil

include hne

/-- A text with gaps, from one occurrence of the pattern to the next. -/
theorem gapped_induction {P : Gapped → Prop} (nil : P []) (gap : ∀ m, P m → P (none :: m))
    (plain : ∀ c m, ¬ pattern <+: c :: fill pattern m → P m → P (some c :: m))
    (occurrence : ∀ m, P m → P (pattern.map some ++ m)) (m : Gapped) : P m := by
  induction hlength : m.length using Nat.strongRecOn generalizing m with
  | ind length ih =>
    subst hlength
    cases m with
    | nil => exact nil
    | cons c m =>
      cases c with
      | none => exact gap m (ih m.length (Nat.lt_succ_self _) m rfl)
      | some c =>
        by_cases hhead : pattern <+: c :: fill pattern m
        · obtain ⟨d, tail, rfl⟩ := List.exists_cons_of_ne_nil hne
          obtain ⟨rfl, htail⟩ := List.cons_prefix_cons.1 hhead
          have hborder : d :: tail = [d] ++ tail := rfl
          obtain ⟨n, rfl⟩ := exists_map_some hp hborder (List.cons_ne_nil d []) htail
          refine occurrence n (ih n.length ?_ n rfl)
          simp only [List.length_cons, List.length_append]
          omega
        · exact plain c m hhead (ih m.length (Nat.lt_succ_self _) m rfl)

/-! ## Occurrences that are gaps -/

omit hp in
theorem onlyGaps_nil : OnlyGaps pattern [] := by
  intro before behind h
  have hnil := (List.append_eq_nil_iff.1 (List.append_eq_nil_iff.1 h.symm).2).1
  exact absurd hnil hne

theorem onlyGaps_gap {m : Gapped} : OnlyGaps pattern (none :: m) ↔ OnlyGaps pattern m := by
  constructor
  · intro h before behind hm
    obtain ⟨front, back, hfront, hfill⟩ := h (pattern ++ before) behind (by
      rw [fill, hm, List.append_assoc])
    cases front with
    | nil => exact absurd (List.append_eq_nil_iff.1 hfill.symm).1 hne
    | cons d front =>
      obtain ⟨rfl, hm⟩ := List.cons.inj hfront
      exact ⟨front, back, hm, List.append_cancel_left hfill⟩
  · intro h before behind hm
    rw [fill] at hm
    rcases hp.split hm with rfl | ⟨between, rfl⟩
    · exact ⟨[], m, rfl, rfl⟩
    · rw [List.append_assoc] at hm
      obtain ⟨front, back, rfl, hfill⟩ := h between behind (List.append_cancel_left hm)
      exact ⟨none :: front, back, rfl, by rw [fill, hfill]⟩

omit hne hp in
theorem onlyGaps_plain {c : Char} {m : Gapped} (h : ¬ pattern <+: c :: fill pattern m) :
    OnlyGaps pattern (some c :: m) ↔ OnlyGaps pattern m := by
  constructor
  · intro honly before behind hm
    obtain ⟨front, back, hfront, hfill⟩ := honly (c :: before) behind (by
      rw [fill, hm, List.cons_append])
    cases front with
    | nil => cases hfill
    | cons d front =>
      obtain ⟨rfl, hm⟩ := List.cons.inj hfront
      exact ⟨front, back, hm, List.tail_eq_of_cons_eq hfill⟩
  · intro honly before behind hm
    rw [fill] at hm
    cases before with
    | nil => exact absurd ⟨behind, hm.symm⟩ h
    | cons d before =>
      obtain ⟨rfl, hrest⟩ := List.cons.inj hm
      obtain ⟨front, back, rfl, hfill⟩ := honly before behind hrest
      exact ⟨some c :: front, back, rfl, by rw [fill, hfill]⟩

omit hp in
theorem not_onlyGaps_occurrence (m : Gapped) : ¬ OnlyGaps pattern (pattern.map some ++ m) := by
  intro h
  obtain ⟨front, back, hfront, hfill⟩ := h [] (fill pattern m) (by
    rw [fill_append, fill_map_some, List.nil_append])
  obtain ⟨c, tail, rfl⟩ := List.exists_cons_of_ne_nil hne
  cases front with
  | nil => cases hfront
  | cons d front =>
    obtain ⟨rfl, -⟩ := List.cons.inj hfront
    cases hfill

/-! ## Replacing the pattern -/

/-- Each occurrence that is no gap makes the same difference in length. -/
theorem length_replaceAll_fill (replacement : Text) (m : Gapped) :
    ∃ n, (replaceAll (· == ·) pattern replacement (fill pattern m)).length + n * pattern.length =
      (fill replacement m).length + n * replacement.length := by
  induction m using gapped_induction hne hp with
  | nil => exact ⟨0, by rw [Nat.zero_mul, Nat.zero_mul]; rfl⟩
  | gap m ih =>
    obtain ⟨n, hn⟩ := ih
    refine ⟨n, ?_⟩
    rw [fill, fill, replaceAll_append hne, List.length_append, List.length_append]
    omega
  | plain c m hplain ih =>
    obtain ⟨n, hn⟩ := ih
    refine ⟨n, ?_⟩
    rw [fill, fill, replaceAll_cons hplain, List.length_cons, List.length_cons]
    omega
  | occurrence m ih =>
    obtain ⟨n, hn⟩ := ih
    refine ⟨n + 1, ?_⟩
    rw [fill_append, fill_append, fill_map_some, fill_map_some, replaceAll_append hne,
      List.length_append, List.length_append, Nat.succ_mul, Nat.succ_mul]
    omega

/--
Replacing the pattern is putting the replacement into the gaps, if the replacement is the pattern
itself or every occurrence is a gap, and in no other case.
-/
theorem replaceAll_fill_iff (replacement : Text) (m : Gapped) :
    replaceAll (· == ·) pattern replacement (fill pattern m) = fill replacement m ↔
      replacement = pattern ∨ OnlyGaps pattern m := by
  induction m using gapped_induction hne hp with
  | nil => exact iff_of_true rfl (.inr (onlyGaps_nil hne))
  | gap m ih =>
    rw [fill, fill, replaceAll_append hne, List.append_cancel_left_eq, ih, onlyGaps_gap hne hp]
  | plain c m hplain ih =>
    rw [fill, fill, replaceAll_cons hplain, List.cons.injEq, ih, onlyGaps_plain hplain]
    exact and_iff_right rfl
  | occurrence m ih =>
    rw [fill_append, fill_append, fill_map_some, fill_map_some, replaceAll_append hne]
    constructor
    · intro h
      obtain ⟨n, hn⟩ := length_replaceAll_fill hne hp replacement m
      have hlength := congrArg List.length h
      rw [List.length_append, List.length_append] at hlength
      have hsame : replacement.length = pattern.length := by
        rcases Nat.lt_trichotomy replacement.length pattern.length with hlt | heq | hlt
        · have := Nat.mul_le_mul_left n (Nat.le_of_lt hlt)
          omega
        · exact heq
        · have := Nat.mul_le_mul_left n (Nat.le_of_lt hlt)
          omega
      exact .inl (List.append_inj_left h hsame)
    · rintro (rfl | honly)
      · rw [ih.2 (.inl rfl)]
      · exact absurd honly (not_onlyGaps_occurrence hne m)

end

end Unmask.Text
