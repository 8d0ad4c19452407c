import Mathlib.Data.List.Infix
import Unmask.Proofs.Replacing
import Unmask.Proofs.ScriptAlphabets

/-!
# Long lines

Where a long line is broken, the mark it is broken at is written in another way.  So the broken
text differs from the text in some occurrences of the mark and in nothing else, and putting the
mark back gives the text, as long as the text itself does not hold what stands for the mark.

    Swaps                   texts that differ in some occurrences of a text
    Swaps.replaceAll_eq     putting these occurrences back
    fields_wrap             the lines of the broken text
    replaceAll_wrap         breaking long lines can be undone, and leaves the others alone
-/

namespace Unmask

namespace Text

/-! ## Swapped occurrences -/

/-- The second text has `new` in the place of some occurrences of `old` in the first. -/
inductive Swaps (old new : Text) : Text → Text → Prop
  | nil : Swaps old new [] []
  | keep (c : Char) {s t : Text} : Swaps old new s t → Swaps old new (c :: s) (c :: t)
  | swap {s t : Text} : Swaps old new s t → Swaps old new (old ++ s) (new ++ t)

namespace Swaps

variable {old new s s' t t' : Text}

theorem refl (old new s : Text) : Swaps old new s s := by
  induction s with
  | nil => exact nil
  | cons c s ih => exact keep c ih

theorem append (h : Swaps old new s t) (h' : Swaps old new s' t') :
    Swaps old new (s ++ s') (t ++ t') := by
  induction h with
  | nil => exact h'
  | keep c _ ih => exact keep c ih
  | swap _ ih =>
    rw [List.append_assoc, List.append_assoc]
    exact swap ih

/-- Parts with one text or the other between them. -/
theorem join (old new : Text) (parts : List Text) :
    Swaps old new (Text.join old parts) (Text.join new parts) := by
  induction parts with
  | nil => exact nil
  | cons part parts ih =>
    by_cases hparts : parts = []
    · subst hparts
      exact refl old new part
    · rw [join_cons _ _ hparts, join_cons _ _ hparts, List.append_assoc, List.append_assoc]
      exact (refl old new part).append (swap ih)

/--
What the second text starts with the first one starts with, if it is no longer than `new`, and
`old` starts with each end of it that `new` starts with.
-/
theorem isPrefix_of_isPrefix (h : Swaps old new s t) {start : Text}
    (hlength : start.length ≤ new.length)
    (halike : ∀ border, border <:+ start → border <+: new → border <+: old)
    (hstart : start <+: t) : start <+: s := by
  induction h generalizing start with
  | nil => exact hstart
  | keep c _ ih =>
    cases start with
    | nil => exact List.nil_prefix
    | cons d start =>
      obtain ⟨rfl, hrest⟩ := List.cons_prefix_cons.1 hstart
      refine List.cons_prefix_cons.2 ⟨rfl, ih (Nat.le_of_succ_le hlength) ?_ hrest⟩
      intro border hborder
      exact halike border (hborder.trans (List.suffix_cons d start))
  | swap _ _ =>
    have hnew : start <+: new :=
      List.prefix_of_prefix_length_le hstart (List.prefix_append _ _) hlength
    exact (halike start List.suffix_rfl hnew).trans (List.prefix_append _ _)

/--
Putting the occurrences back gives the first text, if this does not hold `new`, and where `new`
ends as it starts `old` starts so as well.
-/
theorem replaceAll_eq (h : Swaps old new s t) (hnew : new ≠ [])
    (halike : ∀ border, border <:+ new.tail → border <+: new → border <+: old)
    (hs : ¬ new <:+: s) : replaceAll (· == ·) new old t = s := by
  induction h with
  | nil => rfl
  | @keep c s t hst ih =>
    have hhead : ¬ new <+: c :: t := by
      intro hstarts
      obtain ⟨d, rest, rfl⟩ := List.exists_cons_of_ne_nil hnew
      obtain ⟨rfl, hrest⟩ := List.cons_prefix_cons.1 hstarts
      have hrest := hst.isPrefix_of_isPrefix (Nat.le_succ _) halike hrest
      exact hs (List.cons_prefix_cons.2 ⟨rfl, hrest⟩).isInfix
    rw [replaceAll_cons hhead, ih fun hholds => hs (hholds.trans (List.suffix_cons c s).isInfix)]
  | @swap s t _ ih =>
    rw [replaceAll_append hnew,
      ih fun hholds => hs (hholds.trans (List.suffix_append old s).isInfix)]

end Swaps

end Text

namespace Script

open Text (Swaps)

/-! ## Broken lines -/

/-- How the mark reads where a line is broken at it. -/
def brokenMark : Text :=
  " &&\n  ".toList

theorem continueLine_ne_nil {parts : List Text} (h : parts ≠ []) : continueLine parts ≠ [] := by
  fun_cases continueLine parts with
  | case1 => exact absurd rfl h
  | case2 part => exact List.cons_ne_nil _ _
  | case3 part next parts => exact List.cons_ne_nil _ _

theorem join_goesOn (part next : Text) {parts lines : List Text} (hlines : lines ≠ [])
    (h : Text.join ['\n'] lines = "  ".toList ++ Text.join brokenMark (next :: parts)) :
    Text.join ['\n'] ((part ++ " &&".toList) :: lines) =
      Text.join brokenMark (part :: next :: parts) := by
  have hmark : brokenMark = " &&".toList ++ ['\n'] ++ "  ".toList := by decide
  calc Text.join ['\n'] ((part ++ " &&".toList) :: lines)
      = part ++ " &&".toList ++ ['\n'] ++
          ("  ".toList ++ Text.join brokenMark (next :: parts)) := by
        rw [Text.join_cons _ _ hlines, h]
    _ = part ++ (" &&".toList ++ ['\n'] ++ "  ".toList) ++
          Text.join brokenMark (next :: parts) := by
        simp only [List.append_assoc]
    _ = Text.join brokenMark (part :: next :: parts) := by
        rw [← hmark, Text.join_cons _ _ (List.cons_ne_nil next parts)]

/-- The parts behind the first, on their lines. -/
theorem join_continueLine {parts : List Text} (h : parts ≠ []) :
    Text.join ['\n'] (continueLine parts) = "  ".toList ++ Text.join brokenMark parts := by
  fun_induction continueLine parts with
  | case1 => exact absurd rfl h
  | case2 part => rfl
  | case3 part next parts ih =>
    rw [join_goesOn _ next (continueLine_ne_nil (List.cons_ne_nil _ _))
        (ih (List.cons_ne_nil _ _)),
      Text.join_cons _ _ (List.cons_ne_nil next parts),
      Text.join_cons _ _ (List.cons_ne_nil next parts)]
    simp only [List.append_assoc]

theorem wrapLine_ne_nil (width : Nat) (line : Text) : wrapLine width line ≠ [] := by
  rcases wrapLine_cases width line with hwhole | ⟨part, next, parts, -, -, hbroken⟩
  · rw [hwhole]
    exact List.cons_ne_nil _ _
  · rw [hbroken]
    exact List.cons_ne_nil _ _

/-- A line that is broken differs from the line in the marks it is broken at. -/
theorem swaps_wrapLine (width : Nat) (line : Text) :
    Swaps breakMark brokenMark line (Text.join ['\n'] (wrapLine width line)) := by
  rcases wrapLine_cases width line with hwhole | ⟨part, next, parts, -, hline, hbroken⟩
  · rw [hwhole]
    exact Swaps.refl _ _ line
  · rw [hbroken, join_goesOn part next (continueLine_ne_nil (List.cons_ne_nil _ _))
      (join_continueLine (List.cons_ne_nil _ _)), ← hline]
    exact Swaps.join breakMark brokenMark _

/-! ## Texts -/

theorem flatMap_wrapLine_ne_nil (width : Nat) {lines : List Text} (h : lines ≠ []) :
    lines.flatMap (wrapLine width) ≠ [] := by
  obtain ⟨line, rest, rfl⟩ := List.exists_cons_of_ne_nil h
  exact List.append_ne_nil_of_left_ne_nil (wrapLine_ne_nil width line) _

theorem swaps_join_wrapLine (width : Nat) (lines : List Text) :
    Swaps breakMark brokenMark (Text.join ['\n'] lines)
      (Text.join ['\n'] (lines.flatMap (wrapLine width))) := by
  induction lines with
  | nil => exact Swaps.nil
  | cons line lines ih =>
    by_cases hlines : lines = []
    · subst hlines
      rw [List.flatMap_cons, List.flatMap_nil, List.append_nil]
      exact swaps_wrapLine width line
    · rw [List.flatMap_cons, Text.join_cons _ _ hlines,
        Text.join_append _ (wrapLine_ne_nil width line) (flatMap_wrapLine_ne_nil width hlines)]
      exact ((swaps_wrapLine width line).append (Swaps.refl _ _ ['\n'])).append ih

theorem swaps_wrap (width : Nat) (s : Text) : Swaps breakMark brokenMark s (wrap width s) := by
  have hswaps := swaps_join_wrapLine width (Text.fields (· == '\n') s)
  rw [Text.join_fields] at hswaps
  exact hswaps

/-- Every line of a text is broken by itself. -/
theorem fields_wrap (width : Nat) (s : Text) :
    Text.fields (· == '\n') (wrap width s) =
      (Text.fields (· == '\n') s).flatMap (wrapLine width) := by
  apply Text.fields_join
  · exact flatMap_wrapLine_ne_nil width (Text.fields_ne_nil _ s)
  · intro piece hpiece
    obtain ⟨line, hline, hpiece⟩ := List.mem_flatMap.1 hpiece
    have hindent : Text.Over (fun c => (c == '\n') = false) "  ".toList :=
      Text.over_of_all (by decide)
    have hgoes : Text.Over (fun c => (c == '\n') = false) " &&".toList :=
      Text.over_of_all (by decide)
    have hover : Text.Over (fun c => (c == '\n') = false) line :=
      fun c hc => (Text.mem_of_mem_fields hline hc).2
    have hpiece := over_wrapLine hindent hgoes hover width piece hpiece
    exact fun c hc => beq_eq_false_iff_ne.1 (hpiece c hc)

/--
Breaking long lines can be undone, if the text does not hold what stands for the mark where a line
is broken.  In any text the lines of at most `width` characters are left as they are.
-/
theorem replaceAll_wrap (width : Nat) (s : Text) :
    (¬ brokenMark <:+: s →
      Text.replaceAll (· == ·) brokenMark breakMark (wrap width s) = s) ∧
    ∀ before line after, Text.fields (· == '\n') s = before ++ line :: after →
      line.length ≤ width →
      Text.fields (· == '\n') (wrap width s) =
        before.flatMap (wrapLine width) ++ line :: after.flatMap (wrapLine width) := by
  constructor
  · intro hs
    -- a mark and the end of the broken mark start with the same blank
    have halike : ∀ border, border <:+ brokenMark.tail → border <+: brokenMark →
        border <+: breakMark := by
      have htails : ∀ border ∈ brokenMark.tail.tails, border <+: brokenMark →
          border <+: breakMark := by decide
      intro border hborder
      exact htails border ((List.mem_tails _ _).2 hborder)
    exact (swaps_wrap width s).replaceAll_eq (by decide) halike hs
  · intro before line after hlines hfits
    rw [fields_wrap, hlines, List.flatMap_append, List.flatMap_cons, wrapLine_of_length_le hfits]
    rfl

/-- An empty part, a line that goes on, one indented by a single blank and one that fits. -/
theorem replaceAll_wrap_mixed :
    Text.replaceAll (· == ·) brokenMark breakMark
        (wrap 6 "a && b &&  && c &&\n d\nk && l".toList) =
        "a && b &&  && c &&\n d\nk && l".toList ∧
      Text.fields (· == '\n') (wrap 6 "a && b &&  && c &&\n d\nk && l".toList) =
        ["a &&", "  b &&", "   &&", "  c &&", " d", "k && l"].map String.toList := by
  obtain ⟨hback, hlines⟩ := replaceAll_wrap 6 "a && b &&  && c &&\n d\nk && l".toList
  have hfits := hlines ["a && b &&  && c &&".toList, " d".toList] "k && l".toList []
    (by decide) (by decide)
  refine ⟨hback (by decide), ?_⟩
  rw [hfits]
  decide

end Script

end Unmask
