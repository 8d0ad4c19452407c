import Mathlib.Data.List.TakeWhile
import Unmask.Proofs.Machine

/-!
# Openings of assignments

In front of the value of an assignment stand the lead, the keyword, blanks and the name.  None of
their characters opens quotes or starts a separator, so no statement ends among them.

    assignmentText?_eq_some    what stands in front of the name
    readTarget?_eq_some        the name itself
    splitClosing?_eq_some      a value in quotes
-/

namespace Unmask.Script

/-- A character that neither opens quotes nor starts a separator. -/
def isOrdinary (c : Char) : Bool :=
  !(c == '"' || Separator.isStart c)

/-- A class of characters is ordinary if it holds none of the five that are not. -/
theorem isOrdinary_of_class (p : Char → Bool)
    (hp : [ '"', '&', '|', '\n', '\r'].all fun c => !p c) {c : Char} (hc : p c = true) :
    isOrdinary c = true := by
  cases h : isOrdinary c with
  | true => rfl
  | false =>
    have hmem : c ∈ [ '"', '&', '|', '\n', '\r'] := by
      simp only [isOrdinary, Separator.isStart, Text.isBreak, Bool.not_eq_false', Bool.or_eq_true,
        beq_iff_eq, or_assoc] at h
      simpa using h
    have hneg := List.all_eq_true.1 hp c hmem
    rw [hc] at hneg
    cases hneg

theorem isOrdinary_of_isBlank {c : Char} (h : Text.isBlank c = true) : isOrdinary c = true :=
  isOrdinary_of_class Text.isBlank (by decide) h

/-! ## Leads -/

/-- Each character of an item is ordinary, and the item stands at the head of the text. -/
theorem LeadItem.switch?_eq_some {s : Text} {item : LeadItem} (h : switch? s = some item) :
    item.toText ≠ [] ∧ item.toText <+: '/' :: s ∧ ∀ a ∈ item.toText, isOrdinary a = true := by
  have halpha : ∀ c : Char, c.isAlpha = true → isOrdinary c = true :=
    fun c hc => isOrdinary_of_class Char.isAlpha (by decide) hc
  unfold switch? at h
  split at h
  · cases h
  · next letter s =>
    split at h
    · next hletter =>
      split at h
      · next s =>
        dsimp only at h
        split at h
        · cases h
          refine ⟨List.cons_ne_nil _ _, ?_, ?_⟩
          · refine List.cons_prefix_cons.2 ⟨rfl, List.cons_prefix_cons.2 ⟨rfl, ?_⟩⟩
            exact List.cons_prefix_cons.2 ⟨rfl, List.takeWhile_prefix _⟩
          · intro a ha
            unfold toText at ha
            rw [List.mem_cons, List.mem_cons, List.mem_cons] at ha
            rcases ha with rfl | rfl | rfl | ha
            · decide
            · exact halpha _ hletter
            · decide
            · exact isOrdinary_of_class Char.isAlphanum (by decide)
                (List.mem_takeWhile_imp ha)
        · cases h
      · split at h
        · cases h
          refine ⟨List.cons_ne_nil _ _,
            List.cons_prefix_cons.2 ⟨rfl, List.cons_prefix_cons.2 ⟨rfl, List.nil_prefix⟩⟩, ?_⟩
          intro a ha
          unfold toText at ha
          rw [List.mem_cons, List.mem_singleton] at ha
          rcases ha with rfl | rfl
          · decide
          · exact halpha _ hletter
        · cases h
    · cases h

theorem LeadItem.interpreter?_eq_some {s : Text} {item : LeadItem} (h : interpreter? s = some item) :
    item.toText ≠ [] ∧ item.toText <+: s ∧ ∀ a ∈ item.toText, isOrdinary a = true := by
  unfold interpreter? at h
  dsimp only at h
  split at h
  · next hcond =>
    cases h
    refine ⟨fun hnil => ?_, List.takeWhile_prefix _, fun a ha => ?_⟩
    · rw [toText] at hnil
      rw [hnil] at hcond
      exact absurd (Bool.and_eq_true_iff.1 (Bool.and_eq_true_iff.1 hcond).1).2 (by decide)
    · exact isOrdinary_of_class (fun c => isPathChar c || c == '\\') (by decide)
        (List.mem_takeWhile_imp (p := fun c => isPathChar c || c == '\\') ha)
  · cases h

/-- An item stands at the head of the text, and its characters are ordinary. -/
theorem LeadItem.first?_eq_some {c : Char} {s : Text} {item : LeadItem}
    (h : first? c s = some item) :
    item.toText ≠ [] ∧ item.toText <+: c :: s ∧ ∀ a ∈ item.toText, isOrdinary a = true := by
  unfold first? at h
  split at h
  · next hmark =>
    cases h
    refine ⟨List.cons_ne_nil _ _, List.cons_prefix_cons.2 ⟨rfl, List.nil_prefix⟩, fun a ha => ?_⟩
    obtain rfl := List.mem_singleton.1 ha
    exact isOrdinary_of_class (fun c => Text.isBlank c || c == '(' || c == '@') (by decide) hmark
  · split at h
    · next hslash =>
      rw [hslash]
      exact switch?_eq_some h
    · exact interpreter?_eq_some h

/-- The lead stands at the head of the text, and its characters are ordinary. -/
theorem leadText_isPrefix (s : Text) :
    leadText (lead s) <+: s ∧ ∀ a ∈ leadText (lead s), isOrdinary a = true := by
  induction s using lead.induct with
  | case1 =>
    rw [lead]
    exact ⟨List.nil_prefix, fun a ha => by cases ha⟩
  | case2 c s hnone =>
    rw [lead, hnone]
    exact ⟨List.nil_prefix, fun a ha => by cases ha⟩
  | case3 c s item hsome ih =>
    obtain ⟨hne, ⟨rest, hrest⟩, hitem⟩ := LeadItem.first?_eq_some hsome
    have hdrop : s.drop (item.toText.length - 1) = rest := Text.drop_pred_length hne hrest
    rw [hdrop] at ih
    have hlead : leadText (lead (c :: s)) = item.toText ++ leadText (lead rest) := by
      rw [lead, hsome]
      dsimp only
      rw [hdrop]
      rfl
    rw [hlead]
    refine ⟨?_, fun a ha => ?_⟩
    · rw [← hrest]
      exact (List.prefix_append_right_inj _).2 ih.1
    · rcases List.mem_append.1 ha with ha | ha
      · exact hitem a ha
      · exact ih.2 a ha

/-! ## Keywords and names -/

theorem dropKeyword?_eq_some {keyword : String} {s rest : Text}
    (h : dropKeyword? keyword s = some rest) :
    ∃ start, s = start ++ rest ∧ Text.asciiLower start = Text.asciiLower keyword.toList := by
  unfold dropKeyword? at h
  generalize keyword.toList = pattern at h ⊢
  induction pattern generalizing s with
  | nil =>
    cases h
    exact ⟨[], rfl, rfl⟩
  | cons a pattern ih =>
    cases s with
    | nil => cases h
    | cons b s =>
      rw [Text.dropMatch?] at h
      split at h
      · next hab =>
        obtain ⟨start, rfl, hstart⟩ := ih h
        refine ⟨b :: start, rfl, ?_⟩
        unfold Text.asciiLower at hstart ⊢
        rw [List.map_cons, List.map_cons, hstart, (beq_iff_eq.1 hab).symm]
      · cases h

theorem dropBlanks?_eq_some {s rest : Text} (h : dropBlanks? s = some rest) :
    ∃ blanks, s = blanks ++ rest ∧ ∀ c ∈ blanks, Text.isBlank c = true := by
  unfold dropBlanks? at h
  split at h
  · cases h
    exact ⟨s.takeWhile Text.isBlank, List.takeWhile_append_dropWhile.symm,
      fun c hc => List.mem_takeWhile_imp hc⟩
  · cases h

theorem dropBlanks?_eq_cons {s rest : Text} (h : dropBlanks? s = some rest) :
    ∃ blank blanks, s = blank :: blanks ++ rest ∧ ∀ c ∈ blank :: blanks, Text.isBlank c = true := by
  unfold dropBlanks? at h
  split at h
  · next hhead =>
    cases h
    cases s with
    | nil => cases hhead
    | cons blank s =>
      have hblank : Text.isBlank blank = true := hhead
      refine ⟨blank, s.takeWhile Text.isBlank, ?_, ?_⟩
      · rw [List.dropWhile_cons_of_pos hblank, List.cons_append, List.takeWhile_append_dropWhile]
      · rw [← List.takeWhile_cons_of_pos hblank]
        exact fun c hc => List.mem_takeWhile_imp hc
  · cases h

theorem assignmentText?_eq_some {s rest : Text} (h : assignmentText? s = some rest) :
    ∃ start, s = start ++ rest ∧ ∀ c ∈ start, isOrdinary c = true := by
  obtain ⟨t, hkeyword, hblanks⟩ := Option.bind_eq_some_iff.1 h
  obtain ⟨keyword, hs, hlower⟩ := dropKeyword?_eq_some hkeyword
  obtain ⟨blanks, rfl, hblank⟩ := dropBlanks?_eq_some hblanks
  obtain ⟨hlead, hordinary⟩ := leadText_isPrefix s
  refine ⟨leadText (lead s) ++ keyword ++ blanks, ?_, fun c hc => ?_⟩
  · rw [List.append_assoc, List.append_assoc, ← hs, List.prefix_iff_eq_append.1 hlead]
  · rcases List.mem_append.1 hc with hc | hc
    · rcases List.mem_append.1 hc with hc | hc
      · exact hordinary c hc
      · have hmem : c.toLower ∈ Text.asciiLower "set".toList := by
          rw [← hlower]
          exact List.mem_map_of_mem hc
        refine isOrdinary_of_class (fun c => c.toLower ∈ Text.asciiLower "set".toList) (by decide) ?_
        exact decide_eq_true hmem
    · exact isOrdinary_of_isBlank (hblank c hc)

theorem readTarget?_eq_some {s name rest : Text} (h : readTarget? s = some (name, rest)) :
    s = name ++ '=' :: rest ∧ ∀ c ∈ name, isOrdinary c = true := by
  unfold readTarget? at h
  dsimp only at h
  split at h
  · split at h
    · next rest' hdrop =>
      cases h
      refine ⟨?_, fun c hc => ?_⟩
      · rw [← hdrop]
        exact (List.prefix_iff_eq_append.1 (List.takeWhile_prefix _)).symm
      · have hc : isTargetChar c = true := List.mem_takeWhile_imp hc
        exact isOrdinary_of_class isTargetChar (by decide) hc
    · cases h
  · cases h

theorem splitClosing?_eq_some {s value rest : Text} (h : splitClosing? s = some (value, rest)) :
    s = value ++ '"' :: rest ∧ closes rest = true := by
  induction s generalizing value with
  | nil => cases h
  | cons c s ih =>
    rw [splitClosing?] at h
    split at h
    · next hc =>
      cases h
      exact ⟨by rw [hc.1]; rfl, hc.2⟩
    · obtain ⟨⟨value', rest'⟩, h', he⟩ := Option.map_eq_some_iff.1 h
      cases he
      obtain ⟨rfl, hcloses⟩ := ih h'
      exact ⟨rfl, hcloses⟩

end Unmask.Script
