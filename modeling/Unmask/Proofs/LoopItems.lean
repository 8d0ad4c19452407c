import Mathlib.Algebra.Group.Nat.Even
import Mathlib.Data.List.Basic
import Unmask.Script.Statement

/-!
# Items of a loop

A place in the list of a loop is a gap if white space, a comma, a semicolon or an equals sign stands
there behind an even number of quotes.  The items are the runs of places between the gaps, and that
determines them: any stretches with nothing but gaps around them and no gap inside are the items.

    partedFrom_itemParts     the parts end at the gaps, one behind the other
    PartedFrom.exists_runs   the parts that are not empty are runs
    Runs.unique              a text has its runs in one way only
    splitItems_eq_iff        the items are the runs of the whole list
-/

namespace Unmask.Script

/-- The characters that stand between items, and in them inside quotes only. -/
def partsItems (c : Char) : Bool :=
  Text.isSpace c || c == ',' || c == ';' || c == '='

/-- Whether items are parted at a place of a list: an even number of quotes stands in front. -/
def IsGap (s : Text) (place : Nat) : Prop :=
  ∃ c, s[place]? = some c ∧ partsItems c = true ∧ Even ((s.take place).count '"')

/-- Whether no place from `start` up to `stop` is a gap. -/
def GapFree (s : Text) (start stop : Nat) : Prop :=
  ∀ place, start ≤ place → place < stop → ¬ IsGap s place

/-- The places of a text from `first` up to `stop`, which is the first behind them. -/
structure Stretch where
  first : Nat
  stop : Nat
deriving DecidableEq, Repr

namespace Stretch

def text (stretch : Stretch) (s : Text) : Text :=
  (s.drop stretch.first).take (stretch.stop - stretch.first)

def Covers (stretch : Stretch) (place : Nat) : Prop :=
  stretch.first ≤ place ∧ place < stretch.stop

end Stretch

/--
The runs of a text from the place `start` on, in order: none of them is empty, each ends at a gap in
front of the next one, and the places outside of them are the gaps.
-/
structure Runs (s : Text) (start : Nat) (runs : List Stretch) : Prop where
  within : ∀ run ∈ runs, start ≤ run.first ∧ run.first < run.stop ∧ run.stop ≤ s.length
  parted : runs.Pairwise fun run next => run.stop < next.first
  covered_iff : ∀ place, start ≤ place → place < s.length →
    ((∃ run ∈ runs, run.Covers place) ↔ ¬ IsGap s place)

/-- The parts of a text from the place `start` on: each but the last ends at a gap. -/
inductive PartedFrom (s : Text) : (start : Nat) → List Text → Prop
  /-- No gap follows. -/
  | last {start : Nat} : start ≤ s.length → GapFree s start s.length →
      PartedFrom s start [Stretch.text ⟨start, s.length⟩ s]
  /-- The first gap is at `stop`. -/
  | next {start stop : Nat} {parts : List Text} : start ≤ stop → GapFree s start stop →
      IsGap s stop → PartedFrom s (stop + 1) parts →
      PartedFrom s start (Stretch.text ⟨start, stop⟩ s :: parts)

variable {s : Text} {start stop : Nat}

/-! ## Gaps -/

theorem IsGap.lt_length {place : Nat} (h : IsGap s place) : place < s.length := by
  obtain ⟨c, hc, -⟩ := h
  exact (List.getElem?_eq_some_iff.1 hc).1

theorem gapFree_self (s : Text) (place : Nat) : GapFree s place place := by
  intro other hle hlt
  omega

theorem GapFree.cons (h : GapFree s (start + 1) stop) (hgap : ¬ IsGap s start) :
    GapFree s start stop := by
  intro place hplace hlt
  rcases Nat.eq_or_lt_of_le hplace with rfl | hplace
  · exact hgap
  · exact h place hplace hlt

/-- Whether a place is inside quotes: an odd number of them stands in front. -/
def isQuoted (s : Text) (place : Nat) : Bool :=
  !decide (Even ((s.take place).count '"'))

theorem isGap_iff {c : Char} (hc : s[start]? = some c) :
    IsGap s start ↔ isQuoted s start = false ∧ partsItems c = true := by
  unfold IsGap isQuoted
  rw [hc]
  simp only [Option.some.injEq, Bool.not_eq_false', decide_eq_true_eq]
  constructor
  · rintro ⟨d, rfl, hparts, heven⟩
    exact ⟨heven, hparts⟩
  · rintro ⟨heven, hparts⟩
    exact ⟨c, rfl, hparts, heven⟩

theorem isQuoted_succ {c : Char} (hc : s[start]? = some c) :
    isQuoted s (start + 1) = if c = '"' then !isQuoted s start else isQuoted s start := by
  unfold isQuoted
  rw [List.take_add_one, hc, Option.toList_some, List.count_append, List.count_singleton]
  by_cases hquote : c = '"'
  · rw [if_pos hquote, if_pos (by simpa using hquote)]
    simp only [Nat.even_add_one, decide_not]
  · rw [if_neg hquote, if_neg (by simpa using hquote), Nat.add_zero]

/-! ## Parts -/

theorem Stretch.text_nil (s : Text) (place : Nat) : Stretch.text ⟨place, place⟩ s = [] := by
  simp [Stretch.text]

theorem Stretch.text_cons {c : Char} (hc : s[start]? = some c) (hlt : start < stop) :
    Stretch.text ⟨start, stop⟩ s = c :: Stretch.text ⟨start + 1, stop⟩ s := by
  obtain ⟨hlength, rfl⟩ := List.getElem?_eq_some_iff.1 hc
  have hwidth : stop - start = stop - (start + 1) + 1 := by omega
  unfold Stretch.text
  dsimp only
  rw [hwidth, List.drop_eq_getElem_cons hlength, List.take_succ_cons]

theorem Stretch.isEmpty_text (hlt : start < stop) (hstop : stop ≤ s.length) :
    (Stretch.text ⟨start, stop⟩ s).isEmpty = false := by
  rw [text_cons (List.getElem?_eq_getElem (by omega)) hlt, List.isEmpty_cons]

theorem itemParts_cons (quoted : Bool) (c : Char) (rest : Text) :
    itemParts quoted (c :: rest) =
      if !quoted && partsItems c then [] :: itemParts false rest
      else Text.consFirst c (itemParts (if c = '"' then !quoted else quoted) rest) :=
  rfl

theorem PartedFrom.gap {parts : List Text} (h : PartedFrom s (start + 1) parts)
    (hgap : IsGap s start) : PartedFrom s start ([] :: parts) := by
  rw [← Stretch.text_nil s start]
  exact .next le_rfl (gapFree_self s start) hgap h

theorem PartedFrom.consFirst {parts : List Text} {c : Char} (h : PartedFrom s (start + 1) parts)
    (hc : s[start]? = some c) (hgap : ¬ IsGap s start) :
    PartedFrom s start (Text.consFirst c parts) := by
  have hlength : start < s.length := (List.getElem?_eq_some_iff.1 hc).1
  cases h with
  | last hle hfree =>
    rw [Text.consFirst, ← Stretch.text_cons hc hlength]
    exact .last (by omega) (hfree.cons hgap)
  | next hle hfree hstop hparts =>
    rw [Text.consFirst, ← Stretch.text_cons hc (by omega)]
    exact .next (by omega) (hfree.cons hgap) hstop hparts

/-- The parts end at the gaps, if what is known of the quotes in front is right. -/
theorem partedFrom_itemParts (hstart : start ≤ s.length) :
    PartedFrom s start (itemParts (isQuoted s start) (s.drop start)) := by
  -- The induction is on what is left to read; the whole list stays, as the quotes are counted in it.
  induction hrest : s.drop start generalizing start with
  | nil =>
    have hend : start = s.length := by
      have := List.drop_eq_nil_iff.1 hrest
      omega
    subst hend
    have hlast : PartedFrom s s.length [Stretch.text ⟨s.length, s.length⟩ s] :=
      .last le_rfl (gapFree_self s s.length)
    rwa [Stretch.text_nil] at hlast
  | cons c rest ih =>
    have hc : s[start]? = some c := by
      rw [← List.head?_drop, hrest, List.head?_cons]
    have hlength : start < s.length := (List.getElem?_eq_some_iff.1 hc).1
    have htail : s.drop (start + 1) = rest := by
      rw [← List.tail_drop, hrest, List.tail_cons]
    have hparts := ih hlength htail
    rw [isQuoted_succ hc] at hparts
    rw [itemParts_cons]
    by_cases hgap : IsGap s start
    · obtain ⟨hquoted, hparting⟩ := (isGap_iff hc).1 hgap
      have hne : c ≠ '"' := fun heq => absurd (heq ▸ hparting) (by decide)
      rw [if_neg hne, hquoted] at hparts
      rw [if_pos (by rw [hquoted, hparting]; rfl)]
      exact hparts.gap hgap
    · rw [if_neg (by simpa [isGap_iff hc] using hgap)]
      exact hparts.consFirst hc hgap

/-! ## Runs -/

theorem Runs.nil (s : Text) : Runs s s.length [] where
  within _ hrun := absurd hrun List.not_mem_nil
  parted := .nil
  covered_iff place hplace hlt := absurd hplace (by omega)

theorem Runs.gap {runs : List Stretch} (h : Runs s (start + 1) runs) (hgap : IsGap s start) :
    Runs s start runs where
  within run hrun := by
    have := h.within run hrun
    exact ⟨by omega, this.2⟩
  parted := h.parted
  covered_iff place hplace hlt := by
    rcases Nat.eq_or_lt_of_le hplace with rfl | hplace
    · refine ⟨?_, fun hnot => absurd hgap hnot⟩
      rintro ⟨run, hrun, hcovers⟩
      have := h.within run hrun
      have := hcovers.1
      omega
    · exact h.covered_iff place hplace hlt

/-- Places without a gap are a run, if a gap or the end of the text comes behind them. -/
theorem Runs.cons {runs : List Stretch} (h : Runs s stop runs) (hlt : start < stop)
    (hstop : stop ≤ s.length) (hapart : ∀ run ∈ runs, stop < run.first)
    (hfree : GapFree s start stop) : Runs s start (⟨start, stop⟩ :: runs) where
  within run hrun := by
    rcases List.mem_cons.1 hrun with rfl | hrun
    · exact ⟨le_rfl, hlt, hstop⟩
    · have := h.within run hrun
      exact ⟨by omega, this.2⟩
  parted := .cons hapart h.parted
  covered_iff place hplace hlength := by
    rw [List.exists_mem_cons_iff]
    by_cases hin : place < stop
    · exact ⟨fun _ => hfree place hplace hin, fun _ => Or.inl ⟨hplace, hin⟩⟩
    · rw [← h.covered_iff place (by omega) hlength]
      exact ⟨fun hcovered => hcovered.resolve_left fun hfirst => hin hfirst.2, Or.inr⟩

/-- The parts that are not empty are runs. -/
theorem PartedFrom.exists_runs {parts : List Text} (h : PartedFrom s start parts) :
    ∃ runs, Runs s start runs ∧ runs.map (·.text s) = parts.filter (!·.isEmpty) := by
  induction h with
  | @last start hle hfree =>
    rcases Nat.eq_or_lt_of_le hle with rfl | hlt
    · exact ⟨[], .nil s, by rw [Stretch.text_nil]; rfl⟩
    · refine ⟨[⟨start, s.length⟩], (Runs.nil s).cons hlt le_rfl ?_ hfree, ?_⟩
      · exact fun run hrun => absurd hrun List.not_mem_nil
      · rw [List.filter_cons_of_pos (by rw [Stretch.isEmpty_text hlt le_rfl]; rfl)]
        rfl
  | @next start stop parts hle hfree hstop hparts ih =>
    obtain ⟨runs, hruns, htexts⟩ := ih
    have hlength : stop ≤ s.length := Nat.le_of_lt hstop.lt_length
    rcases Nat.eq_or_lt_of_le hle with rfl | hlt
    · refine ⟨runs, hruns.gap hstop, ?_⟩
      rw [htexts, Stretch.text_nil]
      rfl
    · refine ⟨⟨start, stop⟩ :: runs, (hruns.gap hstop).cons hlt hlength ?_ hfree, ?_⟩
      · exact fun run hrun => (hruns.within run hrun).1
      · rw [List.filter_cons_of_pos (by rw [Stretch.isEmpty_text hlt hlength]; rfl), List.map_cons,
          htexts]

/-! ## Uniqueness -/

section

variable {run run' : Stretch} {runs runs' : List Stretch}

/-- Two ways to lay the runs cover the same places. -/
theorem Runs.covered (h : Runs s start runs) (h' : Runs s start runs') {place : Nat}
    (hrun : run ∈ runs') (hcovers : run.Covers place) : ∃ other ∈ runs, other.Covers place := by
  have hplace : start ≤ place ∧ place < s.length := by
    have := h'.within run hrun
    have := hcovers.1
    have := hcovers.2
    omega
  rw [h.covered_iff place hplace.1 hplace.2, ← h'.covered_iff place hplace.1 hplace.2]
  exact ⟨run, hrun, hcovers⟩

theorem Runs.first_le (h : Runs s start (run :: runs)) (h' : Runs s start (run' :: runs')) :
    run.first ≤ run'.first := by
  have hrun' := h'.within run' List.mem_cons_self
  obtain ⟨other, hother, hcovers⟩ := h.covered h' List.mem_cons_self ⟨le_rfl, hrun'.2.1⟩
  rcases List.mem_cons.1 hother with rfl | hother
  · exact hcovers.1
  · have hapart := (List.pairwise_cons.1 h.parted).1 other hother
    have hrun := h.within run List.mem_cons_self
    have := hcovers.1
    omega

theorem Runs.stop_le (h : Runs s start (run :: runs)) (h' : Runs s start (run' :: runs'))
    (hfirst : run.first = run'.first) : run'.stop ≤ run.stop := by
  by_contra hlt
  have hrun := h.within run List.mem_cons_self
  obtain ⟨other, hother, hcovers⟩ :=
    h.covered h' List.mem_cons_self (show run'.Covers run.stop from ⟨by omega, by omega⟩)
  rcases List.mem_cons.1 hother with rfl | hother
  · exact absurd hcovers.2 (lt_irrefl _)
  · have hapart := (List.pairwise_cons.1 h.parted).1 other hother
    have := hcovers.1
    omega

theorem Runs.tail (h : Runs s start (run :: runs)) : Runs s run.stop runs where
  within next hnext := by
    have hapart := (List.pairwise_cons.1 h.parted).1 next hnext
    have := h.within next (List.mem_cons_of_mem run hnext)
    exact ⟨Nat.le_of_lt hapart, this.2⟩
  parted := (List.pairwise_cons.1 h.parted).2
  covered_iff place hplace hlength := by
    have hrun := h.within run List.mem_cons_self
    rw [← h.covered_iff place (by omega) hlength, List.exists_mem_cons_iff]
    refine ⟨Or.inr, fun hcovered => hcovered.resolve_left fun hfirst => ?_⟩
    have := hfirst.2
    omega

theorem Runs.not_nil (h : Runs s start (run :: runs)) : ¬ Runs s start [] := by
  intro hnil
  have hrun := h.within run List.mem_cons_self
  obtain ⟨other, hother, -⟩ := hnil.covered h List.mem_cons_self ⟨le_rfl, hrun.2.1⟩
  exact List.not_mem_nil hother

theorem Runs.unique (h : Runs s start runs) (h' : Runs s start runs') : runs = runs' := by
  induction runs generalizing start runs' with
  | nil =>
    cases runs' with
    | nil => rfl
    | cons run' runs' => exact absurd h h'.not_nil
  | cons run runs ih =>
    cases runs' with
    | nil => exact absurd h' h.not_nil
    | cons run' runs' =>
      obtain ⟨first, stop⟩ := run
      obtain ⟨first', stop'⟩ := run'
      obtain rfl : first = first' := le_antisymm (h.first_le h') (h'.first_le h)
      obtain rfl : stop = stop' := le_antisymm (h'.stop_le h rfl) (h.stop_le h' rfl)
      rw [ih h.tail h'.tail]

end

/--
The items of a list are its runs between the gaps, in order and as they stand: there is one way to
lay stretches between the gaps of a list, and they hold the items.
-/
theorem splitItems_eq_iff (s : Text) (items : List Text) :
    splitItems s = items ↔ ∃ runs, Runs s 0 runs ∧ runs.map (·.text s) = items := by
  obtain ⟨runs, hruns, htexts⟩ := (partedFrom_itemParts (Nat.zero_le s.length)).exists_runs
  constructor
  · intro h
    exact ⟨runs, hruns, htexts.trans h⟩
  · rintro ⟨runs', hruns', rfl⟩
    rw [hruns'.unique hruns]
    exact htexts.symm

/-- A quote inside an item keeps the blank behind it in the item, also if no other quote follows. -/
example : splitItems "a;;b\"c d\"=e \"f g".toList =
    ["a", "b\"c d\"", "e", "\"f g"].map String.toList := by
  decide +kernel

end Unmask.Script
