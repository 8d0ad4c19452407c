import Unmask.Expansion.Value
import Unmask.Proofs.Offsets

/-!
# Slices by machine integers

A slice takes sums of offsets and lengths, and then a range of characters.  The sums stay in the
range of offsets and the characters in the text, so `slice?`, which gives up where either fails,
never does.  What it gives are the characters between two places that are told over all integers.

    slice?_eq_some           a slice is taken, whatever the offsets
    slice?_isRange           the characters that it takes
-/

namespace Unmask.Expansion

open Template.Offset (least greatest inRange?)

/-- Where a slice of `n` characters starts. -/
def sliceStart? (start n : Int) : Option Int :=
  if start < 0 then (inRange? (n + start)).map (max 0) else some (min start n)

/-- Where a slice of `n` characters ends; a sum that is not negative stops at the greatest offset. -/
def sliceStop? (first n : Int) : (length : Option Int) → Option Int
  | none => some n
  | some l => if l < 0 then inRange? (n + l) else some (min n (min greatest (first + l)))

/-- The slice of a text, each sum being checked to be an offset and the range to lie in the text. -/
def slice? (start : Int) (length : Option Int) (s : Text) : Option Text := do
  let first ← sliceStart? start s.length
  let stop ← sliceStop? first s.length length
  if stop ≤ first then some []
  else if 0 ≤ first ∧ stop ≤ s.length then some ((s.take stop.toNat).drop first.toNat)
  else none

theorem inRange?_of_le {i : Int} (hleast : least ≤ i) (hgreatest : i ≤ greatest) :
    inRange? i = some i :=
  if_pos ⟨hleast, hgreatest⟩

/-- A range that ends in the text is taken, and one that ends in front of its start is empty. -/
theorem range_eq_some {first stop : Int} {s : Text} (hfirst : 0 ≤ first) (hstop : stop ≤ s.length) :
    (if stop ≤ first then some []
      else if 0 ≤ first ∧ stop ≤ s.length then some ((s.take stop.toNat).drop first.toNat)
      else none) = some ((s.take stop.toNat).drop first.toNat) := by
  split
  · next hle =>
    have hnil : (s.take stop.toNat).drop first.toNat = [] := by
      refine List.drop_eq_nil_of_le ?_
      rw [List.length_take]
      omega
    rw [hnil]
  · exact if_pos ⟨hfirst, hstop⟩

theorem sliceStart?_eq_some {start n : Int} (hn : 0 ≤ n) (hsize : n ≤ greatest)
    (hstart : least ≤ start) :
    sliceStart? start n = some (if start < 0 then max 0 (n + start) else min start n) := by
  unfold sliceStart?
  split
  · rw [inRange?_of_le (by omega) (by omega)]
    rfl
  · rfl

theorem sliceStop?_eq_some {first n l : Int} (hn : 0 ≤ n) (hsize : n ≤ greatest)
    (hlength : least ≤ l) :
    sliceStop? first n (some l) = some (if l < 0 then n + l else min n (first + l)) := by
  rw [sliceStop?]
  by_cases hl : l < 0
  · rw [if_pos hl, if_pos hl, inRange?_of_le (by omega) (by omega)]
  · rw [if_neg hl, if_neg hl]
    congr 1
    omega

/-- Offsets never take a slice out of the range of offsets or out of the text. -/
theorem slice?_eq_some {start : Int} {length : Option Int} {s : Text}
    (hsize : (s.length : Int) ≤ greatest) (hstart : least ≤ start)
    (hlength : ∀ l ∈ length, least ≤ l) : slice? start length s = some (slice start length s) := by
  have hn : 0 ≤ (s.length : Int) := Int.natCast_nonneg _
  have hfirst : 0 ≤ if start < 0 then max 0 ((s.length : Int) + start) else min start s.length := by
    split <;> omega
  unfold slice? slice
  rw [sliceStart?_eq_some hn hsize hstart]
  cases length with
  | none => exact range_eq_some hfirst (Int.le_refl _)
  | some l =>
    simp only [sliceStop?_eq_some hn hsize (hlength l rfl), bind, Option.bind]
    refine range_eq_some hfirst ?_
    split <;> omega

/-! ## The characters of a slice -/

def sliceFirst (start n : Int) : Int :=
  if start < 0 then max 0 (n + start) else min start n

def sliceEnd (first n : Int) : (length : Option Int) → Int
  | none => n
  | some l => if l < 0 then n + l else min n (first + l)

/-- The characters of a text from one place up to another, none if they are out of order. -/
structure IsRange (s : Text) (first stop : Int) (value : Text) : Prop where
  first_nonneg : 0 ≤ first
  stop_le : stop ≤ s.length
  length_eq : (value.length : Int) = max 0 (stop - first)
  getElem?_eq : ∀ place : Nat, first + place < stop → value[place]? = s[(first + place).toNat]?

theorem sliceFirst_nonneg {start n : Int} (hn : 0 ≤ n) : 0 ≤ sliceFirst start n := by
  unfold sliceFirst
  split <;> omega

theorem sliceEnd_le {first n : Int} (length : Option Int) : sliceEnd first n length ≤ n := by
  cases length with
  | none => exact Int.le_refl n
  | some l =>
    rw [sliceEnd]
    split <;> omega

theorem slice_eq (start : Int) (length : Option Int) (s : Text) :
    slice start length s =
      (s.take (sliceEnd (sliceFirst start s.length) s.length length).toNat).drop
        (sliceFirst start s.length).toNat := by
  cases length <;> rfl

theorem isRange_drop_take {first stop : Int} {s : Text} (hfirst : 0 ≤ first)
    (hstop : stop ≤ s.length) : IsRange s first stop ((s.take stop.toNat).drop first.toNat) where
  first_nonneg := hfirst
  stop_le := hstop
  length_eq := by
    rw [List.length_drop, List.length_take]
    omega
  getElem?_eq := by
    intro place hplace
    have hsum : first.toNat + place = (first + place).toNat := by omega
    rw [List.getElem?_drop, List.getElem?_take_of_lt (by omega), hsum]

/--
Whatever the offsets, a slice is taken with no sum out of range and no character out of the text,
and it holds the characters from its first place up to its end.
-/
theorem slice?_isRange {start : Int} {length : Option Int} {s : Text}
    (hsize : (s.length : Int) ≤ greatest) (hstart : least ≤ start)
    (hlength : ∀ l ∈ length, least ≤ l) :
    slice? start length s = some (slice start length s) ∧
      IsRange s (sliceFirst start s.length) (sliceEnd (sliceFirst start s.length) s.length length)
        (slice start length s) := by
  refine ⟨slice?_eq_some hsize hstart hlength, ?_⟩
  rw [slice_eq]
  exact isRange_drop_take (sliceFirst_nonneg (Int.natCast_nonneg _)) (sliceEnd_le length)

/-- A length that leads out of the range of offsets leads to the end of the text. -/
theorem slice?_isRange_extreme :
    let s := "HelloWorld".toList
    ((s.length : Int) ≤ greatest ∧ least ≤ -5 ∧ ∀ l ∈ some greatest, least ≤ l) ∧
      slice? (-5) (some greatest) s = some "World".toList ∧ IsRange s 5 10 "World".toList := by
  intro s
  have hsize : (s.length : Int) ≤ greatest := by decide
  have hlength : ∀ l ∈ some greatest, least ≤ l := fun l hl => by
    cases hl
    decide
  have hfirst : sliceFirst (-5) s.length = 5 := by decide
  have hend : sliceEnd 5 s.length (some greatest) = 10 := by decide
  have hvalue : slice (-5) (some greatest) s = "World".toList := by decide +kernel
  obtain ⟨hslice, hrange⟩ := slice?_isRange hsize (show least ≤ -5 by decide) hlength
  rw [hvalue] at hslice
  rw [hfirst, hend, hvalue] at hrange
  exact ⟨⟨hsize, by decide, hlength⟩, hslice, hrange⟩

end Unmask.Expansion
