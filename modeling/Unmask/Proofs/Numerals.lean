import Mathlib.Algebra.Group.Nat.Defs
import Mathlib.Data.List.Induction
import Unmask.Text.Numeral

/-!
# What digits write

A numeral writes a power of its base exactly if it is a one with as many zeros behind it as the
power says, and any number of zeros in front.  The decimal digits that a number is written with are
read as that number, and only zero is written with a zero in front.

    readDigits?_eq_zero_iff      a numeral of zero is made of zeros
    readDigits?_eq_pow_iff       a numeral of a power of the base
    readNat?_ofNat               a written number is read again
-/

namespace Unmask.Text

variable {base : Nat}

theorem digitValue?_lt {c : Char} {d : Nat} (h : digitValue? base c = some d) : d < base := by
  unfold digitValue? at h
  rw [Option.filter_eq_some_iff] at h
  exact of_decide_eq_true h.2

theorem toNat_digitChar : ∀ d < 10, (Nat.digitChar d).toNat = 48 + d := by decide

theorem digitValue?_eq_some_iff {d : Nat} (hdigit : d < 10) (hbase : d < base) {c : Char} :
    digitValue? base c = some d ↔ c = Nat.digitChar d := by
  have hchar := toNat_digitChar d hdigit
  unfold digitValue?
  dsimp only
  rw [Option.filter_eq_some_iff]
  constructor
  · rintro ⟨h, -⟩
    refine Char.toNat_inj.1 (hchar ▸ ?_)
    split at h
    · have := Option.some.inj h
      omega
    · split at h
      · have := Option.some.inj h
        omega
      · split at h
        · have := Option.some.inj h
          omega
        · cases h
  · rintro rfl
    refine ⟨?_, decide_eq_true hbase⟩
    rw [hchar, if_pos (by omega), Nat.add_sub_cancel_left]

/-- The last digit counts once, and the number in front of it `base` times. -/
theorem readDigits?_concat (n : Nat) (s : Text) (c : Char) :
    readDigits? base n (s ++ [c]) =
      (readDigits? base n s).bind fun m => (digitValue? base c).map fun d => m * base + d := by
  induction s generalizing n with
  | nil =>
    simp only [List.nil_append, readDigits?]
    cases digitValue? base c <;> rfl
  | cons a s ih =>
    simp only [List.cons_append, readDigits?]
    cases digitValue? base a with
    | none => rfl
    | some d => exact ih _

theorem readDigits?_concat_eq_some {n m : Nat} {s : Text} {c : Char} :
    readDigits? base n (s ++ [c]) = some m ↔
      ∃ k d, readDigits? base n s = some k ∧ digitValue? base c = some d ∧ k * base + d = m := by
  rw [readDigits?_concat, Option.bind_eq_some_iff]
  simp only [Option.map_eq_some_iff]
  constructor
  · rintro ⟨k, hk, d, hd, hm⟩
    exact ⟨k, d, hk, hd, hm⟩
  · rintro ⟨k, d, hk, hd, hm⟩
    exact ⟨k, hk, d, hd, hm⟩

theorem readDigits?_eq_zero_iff (hbase : 0 < base) {s : Text} :
    readDigits? base 0 s = some 0 ↔ ∃ zeros, s = List.replicate zeros '0' := by
  induction s using List.reverseRecOn with
  | nil => exact ⟨fun _ => ⟨0, rfl⟩, fun _ => rfl⟩
  | append_singleton s c ih =>
    rw [readDigits?_concat_eq_some]
    constructor
    · rintro ⟨k, d, hs, hc, hsum⟩
      obtain ⟨hk, rfl⟩ := Nat.add_eq_zero_iff.1 hsum
      obtain rfl : k = 0 := (Nat.mul_eq_zero.1 hk).resolve_right (Nat.ne_of_gt hbase)
      obtain ⟨zeros, rfl⟩ := ih.1 hs
      refine ⟨zeros + 1, ?_⟩
      rw [(digitValue?_eq_some_iff (by decide) hbase).1 hc, List.replicate_succ']
      rfl
    · rintro ⟨zeros, hzeros⟩
      have hmem : ∀ a ∈ s ++ [c], a = '0' := by
        rw [hzeros]
        exact fun a ha => List.eq_of_mem_replicate ha
      have hs : s = List.replicate s.length '0' :=
        List.eq_replicate_of_mem fun a ha => hmem a (List.mem_append_left _ ha)
      have hc : c = '0' := hmem c (List.mem_append_right _ List.mem_cons_self)
      refine ⟨0, 0, ih.2 ⟨_, hs⟩, (digitValue?_eq_some_iff (by decide) hbase).2 hc, ?_⟩
      rw [Nat.zero_mul]

/-- One is written as a one behind any number of zeros. -/
theorem readDigits?_eq_one_iff (hbase : 1 < base) {s : Text} :
    readDigits? base 0 s = some 1 ↔ ∃ zeros, s = List.replicate zeros '0' ++ ['1'] := by
  have hpos : 0 < base := Nat.lt_trans Nat.zero_lt_one hbase
  constructor
  · intro h
    cases s using List.reverseRecOn with
    | nil => cases h
    | append_singleton s c =>
      rw [readDigits?_concat_eq_some] at h
      obtain ⟨m, d, hs, hc, hsum⟩ := h
      have hm : m = 0 := by
        by_contra hne
        have := Nat.mul_le_mul (Nat.one_le_iff_ne_zero.2 hne) hbase
        omega
      subst hm
      rw [Nat.zero_mul, Nat.zero_add] at hsum
      subst hsum
      obtain ⟨zeros, rfl⟩ := (readDigits?_eq_zero_iff hpos).1 hs
      exact ⟨zeros, by rw [(digitValue?_eq_some_iff (by decide) hbase).1 hc]; rfl⟩
  · rintro ⟨zeros, rfl⟩
    refine readDigits?_concat_eq_some.2 ⟨0, 1, (readDigits?_eq_zero_iff hpos).2 ⟨zeros, rfl⟩,
      (digitValue?_eq_some_iff (by decide) hbase).2 rfl, ?_⟩
    omega

/-- A power of the base is written as a one and zeros, behind any number of zeros. -/
theorem readDigits?_eq_pow_iff (hbase : 1 < base) {k : Nat} {s : Text} :
    readDigits? base 0 s = some (base ^ k) ↔
      ∃ zeros, s = List.replicate zeros '0' ++ '1' :: List.replicate k '0' := by
  have hpos : 0 < base := Nat.lt_trans Nat.zero_lt_one hbase
  induction k generalizing s with
  | zero =>
    rw [Nat.pow_zero]
    exact readDigits?_eq_one_iff hbase
  | succ k ih =>
    constructor
    · intro h
      cases s using List.reverseRecOn with
      | nil =>
        have hk : 0 < base ^ (k + 1) := Nat.pow_pos hpos
        have := Option.some.inj h
        omega
      | append_singleton s c =>
        rw [readDigits?_concat_eq_some] at h
        obtain ⟨m, d, hs, hc, hsum⟩ := h
        rw [Nat.pow_succ] at hsum
        -- the last digit is the remainder by the base, and the others write the power below
        have hd : d = 0 := by
          have hmod := congrArg (· % base) hsum
          simpa [Nat.mod_eq_of_lt (digitValue?_lt hc)] using hmod
        subst hd
        have hm : m = base ^ k := Nat.eq_of_mul_eq_mul_right hpos hsum
        subst hm
        obtain ⟨zeros, rfl⟩ := ih.1 hs
        refine ⟨zeros, ?_⟩
        rw [(digitValue?_eq_some_iff (by decide) hpos).1 hc, List.append_assoc, List.cons_append,
          List.replicate_succ']
        rfl
    · rintro ⟨zeros, rfl⟩
      rw [List.replicate_succ', ← List.cons_append, ← List.append_assoc]
      refine readDigits?_concat_eq_some.2 ⟨base ^ k, 0, ih.2 ⟨zeros, rfl⟩,
        (digitValue?_eq_some_iff (by decide) hpos).2 rfl, ?_⟩
      rw [Nat.pow_succ, Nat.add_zero]

/-! ## Written numbers -/

/-- A number is written with one digit, or with the last digit behind those of the others. -/
theorem ofNat_induction {motive : Nat → Prop} (digit : ∀ d < 10, motive d)
    (digits : ∀ n, 10 ≤ n → motive (n / 10) → motive n) (n : Nat) : motive n := by
  induction n using Nat.strongRecOn with
  | ind n ih =>
    by_cases hn : n < 10
    · exact digit n hn
    · exact digits n (by omega) (ih (n / 10) (by omega))

theorem ofNat_digit {d : Nat} (h : d < 10) : ofNat d = [Nat.digitChar d] := by
  rw [ofNat, if_pos h]

theorem ofNat_digits {n : Nat} (h : 10 ≤ n) :
    ofNat n = ofNat (n / 10) ++ [Nat.digitChar (n % 10)] := by
  rw [ofNat, if_neg (by omega)]

theorem ofNat_ne_nil (n : Nat) : ofNat n ≠ [] := by
  rw [ofNat]
  split <;> simp

/-- What holds of the ten digits holds of every character of a number. -/
theorem forall_mem_ofNat {p : Char → Prop} (h : ∀ d < 10, p (Nat.digitChar d)) (n : Nat) :
    ∀ c ∈ ofNat n, p c := by
  induction n using ofNat_induction with
  | digit d hd =>
    rw [ofNat_digit hd]
    intro c hc
    rw [List.mem_singleton.1 hc]
    exact h d hd
  | digits n hn ih =>
    rw [ofNat_digits hn]
    intro c hc
    rcases List.mem_append.1 hc with hc | hc
    · exact ih c hc
    · rw [List.mem_singleton.1 hc]
      exact h _ (Nat.mod_lt n (by decide))

/-- And of those of an integer, if it holds of the sign as well. -/
theorem forall_mem_ofInt {p : Char → Prop} (hminus : p '-') (h : ∀ d < 10, p (Nat.digitChar d))
    (i : Int) : ∀ c ∈ ofInt i, p c := by
  cases i with
  | ofNat n => exact forall_mem_ofNat h n
  | negSucc n =>
    intro c hc
    rcases List.mem_cons.1 hc with rfl | hc
    · exact hminus
    · exact forall_mem_ofNat h _ c hc

theorem head?_ofNat_ne {n : Nat} (h : 0 < n) : (ofNat n).head? ≠ some '0' := by
  induction n using ofNat_induction with
  | digit d hd =>
    have hzero : ∀ d < 10, 0 < d → Nat.digitChar d ≠ '0' := by decide
    rw [ofNat_digit hd, List.head?_cons]
    exact fun he => hzero d hd h (Option.some.inj he)
  | digits n hn ih =>
    obtain ⟨c, s, hs⟩ := List.exists_cons_of_ne_nil (ofNat_ne_nil (n / 10))
    rw [hs] at ih
    rw [ofNat_digits hn, hs]
    exact ih (by omega)

theorem readDigits?_ofNat (n : Nat) : readDigits? 10 0 (ofNat n) = some n := by
  induction n using ofNat_induction with
  | digit d hd =>
    rw [ofNat_digit hd, ← List.nil_append [Nat.digitChar d]]
    exact readDigits?_concat_eq_some.2
      ⟨0, d, rfl, (digitValue?_eq_some_iff hd hd).2 rfl, by omega⟩
  | digits n hn ih =>
    have hlast : n % 10 < 10 := Nat.mod_lt n (by decide)
    rw [ofNat_digits hn]
    exact readDigits?_concat_eq_some.2
      ⟨n / 10, n % 10, ih, (digitValue?_eq_some_iff hlast hlast).2 rfl, by omega⟩

theorem readNat?_ofNat (n : Nat) : readNat? 10 (ofNat n) = some n := by
  rw [← readDigits?_ofNat n]
  cases hn : ofNat n with
  | nil => exact absurd hn (ofNat_ne_nil n)
  | cons c s => rfl

end Unmask.Text
