import Unmask.Proofs.Numerals
import Unmask.Template.Offset

/-!
# Offsets that overflow

Only the octal digits behind a leading zero can carry a second sign, so only they can write -2^63
behind a minus sign.  As 2^63 is a power of eight, there is one way to do so, up to zeros.

    read_eq_error_iff       the offsets that stop a run
    inRange_of_read         every other one lies in the range of offsets
-/

namespace Unmask.Template.Offset

/-- An offset that negates -2^63: behind `-0-`, a one and 21 zeros in octal. -/
def Overflows (s : Text) : Prop :=
  ∃ zeros, Text.trim s = "-0-".toList ++ (List.replicate zeros '0' ++ '1' :: List.replicate 21 '0')

theorem inRange?_eq_some {i j : Int} (h : inRange? i = some j) : j = i ∧ least ≤ i ∧ i ≤ greatest := by
  unfold inRange? at h
  split at h
  · next hi => exact ⟨(Option.some.inj h).symm, hi⟩
  · cases h

theorem inRange?_of_bind {base : Nat} {s : Text} {f : Nat → Int} {i : Int}
    (h : ((Text.readNat? base s).bind fun n => inRange? (f n)) = some i) :
    ∃ n, Text.readNat? base s = some n ∧ i = f n ∧ least ≤ i ∧ i ≤ greatest := by
  obtain ⟨n, hn, hi⟩ := Option.bind_eq_some_iff.1 h
  obtain ⟨rfl, hrange⟩ := inRange?_eq_some hi
  exact ⟨n, hn, rfl, hrange⟩

theorem ne_least_of_bind {base : Nat} {s : Text} :
    ((Text.readNat? base s).bind fun n => inRange? n) ≠ some least := by
  intro h
  obtain ⟨n, -, hi, -⟩ := inRange?_of_bind h
  unfold least at hi
  omega

theorem readNat?_eight_eq_some_iff {s : Text} :
    Text.readNat? 8 s = some (8 ^ 21) ↔
      ∃ zeros, s = List.replicate zeros '0' ++ '1' :: List.replicate 21 '0' := by
  rw [← Text.readDigits?_eq_pow_iff (show 1 < 8 by decide)]
  cases s with
  | nil => exact ⟨fun h => absurd h (by decide), fun h => absurd h (by decide)⟩
  | cons c s => rfl

theorem readSigned?_eq_least_iff {s : Text} :
    readSigned? 8 s = some least ↔
      ∃ zeros, s = '-' :: (List.replicate zeros '0' ++ '1' :: List.replicate 21 '0') := by
  constructor
  · intro h
    unfold readSigned? at h
    split at h
    · next s =>
      obtain ⟨n, hn, hi, -⟩ := inRange?_of_bind h
      have hpow : n = 8 ^ 21 := by
        unfold least at hi
        omega
      subst hpow
      obtain ⟨zeros, rfl⟩ := readNat?_eight_eq_some_iff.1 hn
      exact ⟨zeros, rfl⟩
    · exact absurd h ne_least_of_bind
    · exact absurd h ne_least_of_bind
  · rintro ⟨zeros, rfl⟩
    have hread := readNat?_eight_eq_some_iff.2 ⟨zeros, rfl⟩
    simp only [readSigned?, hread]
    rfl

theorem readUnsigned?_eq_least_iff {s : Text} :
    readUnsigned? s = some least ↔
      ∃ zeros, s = "0-".toList ++ (List.replicate zeros '0' ++ '1' :: List.replicate 21 '0') := by
  constructor
  · intro h
    unfold readUnsigned? at h
    split at h
    · exact absurd h ne_least_of_bind
    · exact absurd h ne_least_of_bind
    · next c s _ _ =>
      obtain ⟨zeros, hs⟩ := readSigned?_eq_least_iff.1 h
      exact ⟨zeros, by rw [hs]; rfl⟩
    · exact absurd h ne_least_of_bind
  · rintro ⟨zeros, rfl⟩
    exact readSigned?_eq_least_iff.2 ⟨zeros, rfl⟩

/-- A number that starts with a digit lies in the range of offsets. -/
theorem inRange_of_readUnsigned {s : Text} {i : Int} (h : readUnsigned? s = some i) :
    least ≤ i ∧ i ≤ greatest := by
  unfold readUnsigned? at h
  split at h
  · exact (inRange?_of_bind h).choose_spec.2.2
  · exact (inRange?_of_bind h).choose_spec.2.2
  · unfold readSigned? at h
    split at h
    · exact (inRange?_of_bind h).choose_spec.2.2
    · exact (inRange?_of_bind h).choose_spec.2.2
    · exact (inRange?_of_bind h).choose_spec.2.2
  · exact (inRange?_of_bind h).choose_spec.2.2

theorem eq_minus_of_splitSign {s : Text} (h : (splitSign s).1 = true) :
    s = '-' :: (splitSign s).2 := by
  unfold splitSign at h ⊢
  split at h
  · rfl
  · cases h
  · cases h

/-- Reading stops at the offsets that overflow and at no others. -/
theorem read_eq_error_iff {s : Text} {fault : Fault} :
    read s = .error fault ↔ fault = .offsetOverflow ∧ Overflows s := by
  unfold read Overflows
  constructor
  · intro h
    dsimp only at h
    split at h
    · cases h
    · split at h
      · cases h
      · next i hi =>
        split at h
        · next hneg =>
          split at h
          · next hleast =>
            rw [hleast] at hi
            obtain ⟨zeros, hz⟩ := readUnsigned?_eq_least_iff.1 hi
            cases h
            refine ⟨rfl, zeros, ?_⟩
            rw [eq_minus_of_splitSign hneg, hz]
            rfl
          · cases h
        · cases h
  · rintro ⟨rfl, zeros, hs⟩
    rw [hs]
    have hread := readUnsigned?_eq_least_iff.2 ⟨zeros, rfl⟩
    rw [String.toList_ofList] at hread ⊢
    simp only [splitSign, List.cons_append, List.nil_append] at hread ⊢
    rw [hread]
    rfl

theorem inRange_of_read {s : Text} {i : Int} (h : read s = .ok (some i)) :
    least ≤ i ∧ i ≤ greatest := by
  unfold read at h
  dsimp only at h
  split at h
  · cases h
  · split at h
    · cases h
    · next j hj =>
      have hrange := inRange_of_readUnsigned hj
      split at h
      · split at h
        · cases h
        · next hne =>
          cases h
          unfold least greatest at *
          omega
      · cases h
        exact hrange

end Unmask.Template.Offset
