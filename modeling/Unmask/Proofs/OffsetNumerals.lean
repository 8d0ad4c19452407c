import Mathlib.Data.List.Forall2
import Mathlib.Data.Nat.Digits.Defs
import Unmask.Proofs.Offsets

/-!
# Offsets as numerals

The numerals of an offset are those that `strtol` reads in base zero: an optional sign, and then
hexadecimal digits behind `0x`, octal digits behind a leading zero, or a decimal number.  Octal
digits are read with a sign of their own, so that an offset may have two, and these offsets are the
only ones that are read and are no numerals.

    readNat?_eq_some_iff     digits are read as the number they write
    read_eq_some_iff         the offsets that are read, and as what
    read_eq_none_iff         the texts that are no offset
    read_numeral_iff         where reading follows the numerals
-/

namespace Unmask

/-! ## Digits -/

namespace Text

/-- A character is the digit worth `d` in base `base`; a letter may be of either case. -/
def IsDigit (base : Nat) (c : Char) (d : Nat) : Prop :=
  d < base ∧ (c = Nat.digitChar d ∨ c = (Nat.digitChar d).toUpper)

/-- A text of digits in base `base`, of which the last counts the ones, writes a number. -/
def Writes (base : Nat) (s : Text) (n : Nat) : Prop :=
  ∃ digits, List.Forall₂ (IsDigit base) s.reverse digits ∧ Nat.ofDigits base digits = n

variable {base : Nat}

theorem digitValue?_digitChar : ∀ d < 16, digitValue? 16 (Nat.digitChar d) = some d ∧
    digitValue? 16 (Nat.digitChar d).toUpper = some d := by decide

theorem digitChar_of_digitValue? : ∀ n < 128, ∀ d < 16, digitValue? 16 (Char.ofNat n) = some d →
    Char.ofNat n = Nat.digitChar d ∨ Char.ofNat n = (Nat.digitChar d).toUpper := by
  decide +kernel

theorem toNat_lt_of_digitValue? {c : Char} {d : Nat} (h : digitValue? base c = some d) :
    c.toNat < 128 := by
  unfold digitValue? at h
  obtain ⟨h, -⟩ := Option.filter_eq_some_iff.1 h
  split at h
  · omega
  · split at h
    · omega
    · split at h
      · omega
      · cases h

/-- A digit in a small base is a digit in a greater one, if it is small. -/
theorem digitValue?_eq_sixteen (hbase : base ≤ 16) {c : Char} {d : Nat} :
    digitValue? base c = some d ↔ digitValue? 16 c = some d ∧ d < base := by
  unfold digitValue?
  dsimp only
  simp only [Option.filter_eq_some_iff, decide_eq_true_eq]
  constructor
  · rintro ⟨h, hd⟩
    exact ⟨⟨h, by omega⟩, hd⟩
  · rintro ⟨⟨h, -⟩, hd⟩
    exact ⟨h, hd⟩

theorem digitValue?_eq_some_iff_isDigit (hbase : base ≤ 16) {c : Char} {d : Nat} :
    digitValue? base c = some d ↔ IsDigit base c d := by
  rw [digitValue?_eq_sixteen hbase]
  constructor
  · rintro ⟨h, hd⟩
    refine ⟨hd, ?_⟩
    have hchar := digitChar_of_digitValue? c.toNat (toNat_lt_of_digitValue? h) d (by omega)
    rw [Char.ofNat_toNat] at hchar
    exact hchar h
  · rintro ⟨hd, rfl | rfl⟩
    · exact ⟨(digitValue?_digitChar d (by omega)).1, hd⟩
    · exact ⟨(digitValue?_digitChar d (by omega)).2, hd⟩

theorem writes_nil {n : Nat} : Writes base [] n ↔ n = 0 := by
  constructor
  · rintro ⟨digits, hdigits, rfl⟩
    rw [List.reverse_nil, List.forall₂_nil_left_iff] at hdigits
    rw [hdigits, Nat.ofDigits_nil]
  · rintro rfl
    exact ⟨[], .nil, Nat.ofDigits_nil⟩

theorem writes_concat {s : Text} {c : Char} {n : Nat} :
    Writes base (s ++ [c]) n ↔ ∃ k d, Writes base s k ∧ IsDigit base c d ∧ k * base + d = n := by
  constructor
  · rintro ⟨digits, hdigits, rfl⟩
    rw [List.reverse_concat, List.forall₂_cons_left_iff] at hdigits
    obtain ⟨d, rest, hd, hrest, rfl⟩ := hdigits
    refine ⟨_, d, ⟨rest, hrest, rfl⟩, hd, ?_⟩
    rw [Nat.ofDigits_cons, Nat.mul_comm, Nat.add_comm]
  · rintro ⟨k, d, ⟨rest, hrest, rfl⟩, hd, rfl⟩
    refine ⟨d :: rest, ?_, ?_⟩
    · rw [List.reverse_concat]
      exact .cons hd hrest
    · rw [Nat.ofDigits_cons, Nat.mul_comm, Nat.add_comm]

/-- Digits are read as the number they write. -/
theorem readDigits?_eq_some_iff (hbase : base ≤ 16) {s : Text} {n : Nat} :
    readDigits? base 0 s = some n ↔ Writes base s n := by
  induction s using List.reverseRecOn generalizing n with
  | nil =>
    rw [writes_nil, readDigits?, Option.some.injEq]
    exact eq_comm
  | append_singleton s c ih =>
    rw [readDigits?_concat_eq_some, writes_concat]
    simp only [ih, digitValue?_eq_some_iff_isDigit hbase]

theorem readNat?_eq_some_iff (hbase : base ≤ 16) {s : Text} {n : Nat} :
    readNat? base s = some n ↔ s ≠ [] ∧ Writes base s n := by
  rw [← readDigits?_eq_some_iff hbase]
  cases s with
  | nil => exact ⟨(by cases ·), fun h => absurd rfl h.1⟩
  | cons c s => exact ⟨fun h => ⟨List.cons_ne_nil c s, h⟩, fun h => h.2⟩

theorem Writes.isDigit_of_mem {s : Text} {n : Nat} (h : Writes base s n) {c : Char} (hc : c ∈ s) :
    ∃ d, IsDigit base c d := by
  induction s using List.reverseRecOn generalizing n with
  | nil => cases hc
  | append_singleton s last ih =>
    obtain ⟨k, d, hs, hlast, -⟩ := writes_concat.1 h
    rcases List.mem_append.1 hc with hc | hc
    · exact ih hs hc
    · rw [List.mem_singleton.1 hc]
      exact ⟨d, hlast⟩

theorem IsDigit.isDigit (hbase : base ≤ 10) {c : Char} {d : Nat} (h : IsDigit base c d) :
    c.isDigit := by
  have hchar : ∀ d < 10, (Nat.digitChar d).isDigit ∧ (Nat.digitChar d).toUpper.isDigit := by decide
  obtain ⟨hd, rfl | rfl⟩ := h
  · exact (hchar d (by omega)).1
  · exact (hchar d (by omega)).2

theorem not_writes_cons (hbase : base ≤ 10) {c : Char} (hc : c.isDigit = false) {s : Text}
    {n : Nat} : ¬ Writes base (c :: s) n := by
  intro h
  obtain ⟨d, hd⟩ := h.isDigit_of_mem List.mem_cons_self
  rw [hd.isDigit hbase] at hc
  cases hc

end Text

/-! ## Numerals -/

namespace Template.Offset

open Text (Writes)

/-- A number without a sign: in hexadecimal, in octal or in decimal. -/
inductive Magnitude : Text → Nat → Prop
  | hexadecimal {x : Char} {s : Text} {n : Nat} (mark : x = 'x' ∨ x = 'X') (nonempty : s ≠ [])
      (digits : Writes 16 s n) : Magnitude ('0' :: x :: s) n
  | octal {s : Text} {n : Nat} (digits : Writes 8 s n) : Magnitude ('0' :: s) n
  | decimal {c : Char} {s : Text} {n : Nat} (nonzero : c ≠ '0') (digits : Writes 10 (c :: s) n) :
      Magnitude (c :: s) n

/-- An optional sign, and the factor it stands for. -/
inductive Sign : Text → Int → Prop
  | none : Sign [] 1
  | plus : Sign ['+'] 1
  | minus : Sign ['-'] (-1)

def Unsigned (s : Text) (i : Int) : Prop :=
  ∃ n : Nat, Magnitude s n ∧ (n : Int) ≤ greatest ∧ i = n

/-- The numeral of an integer: an optional sign and a number in the range of offsets. -/
def Numeral (s : Text) (i : Int) : Prop :=
  ∃ sign factor digits j, Sign sign factor ∧ Unsigned digits j ∧ s = sign ++ digits ∧ i = factor * j

/-- Octal digits behind a leading zero and a sign, in the range of offsets. -/
def SecondSigned (s : Text) (i : Int) : Prop :=
  ∃ sign factor digits n, Sign sign factor ∧ sign ≠ [] ∧ digits ≠ [] ∧ Writes 8 digits n ∧
    s = '0' :: (sign ++ digits) ∧ i = factor * n ∧ least ≤ i ∧ i ≤ greatest

/-- An octal number with an optional sign in front of its leading zero, and a sign behind it. -/
def TwoSigned (s : Text) (i : Int) : Prop :=
  ∃ sign factor digits j, Sign sign factor ∧ SecondSigned digits j ∧ s = sign ++ digits ∧
    i = factor * j

theorem bind_inRange?_eq_some_iff {base : Nat} (hbase : base ≤ 16) {s : Text} {f : Nat → Int}
    {i : Int} : ((Text.readNat? base s).bind fun n => inRange? (f n)) = some i ↔
      ∃ n, s ≠ [] ∧ Writes base s n ∧ i = f n ∧ least ≤ i ∧ i ≤ greatest := by
  constructor
  · intro h
    obtain ⟨n, hn, hi⟩ := inRange?_of_bind h
    obtain ⟨hne, hs⟩ := (Text.readNat?_eq_some_iff hbase).1 hn
    exact ⟨n, hne, hs, hi⟩
  · rintro ⟨n, hne, hs, rfl, hrange⟩
    refine Option.bind_eq_some_iff.2 ⟨n, (Text.readNat?_eq_some_iff hbase).2 ⟨hne, hs⟩, ?_⟩
    exact if_pos hrange

/-! ## Reading a number -/

section

variable {s : Text} {c : Char} {n : Nat} {i : Int}

theorem magnitude_hexadecimal_iff (hc : c = 'x' ∨ c = 'X') :
    Magnitude ('0' :: c :: s) n ↔ s ≠ [] ∧ Writes 16 s n := by
  constructor
  · intro h
    cases h with
    | hexadecimal mark nonempty digits => exact ⟨nonempty, digits⟩
    | octal digits =>
      refine absurd digits (Text.not_writes_cons (by decide) ?_)
      rcases hc with rfl | rfl <;> decide
    | decimal nonzero digits => exact absurd rfl nonzero
  · rintro ⟨nonempty, digits⟩
    exact .hexadecimal hc nonempty digits

theorem magnitude_octal_iff (hc : ∀ c ∈ s.head?, c ≠ 'x' ∧ c ≠ 'X') :
    Magnitude ('0' :: s) n ↔ Writes 8 s n := by
  constructor
  · intro h
    cases h with
    | hexadecimal mark nonempty digits =>
      rcases mark with rfl | rfl
      · exact absurd rfl (hc 'x' rfl).1
      · exact absurd rfl (hc 'X' rfl).2
    | octal digits => exact digits
    | decimal nonzero digits => exact absurd rfl nonzero
  · exact .octal

theorem magnitude_decimal_iff (hc : s.head? ≠ some '0') :
    Magnitude s n ↔ s ≠ [] ∧ Writes 10 s n := by
  constructor
  · intro h
    cases h with
    | hexadecimal mark nonempty digits => exact absurd rfl hc
    | octal digits => exact absurd rfl hc
    | decimal nonzero digits => exact ⟨List.cons_ne_nil _ _, digits⟩
  · rintro ⟨nonempty, digits⟩
    obtain ⟨c, s, rfl⟩ := List.exists_cons_of_ne_nil nonempty
    exact .decimal (fun h => hc (by rw [h]; rfl)) digits

/-- Zero alone is octal and has no digits behind its leading zero; it is read in decimal. -/
theorem magnitude_zero_iff : Magnitude ['0'] n ↔ ['0'] ≠ [] ∧ Writes 10 ['0'] n := by
  have hread : Text.readNat? 10 ['0'] = Text.readDigits? 8 0 [] := by decide
  rw [magnitude_octal_iff (fun c hc => by cases hc), ← Text.readNat?_eq_some_iff (by decide),
    ← Text.readDigits?_eq_some_iff (by decide), hread]

theorem secondSigned_plus_iff : SecondSigned ('0' :: '+' :: s) i ↔
    ∃ n : Nat, s ≠ [] ∧ Writes 8 s n ∧ i = n ∧ least ≤ i ∧ i ≤ greatest := by
  constructor
  · rintro ⟨sign, factor, digits, n, hsign, hne, hdigits, hn, hs, hi, hrange⟩
    cases hsign with
    | none => exact absurd rfl hne
    | plus =>
      cases hs
      exact ⟨n, hdigits, hn, by omega, hrange⟩
    | minus => cases hs
  · rintro ⟨n, hdigits, hn, hi, hrange⟩
    exact ⟨['+'], 1, s, n, .plus, List.cons_ne_nil _ _, hdigits, hn, rfl, by omega, hrange⟩

theorem secondSigned_minus_iff : SecondSigned ('0' :: '-' :: s) i ↔
    ∃ n : Nat, s ≠ [] ∧ Writes 8 s n ∧ i = -n ∧ least ≤ i ∧ i ≤ greatest := by
  constructor
  · rintro ⟨sign, factor, digits, n, hsign, hne, hdigits, hn, hs, hi, hrange⟩
    cases hsign with
    | none => exact absurd rfl hne
    | plus => cases hs
    | minus =>
      cases hs
      exact ⟨n, hdigits, hn, by omega, hrange⟩
  · rintro ⟨n, hdigits, hn, hi, hrange⟩
    exact ⟨['-'], -1, s, n, .minus, List.cons_ne_nil _ _, hdigits, hn, rfl, by omega, hrange⟩

theorem SecondSigned.exists_cons (h : SecondSigned s i) :
    ∃ c digits, (c = '+' ∨ c = '-') ∧ s = '0' :: c :: digits := by
  obtain ⟨sign, factor, digits, n, hsign, hne, -, -, rfl, -⟩ := h
  cases hsign with
  | none => exact absurd rfl hne
  | plus => exact ⟨'+', digits, .inl rfl, rfl⟩
  | minus => exact ⟨'-', digits, .inr rfl, rfl⟩

theorem not_magnitude_cons (hc : c = '+' ∨ c = '-') : ¬ Magnitude ('0' :: c :: s) n := by
  have hsign : c ≠ 'x' ∧ c ≠ 'X' ∧ c.isDigit = false := by rcases hc with rfl | rfl <;> decide
  have hletter : ∀ d ∈ (c :: s).head?, d ≠ 'x' ∧ d ≠ 'X' := fun d hd => by
    cases hd
    exact ⟨hsign.1, hsign.2.1⟩
  rw [magnitude_octal_iff hletter]
  exact Text.not_writes_cons (by decide) hsign.2.2

theorem SecondSigned.not_unsigned {j : Int} (h : SecondSigned s i) : ¬ Unsigned s j := by
  obtain ⟨c, digits, hc, rfl⟩ := h.exists_cons
  exact fun ⟨n, hn, _⟩ => not_magnitude_cons hc hn

/-- Digits that are those of a number are read as the number. -/
theorem bind_inRange?_eq_some_iff_unsigned {base : Nat} (hbase : base ≤ 16) {t : Text}
    (hmagnitude : ∀ n, Magnitude s n ↔ t ≠ [] ∧ Writes base t n) (hsecond : ¬ SecondSigned s i) :
    ((Text.readNat? base t).bind fun n => inRange? n) = some i ↔
      Unsigned s i ∨ SecondSigned s i := by
  rw [bind_inRange?_eq_some_iff hbase, or_iff_left hsecond]
  unfold Unsigned
  simp only [hmagnitude]
  constructor
  · rintro ⟨n, hne, hn, rfl, hrange⟩
    exact ⟨n, ⟨hne, hn⟩, hrange.2, rfl⟩
  · rintro ⟨n, ⟨hne, hn⟩, hbound, rfl⟩
    refine ⟨n, hne, hn, rfl, ?_, hbound⟩
    unfold least
    omega

theorem readSigned?_eq_some_iff (hletter : ∀ c ∈ s.head?, c ≠ 'x' ∧ c ≠ 'X') (hne : s ≠ []) :
    readSigned? 8 s = some i ↔ Unsigned ('0' :: s) i ∨ SecondSigned ('0' :: s) i := by
  -- behind a second sign stand no digits of a number, and digits of a number have no second sign
  unfold readSigned?
  split
  · next t =>
    have hno : ¬ Unsigned ('0' :: '-' :: t) i :=
      fun ⟨n, hn, _⟩ => not_magnitude_cons (.inr rfl) hn
    rw [or_iff_right hno, secondSigned_minus_iff, bind_inRange?_eq_some_iff (by decide)]
  · next t =>
    have hno : ¬ Unsigned ('0' :: '+' :: t) i :=
      fun ⟨n, hn, _⟩ => not_magnitude_cons (.inl rfl) hn
    rw [or_iff_right hno, secondSigned_plus_iff, bind_inRange?_eq_some_iff (by decide)]
  · next hminus hplus =>
    refine bind_inRange?_eq_some_iff_unsigned (by decide) (fun n => ?_) fun h => ?_
    · rw [magnitude_octal_iff hletter]
      exact (and_iff_right hne).symm
    · obtain ⟨c, digits, hc, hs⟩ := h.exists_cons
      cases hs
      rcases hc with rfl | rfl
      · exact hplus _ rfl
      · exact hminus _ rfl

/-- What is read without a sign: a number, or octal digits with a second sign. -/
theorem readUnsigned?_eq_some_iff :
    readUnsigned? s = some i ↔ Unsigned s i ∨ SecondSigned s i := by
  have hmark {c : Char} (hc : c = 'x' ∨ c = 'X') (t : Text) : ¬ SecondSigned ('0' :: c :: t) i := by
    intro h
    obtain ⟨d, digits, hd, hs⟩ := h.exists_cons
    cases hs
    rcases hc with rfl | rfl <;> rcases hd with hd | hd <;> cases hd
  unfold readUnsigned?
  split
  · next t =>
    exact bind_inRange?_eq_some_iff_unsigned (by decide)
      (fun n => magnitude_hexadecimal_iff (.inl rfl)) (hmark (.inl rfl) t)
  · next t =>
    exact bind_inRange?_eq_some_iff_unsigned (by decide)
      (fun n => magnitude_hexadecimal_iff (.inr rfl)) (hmark (.inr rfl) t)
  · next c t hx hX =>
    refine readSigned?_eq_some_iff (fun d hd => ?_) (List.cons_ne_nil c t)
    cases hd
    exact ⟨fun h => hx (h ▸ rfl), fun h => hX (h ▸ rfl)⟩
  · next hx hX hzero =>
    refine bind_inRange?_eq_some_iff_unsigned (by decide) (fun n => ?_) fun h => ?_
    · by_cases hhead : s.head? = some '0'
      · obtain ⟨t, rfl⟩ := List.head?_eq_some_iff.1 hhead
        cases t with
        | nil => exact magnitude_zero_iff
        | cons c t => exact (hzero c t rfl).elim
      · exact magnitude_decimal_iff hhead
    · obtain ⟨c, digits, -, hs⟩ := h.exists_cons
      exact hzero c digits hs

end

/-! ## Reading an offset -/

variable {s : Text}

theorem exists_sign (s : Text) :
    ∃ sign factor, Sign sign factor ∧ s = sign ++ (splitSign s).2 := by
  unfold splitSign
  split
  · exact ⟨['-'], -1, .minus, rfl⟩
  · exact ⟨['+'], 1, .plus, rfl⟩
  · exact ⟨[], 1, .none, rfl⟩

/-- In front of a digit there is one way to take a sign off. -/
theorem splitSign_append {sign digits : Text} {factor : Int} (hsign : Sign sign factor)
    (hdigit : digits.head?.any Char.isDigit) :
    splitSign (sign ++ digits) = (decide (factor < 0), digits) := by
  cases hsign with
  | none =>
    unfold splitSign
    split
    · next heq =>
      rw [List.nil_append] at heq
      rw [heq] at hdigit
      cases hdigit
    · next heq =>
      rw [List.nil_append] at heq
      rw [heq] at hdigit
      cases hdigit
    · rfl
  | plus => rfl
  | minus => rfl

theorem head?_of_readUnsigned? {digits : Text} {i : Int} (h : readUnsigned? digits = some i) :
    digits.head?.any Char.isDigit := by
  rcases readUnsigned?_eq_some_iff.1 h with ⟨n, hn, -⟩ | h
  · cases hn with
    | hexadecimal => rfl
    | octal => rfl
    | decimal _ hdigits =>
      obtain ⟨d, hd⟩ := hdigits.isDigit_of_mem List.mem_cons_self
      exact hd.isDigit (by decide)
  · obtain ⟨c, digits, -, rfl⟩ := h.exists_cons
    rfl

/-- A text that is read: an optional sign, and what is read without one. -/
def IsRead (s : Text) (i : Int) : Prop :=
  ∃ sign factor digits j, Sign sign factor ∧ readUnsigned? digits = some j ∧
    Text.trim s = sign ++ digits ∧ i = factor * j

theorem isRead_iff {s : Text} {i : Int} :
    IsRead s i ↔ Numeral (Text.trim s) i ∨ TwoSigned (Text.trim s) i := by
  constructor
  · rintro ⟨sign, factor, digits, j, hsign, hj, hs, hi⟩
    rcases readUnsigned?_eq_some_iff.1 hj with hj | hj
    · exact .inl ⟨sign, factor, digits, j, hsign, hj, hs, hi⟩
    · exact .inr ⟨sign, factor, digits, j, hsign, hj, hs, hi⟩
  · rintro (hnumeral | htwo)
    · obtain ⟨sign, factor, digits, j, hsign, hj, hs, hi⟩ := hnumeral
      exact ⟨sign, factor, digits, j, hsign, readUnsigned?_eq_some_iff.2 (.inl hj), hs, hi⟩
    · obtain ⟨sign, factor, digits, j, hsign, hj, hs, hi⟩ := htwo
      exact ⟨sign, factor, digits, j, hsign, readUnsigned?_eq_some_iff.2 (.inr hj), hs, hi⟩

/-- A text that is read is worth its integer, if that is in the range of offsets. -/
theorem read_of_isRead {s : Text} {i : Int} (h : IsRead s i) :
    read s = if i ≤ greatest then .ok (some i) else .error .offsetOverflow := by
  obtain ⟨sign, factor, digits, j, hsign, hj, hs, rfl⟩ := h
  have hdigit := head?_of_readUnsigned? hj
  have hrange := inRange_of_readUnsigned hj
  unfold read
  rw [hs, splitSign_append hsign hdigit]
  dsimp only
  rw [if_neg (not_not_intro hdigit), hj]
  dsimp only
  have hfactor : factor = 1 ∨ factor = -1 := by cases hsign <;> decide
  rcases hfactor with rfl | rfl
  · rw [if_neg (by decide), Int.one_mul, if_pos hrange.2]
  · -- only the negative of the least offset leaves the range
    rw [if_pos (by decide), Int.neg_one_mul]
    by_cases hleast : j = least
    · rw [if_pos hleast, hleast, if_neg (by decide)]
    · rw [if_neg hleast, if_pos]
      unfold least greatest at *
      omega

theorem read_of_not_isRead {s : Text} (h : ∀ i, ¬ IsRead s i) : read s = .ok none := by
  obtain ⟨sign, factor, hsign, hs⟩ := exists_sign (Text.trim s)
  unfold read
  dsimp only
  split
  · rfl
  · cases hj : readUnsigned? (splitSign (Text.trim s)).2 with
    | none => rfl
    | some j => exact absurd ⟨sign, factor, _, j, hsign, hj, hs, rfl⟩ (h (factor * j))

/-- An offset is read as its numeral, or as what it is worth with two signs. -/
theorem read_eq_some_iff {i : Int} : read s = .ok (some i) ↔
    i ≤ greatest ∧ (Numeral (Text.trim s) i ∨ TwoSigned (Text.trim s) i) := by
  rw [← isRead_iff]
  constructor
  · intro h
    by_cases hread : ∃ j, IsRead s j
    · obtain ⟨j, hj⟩ := hread
      rw [read_of_isRead hj] at h
      split at h
      · next hbound =>
        cases h
        exact ⟨hbound, hj⟩
      · cases h
    · rw [read_of_not_isRead (not_exists.1 hread)] at h
      cases h
  · rintro ⟨hbound, hi⟩
    rw [read_of_isRead hi, if_pos hbound]

theorem read_eq_none_iff : read s = .ok none ↔
    ∀ i, ¬ Numeral (Text.trim s) i ∧ ¬ TwoSigned (Text.trim s) i := by
  simp only [← not_or, ← isRead_iff]
  constructor
  · intro h i hi
    rw [read_of_isRead hi] at h
    split at h <;> cases h
  · exact read_of_not_isRead

theorem Numeral.le_greatest {i : Int} (h : Numeral s i) : i ≤ greatest := by
  obtain ⟨sign, factor, digits, j, hsign, ⟨n, -, hbound, rfl⟩, -, rfl⟩ := h
  cases hsign <;> omega

/-- An offset with two signs is no numeral. -/
theorem TwoSigned.not_numeral {i j : Int} (h : TwoSigned s i) : ¬ Numeral s j := by
  rintro ⟨sign, factor, digits, n, hsign, hn, rfl, -⟩
  obtain ⟨sign', factor', digits', i', hsign', hi', hs, -⟩ := h
  have hdigit := head?_of_readUnsigned? (readUnsigned?_eq_some_iff.2 (.inl hn))
  have hdigit' := head?_of_readUnsigned? (readUnsigned?_eq_some_iff.2 (.inr hi'))
  have hsplit := splitSign_append hsign hdigit
  rw [hs, splitSign_append hsign' hdigit', Prod.mk.injEq] at hsplit
  exact hi'.not_unsigned (hsplit.2 ▸ hn)

/--
A trimmed text is read as the integer whose numeral it is, or as what it is worth with two signs if
that is in the range of offsets, and it is no offset if it is neither.  So reading follows the
numerals unless there is a second sign behind the leading zero, and in no other case.
-/
theorem read_numeral_iff (s : Text) :
    (∀ i, read s = .ok (some i) ↔
      i ≤ greatest ∧ (Numeral (Text.trim s) i ∨ TwoSigned (Text.trim s) i)) ∧
    (read s = .ok none ↔ ∀ i, ¬ Numeral (Text.trim s) i ∧ ¬ TwoSigned (Text.trim s) i) ∧
    (((∀ i, read s = .ok (some i) ↔ Numeral (Text.trim s) i) ∧
      (read s = .ok none ↔ ∀ i, ¬ Numeral (Text.trim s) i)) ↔
        ∀ i, ¬ TwoSigned (Text.trim s) i) := by
  refine ⟨fun i => read_eq_some_iff, read_eq_none_iff, ?_⟩
  constructor
  · rintro ⟨-, hnone⟩ i hi
    have hread := hnone.2 fun j => hi.not_numeral
    exact (read_eq_none_iff.1 hread i).2 hi
  · intro hno
    constructor
    · intro i
      rw [read_eq_some_iff, or_iff_left (hno i)]
      exact ⟨fun h => h.2, fun h => ⟨h.le_greatest, h⟩⟩
    · rw [read_eq_none_iff]
      exact forall_congr' fun i => and_iff_left (hno i)

/-- Behind its leading zero `0-7` has a sign, and it is read. -/
theorem read_secondSign : read "0-7".toList = .ok (some (-7)) ∧
    ∀ i, ¬ Numeral (Text.trim "0-7".toList) i := by
  have hsecond : SecondSigned "0-7".toList (-7) :=
    secondSigned_minus_iff.2 ⟨7, List.cons_ne_nil _ _,
      (Text.readDigits?_eq_some_iff (by decide)).1 (by decide), rfl, by decide, by decide⟩
  have hsigned : TwoSigned (Text.trim "0-7".toList) (-7) :=
    ⟨[], 1, _, -7, .none, hsecond, by decide, rfl⟩
  exact ⟨by decide, fun i => hsigned.not_numeral⟩

end Template.Offset

end Unmask
