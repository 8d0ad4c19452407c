import Mathlib.Data.List.Forall2
import Mathlib.Data.Nat.Init
import Unmask.Expansion.Scope

/-!
# Names in another letter case

A name is kept under the lower-case form of the whole name.  Two spellings of a name, with the same
lower-case character at each place, have the same form unless a capital sigma stands at the end of
a word in one of them: there it becomes a final sigma, which a small sigma does not.

    lowercase_eq_iff         spellings with the same lower-case form
    oneVariable_iff          spellings under which the same is found, whatever is defined
-/

namespace Unmask

namespace Text

/-- Two texts have the same lower-case characters, each taken alone. -/
def SameLower (s t : Text) : Prop :=
  List.Forall₂ (fun c d => lowerChar c = lowerChar d) s t

/-- A capital sigma stands at a place, behind a cased letter and not in front of one. -/
def FinalSigma (s : Text) (place : Nat) : Prop :=
  s[place]? = some 'Σ' ∧ startsCased (s.take place).reverse = true ∧
    startsCased (s.drop (place + 1)) = false

instance (s t : Text) : Decidable (SameLower s t) :=
  inferInstanceAs (Decidable (List.Forall₂ _ s t))

instance (s : Text) (place : Nat) : Decidable (FinalSigma s place) :=
  inferInstanceAs (Decidable (_ ∧ _))

/-- A final sigma of a text that follows the characters `before`, nearest first. -/
def FinalSigmaFrom (before s : Text) (place : Nat) : Prop :=
  s[place]? = some 'Σ' ∧ startsCased ((s.take place).reverse ++ before) = true ∧
    startsCased (s.drop (place + 1)) = false

theorem finalSigmaFrom_nil {s : Text} {place : Nat} :
    FinalSigmaFrom [] s place ↔ FinalSigma s place := by
  unfold FinalSigmaFrom FinalSigma
  rw [List.append_nil]

theorem finalSigmaFrom_zero {before s : Text} {c : Char} :
    FinalSigmaFrom before (c :: s) 0 ↔
      c = 'Σ' ∧ startsCased before = true ∧ startsCased s = false := by
  unfold FinalSigmaFrom
  rw [List.getElem?_cons_zero, Option.some.injEq]
  exact Iff.rfl

theorem finalSigmaFrom_succ {before s : Text} {c : Char} {place : Nat} :
    FinalSigmaFrom before (c :: s) (place + 1) ↔ FinalSigmaFrom (c :: before) s place := by
  unfold FinalSigmaFrom
  rw [List.getElem?_cons_succ, List.take_succ_cons, List.reverse_cons, List.append_assoc,
    List.drop_succ_cons]
  exact Iff.rfl

theorem lowerChar_sigma : lowerChar 'Σ' = ['σ'] := by decide +kernel

instance (before s : Text) (place : Nat) : Decidable (FinalSigmaFrom before s place) :=
  inferInstanceAs (Decidable (_ ∧ _))

/-- A final sigma becomes a character of its own; all others become what they are alone. -/
theorem lowerFrom_cons (before s : Text) (c : Char) :
    lowerFrom before (c :: s) =
      (if FinalSigmaFrom before (c :: s) 0 then ['ς'] else lowerChar c) ++
        lowerFrom (c :: before) s := by
  rw [lowerFrom]
  congr 1
  simp only [finalSigmaFrom_zero]
  by_cases hc : c = 'Σ'
  · subst hc
    unfold lowerSigma
    cases startsCased before <;> cases startsCased s <;> simp [lowerChar_sigma]
  · simp [hc]

/-- Characters that are the same alone stay the same if both are final sigmas or none is. -/
theorem lowered_append_eq_iff {P Q : Prop} [Decidable P] [Decidable Q] {c d : Char} {s t : Text}
    (hsame : lowerChar c = lowerChar d) (hc : P → c = 'Σ') (hd : Q → d = 'Σ') :
    (if P then ['ς'] else lowerChar c) ++ s = (if Q then ['ς'] else lowerChar d) ++ t ↔
      (P ↔ Q) ∧ s = t := by
  by_cases hP : P
  · by_cases hQ : Q
    · simp [hP, hQ]
    · have hlower : lowerChar d = ['σ'] := by rw [← hsame, hc hP, lowerChar_sigma]
      simp [hP, hQ, hlower]
  · by_cases hQ : Q
    · have hlower : lowerChar c = ['σ'] := by rw [hsame, hd hQ, lowerChar_sigma]
      simp [hP, hQ, hlower]
    · simp [hP, hQ, hsame]

theorem lowerFrom_eq_iff {before before' s t : Text} (h : SameLower s t) :
    lowerFrom before s = lowerFrom before' t ↔
      ∀ place < s.length, FinalSigmaFrom before s place ↔ FinalSigmaFrom before' t place := by
  induction h generalizing before before' with
  | nil => exact iff_of_true rfl fun place hplace => absurd hplace (Nat.not_lt_zero place)
  | @cons c d s t hsame htail ih =>
    rw [lowerFrom_cons, lowerFrom_cons, lowered_append_eq_iff hsame
      (fun hc => (finalSigmaFrom_zero.1 hc).1) (fun hd => (finalSigmaFrom_zero.1 hd).1), ih,
      List.length_cons, Nat.forall_lt_succ_left]
    simp only [finalSigmaFrom_succ]

/--
Texts with the same lower-case characters have the same lower-case form if they have a final sigma
at the same places, and in no other case.
-/
theorem lowercase_eq_iff {s t : Text} (h : SameLower s t) :
    lowercase s = lowercase t ↔ ∀ place < s.length, FinalSigma s place ↔ FinalSigma t place := by
  unfold lowercase
  rw [lowerFrom_eq_iff h]
  simp only [finalSigmaFrom_nil]

end Text

/-! ## Spellings of a name -/

namespace Definitions

/-- Two spellings are one variable: what is defined and what a chain finds is the same for both. -/
structure OneVariable (ds : Definitions) (name spelling : Text) : Prop where
  lookup? : ds.lookup? name = ds.lookup? spelling
  contains : ds.contains name = ds.contains spelling
  generations : (ds.history name).length = (ds.history spelling).length
  definition : ∀ generation : Nat,
    (ds.history name)[generation]? = (ds.history spelling)[generation]?
  found : ∀ (scope : Expansion.Scope) (chain : Expansion.Chain), scope.definitions = ds →
    scope.find chain name = scope.find chain spelling

variable {name spelling : Text}

theorem oneVariable_of_key_eq (h : key name = key spelling) (ds : Definitions) :
    OneVariable ds name spelling := by
  have hhistory : ds.history name = ds.history spelling := congrArg ds.valuesOf h
  have hlookup : ds.lookup? name = ds.lookup? spelling := congrArg List.getLast? hhistory
  exact {
    lookup? := hlookup
    contains := congrArg Option.isSome hlookup
    generations := congrArg List.length hhistory
    definition := fun generation => congrArg (·[generation]?) hhistory
    found := fun scope chain _ => by
      unfold Expansion.Scope.find
      rw [h] }

/-- What one name is given is found under the spellings with its key. -/
theorem history_ofList_singleton (name value spelling : Text) :
    (ofList [(name, value)]).history spelling =
      if key name = key spelling then [value] else [] := by
  have hhistories : (ofList [(name, value)]).histories = [⟨key name, [value]⟩] := rfl
  unfold history valuesOf
  rw [hhistories, List.find?_singleton]
  by_cases hkey : key name = key spelling <;> simp [hkey]

/--
Two spellings of a name with the same lower-case characters are one variable, whatever is defined,
if they have a final sigma at the same places, and in no other case.
-/
theorem oneVariable_iff (h : Text.SameLower name spelling) :
    (∀ pairs, OneVariable (ofList pairs) name spelling) ↔
      ∀ place < name.length, Text.FinalSigma name place ↔ Text.FinalSigma spelling place := by
  rw [← Text.lowercase_eq_iff h]
  constructor
  · intro hone
    have hlength := (hone [(name, [])]).generations
    rw [history_ofList_singleton, history_ofList_singleton, if_pos rfl] at hlength
    by_contra hkey
    rw [if_neg (show ¬ key name = key spelling from hkey)] at hlength
    cases hlength
  · intro hkey pairs
    exact oneVariable_of_key_eq hkey (ofList pairs)

/-- Where a capital sigma ends a word in one spelling, the other is another variable. -/
theorem lookup?_ne_finalSigma :
    Text.SameLower "AΣ".toList "Aσ".toList ∧
      (ofList [("AΣ".toList, "1".toList)]).lookup? "AΣ".toList = some "1".toList ∧
        (ofList [("AΣ".toList, "1".toList)]).lookup? "Aσ".toList = none := by
  decide +kernel

/-- Inside of a word a capital sigma is a small one. -/
theorem oneVariable_iff_inside :
    Text.SameLower "ΑΣΑ".toList "ασα".toList ∧
      ∀ pairs, OneVariable (ofList pairs) "ΑΣΑ".toList "ασα".toList := by
  have hsame : Text.SameLower "ΑΣΑ".toList "ασα".toList := by decide +kernel
  exact ⟨hsame, (oneVariable_iff hsame).2 (by decide +kernel)⟩

end Definitions

end Unmask
