import Unmask.Proofs.Overflows
import Unmask.Proofs.RoundTrip
import Unmask.Proofs.SingleSites

/-!
# References that are written again

A reference of a command line is written between percent signs, with its offsets in decimal, and
what is written reads as that reference again.  One offset is the exception: -2^63 can be read in
octal, behind a zero and a second sign, but the decimal numeral it is written with cannot, as the
digits behind a minus sign make up a number of their own.  So a slice by it is written as a site
that reads as the whole value.

    read_ofInt              a written offset is read again, unless it is the least one
    readsAs_toText_iff      so is a reference, unless it slices by the least offset
-/

namespace Unmask

namespace Template.Offset

/-! ## Offsets -/

theorem readUnsigned?_decimal {s : Text} (h : s.head? ≠ some '0') :
    readUnsigned? s = (Text.readNat? 10 s).bind fun n => inRange? n := by
  unfold readUnsigned?
  split
  · exact absurd rfl h
  · exact absurd rfl h
  · exact absurd rfl h
  · rfl

theorem readUnsigned?_ofNat (n : Nat) : readUnsigned? (Text.ofNat n) = inRange? n := by
  by_cases hn : n = 0
  · subst hn
    rw [Text.ofNat_digit (by decide)]
    rfl
  · rw [readUnsigned?_decimal (Text.head?_ofNat_ne (by omega)), Text.readNat?_ofNat]
    rfl

theorem splitSign_ofNat (n : Nat) : splitSign (Text.ofNat n) = (false, Text.ofNat n) := by
  have hdigit : ∀ c ∈ Text.ofNat n, c ≠ '-' ∧ c ≠ '+' := Text.forall_mem_ofNat (by decide) n
  obtain ⟨c, s, hs⟩ := List.exists_cons_of_ne_nil (Text.ofNat_ne_nil n)
  rw [hs] at hdigit ⊢
  obtain ⟨hminus, hplus⟩ := hdigit c List.mem_cons_self
  unfold splitSign
  split
  · next he => exact absurd (List.cons.inj he).1 hminus
  · next he => exact absurd (List.cons.inj he).1 hplus
  · rfl

theorem head?_any_isDigit_ofNat (n : Nat) : (Text.ofNat n).head?.any Char.isDigit = true := by
  have hdigit : ∀ c ∈ Text.ofNat n, c.isDigit = true := Text.forall_mem_ofNat (by decide) n
  obtain ⟨c, s, hs⟩ := List.exists_cons_of_ne_nil (Text.ofNat_ne_nil n)
  rw [hs] at hdigit ⊢
  exact hdigit c List.mem_cons_self

theorem trim_ofInt (i : Int) : Text.trim (Text.ofInt i) = Text.ofInt i := by
  have hspace : ∀ c ∈ Text.ofInt i, Text.isSpace c = false :=
    Text.forall_mem_ofInt (by decide) (by decide) i
  exact Text.trim_eq_self (fun c hc => hspace c (List.mem_of_mem_head? hc))
    fun c hc => hspace c (List.mem_of_mem_getLast? hc)

/-- A written offset is read again, unless it is the least one, which reads as no number. -/
theorem read_ofInt {i : Int} (hleast : least ≤ i) (hgreatest : i ≤ greatest) :
    read (Text.ofInt i) = .ok (if i = least then none else some i) := by
  unfold read
  rw [trim_ofInt]
  cases i with
  | ofNat n =>
    have hrange : inRange? n = some (n : Int) := if_pos ⟨hleast, hgreatest⟩
    have hne : (Int.ofNat n) ≠ least := fun he => by cases he
    rw [Text.ofInt, splitSign_ofNat]
    dsimp only
    rw [if_neg (by simp [head?_any_isDigit_ofNat]), readUnsigned?_ofNat, hrange, if_neg hne]
    rfl
  | negSucc n =>
    have hsign : splitSign (Text.ofInt (.negSucc n)) = (true, Text.ofNat (n + 1)) := rfl
    rw [hsign]
    dsimp only
    rw [if_neg (by simp [head?_any_isDigit_ofNat]), readUnsigned?_ofNat]
    by_cases hfits : ((n + 1 : Nat) : Int) ≤ greatest
    · have hrange : inRange? ((n + 1 : Nat) : Int) = some ((n + 1 : Nat) : Int) :=
        if_pos ⟨by unfold least; omega, hfits⟩
      have hne : (Int.negSucc n) ≠ least := by
        unfold least greatest at *
        omega
      have hne' : ((n + 1 : Nat) : Int) ≠ least := by
        unfold least
        omega
      rw [hrange, if_neg hne]
      dsimp only
      rw [if_pos rfl, if_neg hne']
      rfl
    · have hrange : inRange? ((n + 1 : Nat) : Int) = none := if_neg fun h => hfits h.2
      have heq : (Int.negSucc n) = least := by
        unfold least greatest at *
        omega
      rw [hrange, if_pos heq]

end Template.Offset

namespace Modifier

open Template (isModifierBody)
open Template.Fragment (eq_of_dropWhile readModifier modifierOf)
open Template.Offset (least greatest)

/-! ## Bodies -/

def body? : Modifier → Option Text
  | .whole => none
  | .slice start none => some ('~' :: Text.ofInt start)
  | .slice start (some length) => some ('~' :: (Text.ofInt start ++ ',' :: Text.ofInt length))
  | .fallback text => some ('-' :: text)
  | .replace search replacement => some (search ++ '=' :: replacement)

/-- A slice by the least offset. -/
def SlicesByLeast : Modifier → Prop
  | .slice start length => start = least ∨ length = some least
  | _ => False

theorem readModifier_start {start : Int} (hleast : least ≤ start) (hgreatest : start ≤ greatest) :
    readModifier ('~' :: Text.ofInt start) =
      .ok (if start = least then .whole else .slice start none) := by
  have hcomma : ∀ c ∈ Text.ofInt start, (c != ',') = true :=
    Text.forall_mem_ofInt (by decide) (by decide) start
  simp only [readModifier]
  rw [List.takeWhile_eq_self_iff.2 hcomma, List.dropWhile_eq_nil_iff.2 hcomma,
    Template.Offset.read_ofInt hleast hgreatest]
  split <;> rfl

theorem readModifier_length {start length : Int} (hleast : least ≤ start)
    (hgreatest : start ≤ greatest) (hleast' : least ≤ length) (hgreatest' : length ≤ greatest) :
    readModifier ('~' :: (Text.ofInt start ++ ',' :: Text.ofInt length)) =
      .ok (if start = least ∨ length = least then .whole else .slice start (some length)) := by
  have hcomma : ∀ c ∈ Text.ofInt start, (c != ',') = true :=
    Text.forall_mem_ofInt (by decide) (by decide) start
  obtain ⟨htake, hdrop⟩ := Template.Fragment.takeWhile_append_mark hcomma
    (by decide : (',' != ',') = false) (Text.ofInt length)
  simp only [readModifier]
  rw [htake, hdrop, Template.Offset.read_ofInt hleast hgreatest]
  dsimp only
  rw [Template.Offset.read_ofInt hleast' hgreatest']
  by_cases hs : start = least
  · have heither : start = least ∨ length = least := .inl hs
    rw [if_pos hs, if_pos heither]
    split <;> rfl
  · by_cases hl : length = least
    · have heither : start = least ∨ length = least := .inr hl
      rw [if_neg hs, if_pos hl, if_pos heither]
      rfl
    · have hneither : ¬ (start = least ∨ length = least) := not_or.2 ⟨hs, hl⟩
      rw [if_neg hs, if_neg hl, if_neg hneither]
      rfl

theorem body?_of_readModifier {body : Text} {m : Modifier} (hbody : isModifierBody body = true)
    (h : readModifier body = .ok m) (hwhole : m ≠ .whole)
    (hslice : ∀ start length, m ≠ .slice start length) : m.body? = some body := by
  unfold readModifier at h
  split at h
  · next offsets =>
    obtain ⟨start, -, h⟩ := bind_eq_ok.1 h
    split at h
    · cases start with
      | none => exact absurd (Except.ok.inj h).symm hwhole
      | some i => exact absurd (Except.ok.inj h).symm (hslice i none)
    · obtain ⟨length, -, h⟩ := bind_eq_ok.1 h
      split at h
      · exact absurd (Except.ok.inj h).symm (hslice _ _)
      · exact absurd (Except.ok.inj h).symm hwhole
  · next hnot =>
    have hparts : body.takeWhile (· != '=') ++ body.dropWhile (· != '=') = body :=
      List.takeWhile_append_dropWhile
    cases hdrop : body.dropWhile (· != '=') with
    | cons c replacement =>
      rw [hdrop] at h hparts
      obtain rfl := eq_of_dropWhile hdrop
      cases h
      rw [body?, hparts]
    | nil =>
      rw [hdrop] at h
      cases h
      have hequals : '=' ∉ body := fun hmem => by
        simpa using List.dropWhile_eq_nil_iff.1 hdrop '=' hmem
      -- without an equals sign and a tilde only the minus sign is left
      cases body with
      | nil => cases hbody
      | cons c body =>
        have hc : c = '-' := by
          have hne : c ≠ '~' := fun he => hnot body (congrArg (· :: body) he)
          simpa [isModifierBody, hequals, hne] using hbody
        rw [body?, hc, List.drop_one, List.tail_cons]

end Modifier

namespace Template

open Fragment (Closed inside readModifier modifierOf)
open Modifier (SlicesByLeast)

variable {name : Text} {body : Option Text} {m : Modifier}

/-- The body of a reference that was read, unless it is none or a slice, is the one it is written with. -/
theorem body?_of_modifierOf (h : Closed '%' name body) (hm : modifierOf body = .ok m)
    (hwhole : m ≠ .whole) (hslice : ∀ start length, m ≠ .slice start length) : m.body? = body := by
  cases body with
  | none => exact absurd (Except.ok.inj hm).symm hwhole
  | some body => exact Modifier.body?_of_readModifier (h.body body rfl).1 hm hwhole hslice

theorem closed_body? (h : Closed '%' name body) (hm : modifierOf body = .ok m) :
    Closed '%' name m.body? := by
  have hoffset : ∀ i, ∀ c ∈ Text.ofInt i, (c != '%' && !Text.isBreak c) = true :=
    Text.forall_mem_ofInt (by decide) (by decide)
  cases m with
  | whole => exact ⟨h.isName, h.isNameChar, fun b hb => by cases hb⟩
  | slice start length =>
    refine ⟨h.isName, h.isNameChar, fun b hb => ?_⟩
    cases length with
    | none =>
      cases hb
      exact ⟨rfl, List.forall_mem_cons.2 ⟨by decide, hoffset start⟩⟩
    | some length =>
      cases hb
      refine ⟨rfl, List.forall_mem_cons.2 ⟨by decide, List.forall_mem_append.2 ⟨hoffset start, ?_⟩⟩⟩
      exact List.forall_mem_cons.2 ⟨by decide, hoffset length⟩
  | fallback | replace =>
    rw [body?_of_modifierOf h hm nofun nofun]
    exact h

/-- A written body reads as the same modifier, unless that slices by the least offset. -/
theorem modifierOf_body? (h : Closed '%' name body) (hm : modifierOf body = .ok m) :
    (¬ m.SlicesByLeast → modifierOf m.body? = .ok m) ∧
      (m.SlicesByLeast → modifierOf m.body? = .ok .whole) := by
  cases m with
  | whole => exact ⟨fun _ => rfl, fun hleast => hleast.elim⟩
  | slice start length =>
    cases body with
    | none => cases hm
    | some body =>
    obtain ⟨⟨hstart, hstart'⟩, hlength⟩ := Fragment.slice_inRange_of_readModifier hm
    cases length with
    | none =>
      have hread : modifierOf (Modifier.body? (.slice start none)) = _ :=
        Modifier.readModifier_start hstart hstart'
      rw [hread]
      constructor
      · intro hnot
        rw [if_neg fun he => hnot (.inl he)]
      · rintro (he | he)
        · rw [if_pos he]
        · cases he
    | some length =>
      obtain ⟨hlength, hlength'⟩ := hlength length rfl
      have hread : modifierOf (Modifier.body? (.slice start (some length))) = _ :=
        Modifier.readModifier_length hstart hstart' hlength hlength'
      rw [hread]
      constructor
      · intro hnot
        rw [if_neg fun he => hnot (he.imp id (congrArg some))]
      · intro hleast
        rw [if_pos (hleast.imp id Option.some.inj)]
  | fallback | replace =>
    rw [body?_of_modifierOf h hm nofun nofun]
    exact ⟨fun _ => hm, fun hleast => hleast.elim⟩

/-! ## References -/

theorem toText_eq (r : Reference) : r.toText = '%' :: inside r.name r.modifier.body? ++ ['%'] := by
  obtain ⟨name, m⟩ := r
  cases m with
  | whole => rfl
  | slice start length =>
    have happend : ∀ rest, name ++ ":~".toList ++ rest = name ++ ':' :: '~' :: rest := fun rest =>
      List.append_assoc name [':', '~'] rest
    cases length with
    | none => exact congrArg (fun s => '%' :: s ++ ['%']) (happend _)
    | some length =>
      have hassoc := List.append_assoc (name ++ ":~".toList) (Text.ofInt start)
        (',' :: Text.ofInt length)
      exact congrArg (fun s => '%' :: s ++ ['%']) (hassoc.trans (happend _))
  | fallback text => exact congrArg (fun s => '%' :: s ++ ['%']) (List.append_assoc name [':', '-'] text)
  | replace search replacement => simp [Reference.toText, inside, Modifier.body?]

/--
A reference of a command line reads, as it is written, as itself, exactly if it does not slice by the
least offset.  One that does reads as its name alone.
-/
theorem readsAs_toText_iff {s : Text} {t : Template} (h : read .percent s = .ok t) {r : Reference}
    (hr : r ∈ t.references) :
    (ReadsAs .percent r.toText r ↔ ¬ r.modifier.SlicesByLeast) ∧
      (r.modifier.SlicesByLeast → ReadsAs .percent r.toText ⟨r.name, .whole⟩) := by
  obtain ⟨piece, hp, he⟩ := mem_references.1 hr
  obtain ⟨mark, body, hmark, hclosed, -, hm⟩ := closed_of_mem (by decide) h hp he
  obtain rfl : mark = '%' := by simpa [isMark] using hmark
  obtain ⟨hsame, hwhole⟩ := modifierOf_body? hclosed hm
  have hreads {m : Modifier} (hbody : modifierOf r.modifier.body? = .ok m) :
      ReadsAs .percent r.toText ⟨r.name, m⟩ := by
    rw [toText_eq, readsAs_marked_iff (by decide) rfl]
    exact ⟨r.modifier.body?, rfl, closed_body? hclosed hm, hbody⟩
  have hleast (hleast : r.modifier.SlicesByLeast) : ReadsAs .percent r.toText ⟨r.name, .whole⟩ :=
    hreads (hwhole hleast)
  refine ⟨⟨fun hself hslices => ?_, fun hnot => hreads (hsame hnot)⟩, hleast⟩
  rw [(hself.unique (hleast hslices))] at hslices
  exact hslices

/-- The greatest offset and the least but one, a replacement whose search starts with a minus sign. -/
theorem readsAs_toText_iff_extreme :
    let s := "%A:~0x7fffffffffffffff,-9223372036854775807%%B:-x=y=z%".toList
    let r : Reference := ⟨['A'], .slice 0x7fffffffffffffff (some (-0x7fffffffffffffff))⟩
    ∃ t, read .percent s = .ok t ∧ r ∈ t.references ∧
      (ReadsAs .percent r.toText r ↔ ¬ r.modifier.SlicesByLeast) := by
  intro s r
  obtain ⟨t, h, hr⟩ : ∃ t, read .percent s = .ok t ∧ r ∈ t.references :=
    ⟨[⟨"%A:~0x7fffffffffffffff,-9223372036854775807%".toList, .reference r⟩,
      ⟨"%B:-x=y=z%".toList, .reference ⟨['B'], .replace "-x".toList "y=z".toList⟩⟩],
      by decide +kernel, by decide +kernel⟩
  exact ⟨t, h, hr, (readsAs_toText_iff h hr).1⟩

/-- A slice by the least offset reads, as it is written, as the name alone. -/
theorem readsAs_toText_least :
    let r : Reference := ⟨['A'], .slice (-0x8000000000000000) none⟩
    read .percent "%A:~0-1000000000000000000000%".toList =
        .ok [⟨"%A:~0-1000000000000000000000%".toList, .reference r⟩] ∧
      r.toText = "%A:~-9223372036854775808%".toList ∧
      read .percent r.toText = .ok [⟨r.toText, .reference ⟨['A'], .whole⟩⟩] := by
  decide +kernel

end Template

end Unmask
