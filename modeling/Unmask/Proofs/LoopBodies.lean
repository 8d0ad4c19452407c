import Mathlib.Data.List.Basic
import Unmask.Proofs.Commands
import Unmask.Proofs.LoopTermination
import Unmask.Proofs.Replacing

/-!
# The body of a loop, item by item

A loop gives the definitions of its body with each item put in for the variable.  This is done in two
passes, the first for the items without their quotes.  What the first pass puts in may hold the
variable, or complete it together with what stands beside it, and then the second pass puts the item
in there too.  In every other case the two passes come to the same as one that looks at the body only.

    bodyFor_eq_iff           when the two passes come to the same as one
    definitions_first_loop   what a loop defines
-/

namespace Unmask.Script

open Text (fill OnlyGaps Unbordered Gapped replaceAll)

/--
What a text defines that is one statement from end to end.  Any other text defines nothing, and an
endless one never comes to that.
-/
def wholeDefinitions? (text : Text) : Option (List (Text × Text)) :=
  match Statement.whole? text with
  | none => some []
  | some statement => statement.kind.definitions?

namespace Loop

/-! ## Two passes -/

/-- The variable in the body, which stands for an item. -/
def itemMark (l : Loop) : Text :=
  l.marks ++ [l.letter]

/-- The variable in the body where it stands for an item without its quotes. -/
def bareMark (l : Loop) : Text :=
  l.marks ++ ['~', l.letter]

def template (l : Loop) : Text :=
  let body := Text.trimEnd l.body
  if l.grouped then dropClosing body else body

def bareItem (item : Text) : Text :=
  (Text.unquote? '"' item).getD item

def bodyFor (l : Loop) (item : Text) : Text :=
  replaceAll (· == ·) l.itemMark item (replaceAll (· == ·) l.bareMark (bareItem item) l.template)

theorem instances_eq (l : Loop) : l.instances = (splitItems l.items).map l.bodyFor := rfl

/-! ## One pass -/

inductive Slot where
  /-- A character that stays. -/
  | char (c : Char)
  /-- The place of an item. -/
  | item
  /-- The place of an item without its quotes. -/
  | bare
deriving DecidableEq, Repr

/--
What a text is made of, from left to right.  The first `skip` characters belong to a variable that
was found already.
-/
def slotsFrom (l : Loop) : (skip : Nat) → Text → List Slot
  | _, [] => []
  | skip + 1, _ :: s => l.slotsFrom skip s
  | 0, c :: s =>
    if l.bareMark <+: c :: s then .bare :: l.slotsFrom (l.bareMark.length - 1) s
    else if l.itemMark <+: c :: s then .item :: l.slotsFrom (l.itemMark.length - 1) s
    else .char c :: l.slotsFrom 0 s

def slots (l : Loop) : List Slot :=
  l.slotsFrom 0 l.template

def Slot.put (item : Text) : Slot → Text
  | char c => [c]
  | .item => item
  | bare => bareItem item

/-- The body with an item put in at once, wherever the body itself has the variable. -/
def bodyAtOnce (l : Loop) (item : Text) : Text :=
  l.slots.flatMap (Slot.put item)

/-- A slot as a gap, if it is the place of an item. -/
def Slot.gapped (item : Text) : Slot → Gapped
  | char c => [some c]
  | .item => [none]
  | bare => (bareItem item).map some

/-- The body with the item put in where it stands without its quotes. -/
def gapped (l : Loop) (item : Text) : Gapped :=
  l.slots.flatMap (Slot.gapped item)

theorem fill_flatMap_gapped (s item : Text) (slots : List Slot) :
    fill s (slots.flatMap (Slot.gapped item)) =
      slots.flatMap fun | .item => s | slot => slot.put item := by
  induction slots with
  | nil => rfl
  | cons slot slots ih =>
    rw [List.flatMap_cons, List.flatMap_cons, Text.fill_append, ih]
    congr 1
    cases slot with
    | char c => rfl
    | item => exact List.append_nil s
    | bare => exact Text.fill_map_some s _

theorem fill_gapped (l : Loop) (item : Text) : fill item (l.gapped item) = l.bodyAtOnce item := by
  rw [gapped, fill_flatMap_gapped, bodyAtOnce]
  congr 1
  funext slot
  cases slot <;> rfl

/-! ## The variable -/

/-- The variable is one or two percent signs and a letter. -/
structure Lettered (l : Loop) : Prop where
  marks : l.marks = ['%'] ∨ l.marks = ['%', '%']
  letter : l.letter.isAlpha = true

theorem Lettered.letter_ne {l : Loop} (h : l.Lettered) {c : Char} (hc : c.isAlpha = false) :
    l.letter ≠ c := by
  rintro rfl
  cases hc.symm.trans h.letter

theorem itemMark_ne_nil (l : Loop) : l.itemMark ≠ [] :=
  List.append_ne_nil_of_right_ne_nil _ (List.cons_ne_nil _ _)

theorem bareMark_ne_nil (l : Loop) : l.bareMark ≠ [] :=
  List.append_ne_nil_of_right_ne_nil _ (List.cons_ne_nil _ _)

theorem readVariable?_eq_some {s rest marks : Text} {letter : Char}
    (h : readVariable? s = some (marks, letter, rest)) :
    (marks = ['%'] ∨ marks = ['%', '%']) ∧ letter.isAlpha = true := by
  unfold readVariable? at h
  split at h
  · split at h
    · next halpha =>
      cases h
      exact ⟨.inr rfl, halpha⟩
    · cases h
  · split at h
    · next halpha =>
      cases h
      exact ⟨.inl rfl, halpha⟩
    · cases h
  · cases h

theorem lettered_of_readForm {s rest : Text} {l : Loop} (h : readForm s = (.loop l, rest)) :
    l.Lettered := by
  unfold readForm at h
  dsimp only at h
  cases hfor : ((dropKeyword? "for" (s.drop (leadText (lead s)).length)).bind dropBlanks?).bind
      (readLoop? (isGrouped (lead s))) with
  | some found =>
    rw [hfor] at h
    obtain ⟨t, -, hfound⟩ := Option.bind_eq_some_iff.1 hfor
    rw [readLoop?_eq] at hfound
    obtain ⟨⟨marks, letter, t⟩, hvariable, hfound⟩ := Option.bind_eq_some_iff.1 hfound
    obtain ⟨⟨items, u⟩, -, hfound⟩ := Option.bind_eq_some_iff.1 hfound
    obtain ⟨body, -, hfound⟩ := Option.map_eq_some_iff.1 hfound
    cases hfound
    cases h
    obtain ⟨hmarks, hletter⟩ := readVariable?_eq_some hvariable
    exact ⟨hmarks, hletter⟩
  | none =>
    cases hset : ((dropKeyword? "set" (s.drop (leadText (lead s)).length)).bind dropBlanks?).bind
        (readAssignment? (isGrouped (lead s))) with
    | some found =>
      obtain ⟨t, -, hfound⟩ := Option.bind_eq_some_iff.1 hset
      obtain ⟨name, value, hform⟩ := readAssignment?_form hfound
      rw [hfor, hset] at h
      cases hform.symm.trans (congrArg Prod.fst h)
    | none =>
      rw [hfor, hset] at h
      cases h

/-- What the variable starts with are percent signs, and what it ends with is its letter. -/
theorem Lettered.unbordered {l : Loop} (h : l.Lettered) : Unbordered l.itemMark := by
  intro start border behind hborder hbehind
  rcases List.eq_nil_or_concat border with rfl | ⟨border, c, rfl⟩
  · exact .inr rfl
  · rcases List.eq_nil_or_concat behind with rfl | ⟨behind, d, rfl⟩
    · rw [List.append_nil] at hbehind
      exact .inl (List.append_left_eq_self.1 (hborder.symm.trans hbehind))
    · -- the letter would stand among the percent signs
      rw [List.concat_eq_append, ← List.append_assoc] at hborder
      rw [List.concat_eq_append, List.concat_eq_append, ← List.append_assoc] at hbehind
      obtain ⟨-, hletter⟩ := List.append_inj' hborder rfl
      obtain ⟨hmarks, -⟩ := List.append_inj' hbehind rfl
      have hmem : l.letter ∈ l.marks := by
        rw [hmarks, List.singleton_inj.1 hletter]
        simp
      have hpercent : l.letter = '%' := by
        rcases h.marks with hm | hm <;> rw [hm] at hmem <;> simpa using hmem
      exact absurd hpercent (h.letter_ne rfl)

/-- The first pass leaves the variable alone. -/
theorem Lettered.replaceAll_itemMark {l : Loop} (h : l.Lettered) (bare s : Text) :
    replaceAll (· == ·) l.bareMark bare (l.itemMark ++ s) =
      l.itemMark ++ replaceAll (· == ·) l.bareMark bare s := by
  have hpercent : l.letter ≠ '%' := h.letter_ne rfl
  have htilde : l.letter ≠ '~' := h.letter_ne rfl
  unfold bareMark itemMark
  rcases h.marks with hm | hm
  · rw [hm]
    simp only [List.cons_append, List.nil_append]
    rw [Text.replaceAll_cons (by simp [htilde.symm]), Text.replaceAll_cons (by simp [hpercent.symm])]
  · rw [hm]
    simp only [List.cons_append, List.nil_append]
    rw [Text.replaceAll_cons (by simp [htilde.symm]), Text.replaceAll_cons (by simp [hpercent.symm]),
      Text.replaceAll_cons (by simp [hpercent.symm])]

/-! ## The first pass -/

theorem slotsFrom_eq_drop (l : Loop) (skip : Nat) (s : Text) :
    l.slotsFrom skip s = l.slotsFrom 0 (s.drop skip) := by
  induction skip generalizing s with
  | zero => rfl
  | succ skip ih =>
    cases s with
    | nil => rfl
    | cons c s => exact ih s

theorem slotsFrom_bare (l : Loop) (s : Text) :
    l.slotsFrom 0 (l.bareMark ++ s) = .bare :: l.slotsFrom 0 s := by
  obtain ⟨c, t, ht⟩ := List.exists_cons_of_ne_nil
    (List.append_ne_nil_of_left_ne_nil l.bareMark_ne_nil s)
  rw [ht, slotsFrom, if_pos ⟨s, ht⟩, slotsFrom_eq_drop, Text.drop_pred_length l.bareMark_ne_nil ht]

theorem slotsFrom_item {l : Loop} {s : Text} (h : ¬ l.bareMark <+: l.itemMark ++ s) :
    l.slotsFrom 0 (l.itemMark ++ s) = .item :: l.slotsFrom 0 s := by
  obtain ⟨c, t, ht⟩ := List.exists_cons_of_ne_nil
    (List.append_ne_nil_of_left_ne_nil l.itemMark_ne_nil s)
  rw [ht] at h ⊢
  rw [slotsFrom, if_neg h, if_pos ⟨s, ht⟩, slotsFrom_eq_drop,
    Text.drop_pred_length l.itemMark_ne_nil ht]

/-- The first pass puts the item in where it stands without its quotes. -/
theorem Lettered.replaceAll_bareMark {l : Loop} (h : l.Lettered) (item s : Text) :
    replaceAll (· == ·) l.bareMark (bareItem item) s =
      fill l.itemMark ((l.slotsFrom 0 s).flatMap (Slot.gapped item)) := by
  induction hlength : s.length using Nat.strongRecOn generalizing s with
  | ind length ih =>
    subst hlength
    by_cases hbare : l.bareMark <+: s
    · obtain ⟨t, rfl⟩ := hbare
      have hshorter := Text.length_lt_append l.bareMark_ne_nil t
      rw [Text.replaceAll_append l.bareMark_ne_nil, slotsFrom_bare, List.flatMap_cons,
        Text.fill_append, Slot.gapped, Text.fill_map_some, ih _ hshorter t rfl]
    · by_cases hitem : l.itemMark <+: s
      · obtain ⟨t, rfl⟩ := hitem
        have hshorter := Text.length_lt_append l.itemMark_ne_nil t
        rw [h.replaceAll_itemMark, slotsFrom_item hbare, List.flatMap_cons, Text.fill_append,
          ih _ hshorter t rfl]
        exact congrArg (· ++ _) (List.append_nil _).symm
      · cases s with
        | nil => rfl
        | cons c s =>
          rw [Text.replaceAll_cons hbare, slotsFrom, if_neg hbare, if_neg hitem, List.flatMap_cons,
            Text.fill_append, ih _ (Nat.lt_succ_self _) s rfl]
          rfl

/--
The two passes come to the same as one if the item is the variable itself, or if the variable stands
nowhere but in its own places once the item was put in without its quotes.
-/
theorem Lettered.bodyFor_eq_iff {l : Loop} (h : l.Lettered) (item : Text) :
    l.bodyFor item = l.bodyAtOnce item ↔ item = l.itemMark ∨ OnlyGaps l.itemMark (l.gapped item) := by
  have hfirst := h.replaceAll_bareMark item l.template
  rw [bodyFor, hfirst, ← fill_gapped]
  exact Text.replaceAll_fill_iff l.itemMark_ne_nil h.unbordered item (l.gapped item)

end Loop

/-! ## Statements -/

theorem wholeDefinitions?_eq (text : Text) :
    wholeDefinitions? text = (wholeForm? text).elim (some []) Form.definitions? := by
  unfold wholeDefinitions? Statement.whole?
  cases wholeForm? text with
  | none => rfl
  | some form => exact form.definitions?_kind

theorem flatten_mapM_cons {α β : Type} (f : α → Option (List β)) (a : α) (l : List α) :
    ((a :: l).mapM f).map List.flatten =
      (f a).bind fun part => ((l.mapM f).map List.flatten).map (part ++ ·) := by
  rw [List.mapM_cons]
  cases f a with
  | none => rfl
  | some part => cases l.mapM f <;> rfl

/-- The texts that are no statements define nothing. -/
theorem flatten_mapM_filterMap (texts : List Text) :
    ((texts.filterMap wholeForm?).mapM Form.definitions?).map List.flatten =
      (texts.mapM wholeDefinitions?).map List.flatten := by
  induction texts with
  | nil => rfl
  | cons text texts ih =>
    rw [flatten_mapM_cons, ← ih, wholeDefinitions?_eq, List.filterMap_cons]
    cases wholeForm? text with
    | none => exact Option.map_id'.symm
    | some form => exact flatten_mapM_cons ..

/--
A loop at the head of a text defines what its body defines with each item put in, in the order of the
items, and it is endless if one of these is.  The item is put in at once, wherever the body has the
variable, if it is the variable itself or if the variable stands nowhere but in its own places once
the item was put in without its quotes.  In every other case it is put in again, and the body for the
item is another one.
-/
theorem definitions_first_loop {s rest : Text} {l : Loop} (h : readForm s = (.loop l, rest)) :
    (Statement.first s).kind.definitions? =
        ((splitItems l.items).mapM fun item => wholeDefinitions? (l.bodyFor item)).map
          List.flatten ∧
      ((∀ item ∈ splitItems l.items,
          item = l.itemMark ∨ OnlyGaps l.itemMark (l.gapped item)) →
        (Statement.first s).kind.definitions? =
          ((splitItems l.items).mapM fun item => wholeDefinitions? (l.bodyAtOnce item)).map
            List.flatten) ∧
      ∀ item, l.bodyFor item = l.bodyAtOnce item ↔
        item = l.itemMark ∨ OnlyGaps l.itemMark (l.gapped item) := by
  have hbody := (Loop.lettered_of_readForm h).bodyFor_eq_iff
  have hdefinitions : (Statement.first s).kind.definitions? =
      ((splitItems l.items).mapM fun item => wholeDefinitions? (l.bodyFor item)).map
        List.flatten := by
    rw [kind_first, h, Form.definitions?_kind, Form.definitions?_loop, Loop.inner,
      flatten_mapM_filterMap, Loop.instances_eq, List.mapM_map]
    rfl
  refine ⟨hdefinitions, fun honly => hdefinitions.trans ?_, hbody⟩
  have hsame : (splitItems l.items).map l.bodyFor = (splitItems l.items).map l.bodyAtOnce :=
    List.map_congr_left fun item hitem => (hbody item).2 (honly item hitem)
  have hparts := congrArg (List.mapM wholeDefinitions?) hsame
  rw [List.mapM_map, List.mapM_map] at hparts
  exact congrArg (Option.map List.flatten) hparts

/-- The items are put in with and without their quotes, and what comes of the body is a loop again. -/
theorem definitions_first_loop_nested :
    let s := "(for %%g in (\"a\" b) do for %h in (\"%%~g=%%g1\") do set %h)".toList
    let l : Loop := ⟨true, "%%".toList, 'g', "\"a\" b".toList,
      "for %h in (\"%%~g=%%g1\") do set %h)".toList⟩
    (Statement.first s).kind.definitions? =
        some [("a".toList, "\"a\"1".toList), ("b".toList, "b1".toList)] ∧
      (Statement.first s).kind.definitions? =
        ((splitItems l.items).mapM fun item => wholeDefinitions? (l.bodyAtOnce item)).map
          List.flatten := by
  intro s l
  have h : readForm s = (.loop l, []) := by decide +kernel
  obtain ⟨-, hatOnce, hbody⟩ := definitions_first_loop h
  have hsame : ∀ item ∈ splitItems l.items, l.bodyFor item = l.bodyAtOnce item := by decide +kernel
  let first : Loop := ⟨false, "%".toList, 'h', "\"a=\"a\"1\"".toList, "set %h".toList⟩
  let second : Loop := ⟨false, "%".toList, 'h', "\"b=b1\"".toList, "set %h".toList⟩
  have hinner : l.inner = [.loop first, .loop second] := by decide +kernel
  have hfirst : first.inner = [.assignment "a".toList "\"a\"1".toList] := by decide +kernel
  have hsecond : second.inner = [.assignment "b".toList "b1".toList] := by decide +kernel
  refine ⟨?_, hatOnce fun item hitem => (hbody item).1 (hsame item hitem)⟩
  rw [kind_first, h, Form.definitions?_kind, Form.definitions?_loop, hinner]
  simp only [List.mapM_cons, List.mapM_nil, Form.definitions?_loop, hfirst, hsecond,
    Form.definitions?_assignment]
  rfl

/-- The item without its quotes holds the variable, and the item is put in there once more. -/
theorem definitions_first_loop_ne :
    let s := "for %g in (\"a=%g\") do set %~g".toList
    let l : Loop := ⟨false, "%".toList, 'g', "\"a=%g\"".toList, "set %~g".toList⟩
    readForm s = (.loop l, []) ∧
      (Statement.first s).kind.definitions? = some [("a".toList, "\"a=%g\"".toList)] ∧
      ((splitItems l.items).mapM fun item => wholeDefinitions? (l.bodyAtOnce item)).map
        List.flatten = some [("a".toList, "%g".toList)] := by
  intro s l
  have h : readForm s = (.loop l, []) := by decide +kernel
  have hinner : l.inner = [.assignment "a".toList "\"a=%g\"".toList] := by decide +kernel
  refine ⟨h, ?_, by decide +kernel⟩
  rw [kind_first, h, Form.definitions?_kind, Form.definitions?_loop, hinner, List.mapM_cons,
    Form.definitions?_assignment]
  rfl

end Unmask.Script
