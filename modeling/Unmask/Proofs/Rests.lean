import Mathlib.Data.List.Induction
import Unmask.Proofs.Splitting

/-!
# What stands behind a statement

Each reader gives what it read and leaves an end of the text.  Behind a statement that end is empty
or starts with a separator, so a script goes on with a separator until its text ends.

    readForm_rest        what stands behind a statement
    text_first_append    a statement and what stands behind it
    foldl_text_first     where a statement without quotes leaves the machine
    readTail_cons        one separator and what stands behind it
    statements_read      the statements of a script, and where they start
-/

namespace Unmask

namespace Separator

/-- A separator is found wherever one starts, and it ends within the text. -/
theorem exists_first? {c : Char} (hc : isStart c = true) (s : Text) :
    ∃ separator width, first? c s = some (separator, width) ∧ width ≤ s.length := by
  have hlength : ∀ {a : Char}, s.head? = some a → 1 ≤ s.length := by
    intro a ha
    cases s with
    | nil => cases ha
    | cons b s => exact Nat.succ_le_succ (Nat.zero_le _)
  simp only [isStart, Text.isBreak, Bool.or_eq_true, beq_iff_eq] at hc
  rcases hc with (rfl | rfl) | rfl | rfl
  · by_cases hs : s.head? = some '&'
    · exact ⟨_, _, if_pos hs, hlength hs⟩
    · exact ⟨_, _, if_neg hs, Nat.zero_le _⟩
  · by_cases hs : s.head? = some '|'
    · exact ⟨_, _, if_pos hs, hlength hs⟩
    · exact ⟨_, _, if_neg hs, Nat.zero_le _⟩
  · exact ⟨_, _, rfl, Nat.zero_le _⟩
  · by_cases hs : s.head? = some '\n'
    · exact ⟨_, _, if_pos hs, hlength hs⟩
    · exact ⟨_, _, if_neg hs, Nat.zero_le _⟩

/-- The ways to spell a separator in a script. -/
def sources : Separator → List Text
  | newline => ["\n".toList, "\r\n".toList, "\r".toList]
  | sequence => ["&".toList]
  | and => ["&&".toList]
  | or => ["||".toList]
  | pipe => ["|".toList]

theorem mem_sources {c : Char} {s : Text} {separator : Separator} {width : Nat}
    (h : first? c s = some (separator, width)) : c :: s.take width ∈ separator.sources := by
  have hone : ∀ {a : Char}, s.head? = some a → s.take 1 = [a] := by
    intro a ha
    cases s with
    | nil => cases ha
    | cons b s => rw [Option.some.inj ha, List.take_succ_cons, List.take_zero]
  unfold first? at h
  split at h
  case h_1 | h_2 | h_3 =>
    split at h
    · next ha =>
      cases h
      rw [hone ha]
      decide
    · cases h
      rw [List.take_zero]
      decide
  case h_4 =>
    cases h
    rw [List.take_zero]
    decide
  case h_5 => cases h

def spellings : List Text :=
  ["&", "&&", "|", "||", "\n", "\r", "\r\n"].map String.toList

theorem mem_spellings {c : Char} {s : Text} {separator : Separator} {width : Nat}
    (h : first? c s = some (separator, width)) : c :: s.take width ∈ spellings := by
  have hsubset : separator.sources ⊆ spellings := by cases separator <;> decide
  exact hsubset (mem_sources h)

theorem isBreak_of_first? {c : Char} {s : Text} {width : Nat}
    (h : first? c s = some (newline, width)) : Text.isBreak c = true := by
  unfold first? at h
  split at h
  case h_1 | h_2 => split at h <;> cases h
  case h_3 | h_4 => rfl
  case h_5 => cases h

end Separator

namespace Script

/-! ## The machine -/

namespace Mode

/-- Behind a text that the machine passes over, it goes on where that text took it. -/
theorem pass_append_of_eq {mode : Mode} {s : Text} (h : mode.pass s = s) (y : Text) :
    mode.pass (s ++ y) = s ++ (s.foldl next mode).pass y := by
  induction s generalizing mode with
  | nil => rfl
  | cons c s ih =>
    rw [pass] at h
    split at h
    · cases h
    · next hstops =>
      rw [List.cons_append, pass, if_neg hstops, ih (List.cons.inj h).2]
      rfl

/-- Behind the end of the statement it does not get. -/
theorem pass_append_of_ne {mode : Mode} {s : Text} (h : mode.pass s ≠ s) (y : Text) :
    mode.pass (s ++ y) = mode.pass s := by
  induction s generalizing mode with
  | nil => exact absurd rfl h
  | cons c s ih =>
    rw [List.cons_append, pass, pass]
    rw [pass] at h
    split
    · rfl
    · next hstops =>
      rw [if_neg hstops] at h
      rw [ih fun hs => h (congrArg _ hs)]

theorem foldl_next_ne_quoted {s : Text} (hs : '"' ∉ s) {mode : Mode} (hmode : mode ≠ quoted) :
    s.foldl next mode ≠ quoted := by
  induction s generalizing mode with
  | nil => exact hmode
  | cons c s ih =>
    rw [List.mem_cons, not_or] at hs
    refine ih hs.2 ?_
    cases mode with
    | plain =>
      rw [next, if_neg (Ne.symm hs.1)]
      split <;> exact fun h => by cases h
    | quoted => exact absurd rfl hmode
    | escaped => exact fun h => by cases h

/-- A text that makes the next character ordinary ends with a caret. -/
theorem getLast?_of_foldl_next {s : Text} (h : s.foldl next plain = escaped) :
    s.getLast? = some '^' := by
  induction s using List.reverseRecOn with
  | nil => cases h
  | append_singleton s c _ =>
    rw [List.foldl_append, List.foldl_cons, List.foldl_nil] at h
    have hc : c = '^' := by
      unfold next at h
      split at h
      · split at h
        · cases h
        · split at h
          · assumption
          · cases h
      · split at h <;> cases h
      · cases h
    rw [List.getLast?_append, hc]
    rfl

/-- Without quotes the machine stands outside of quotes behind whatever is no caret. -/
theorem foldl_next_concat {s : Text} (hs : '"' ∉ s) {c : Char} (hquote : c ≠ '"')
    (hcaret : c ≠ '^') : (s ++ [c]).foldl next plain = plain := by
  rw [List.foldl_append, List.foldl_cons, List.foldl_nil]
  cases hmode : s.foldl next plain with
  | plain => rw [next, if_neg hquote, if_neg hcaret]
  | quoted => exact absurd hmode (foldl_next_ne_quoted hs (by decide))
  | escaped => rfl

/-- Without quotes no caret stands in front of the separator that stops the machine. -/
theorem foldl_pass {s : Text} (hs : '"' ∉ s) {mode : Mode} (hmode : mode ≠ quoted)
    (h : mode.pass s ≠ s) : (mode.pass s).foldl next mode = plain := by
  induction s generalizing mode with
  | nil => exact absurd rfl h
  | cons c s ih =>
    rw [List.mem_cons, not_or] at hs
    rw [pass] at h ⊢
    split
    · next hstops =>
      cases mode with
      | plain => rfl
      | quoted => exact absurd rfl hmode
      | escaped => cases hstops
    · next hstops =>
      rw [if_neg hstops] at h
      have hnext : mode.next c ≠ quoted :=
        foldl_next_ne_quoted (s := [c]) (List.not_mem_cons_of_ne_of_not_mem hs.1 List.not_mem_nil) hmode
      exact ih hs.2 hnext fun hpass => h (congrArg (c :: ·) hpass)

end Mode

theorem foldl_separator {c : Char} {s : Text} {separator : Separator} {width : Nat}
    (h : Separator.first? c s = some (separator, width)) :
    (c :: s.take width).foldl Mode.next .plain = .plain := by
  have hspellings : (Separator.spellings.all fun p => p.foldl Mode.next .plain == .plain) = true := by
    decide
  exact beq_iff_eq.1 (List.all_eq_true.1 hspellings _ (Separator.mem_spellings h))

/-! ## Readers -/

/-- A text that is empty or starts with a separator. -/
def AtSeparator (s : Text) : Prop :=
  ∀ c ∈ s.head?, Separator.isStart c = true

theorem atSeparator_dropWhile (s : Text) :
    AtSeparator (s.dropWhile fun c => !Separator.isStart c) := by
  intro c hc
  have hdrop := List.head?_dropWhile_not (fun c => !Separator.isStart c) s
  rw [Option.mem_def.1 hc] at hdrop
  simpa using hdrop

theorem atSeparator_takeBody (quoted : Bool) (s : Text) :
    AtSeparator (s.drop (takeBody quoted s).length) := by
  fun_induction takeBody quoted s with
  | case1 quoted =>
    intro c hc
    cases hc
  | case2 c s hbreak =>
    intro a ha
    obtain rfl := Option.some.inj ha
    simp [Separator.isStart, hbreak]
  | case5 c s hcaret hstart =>
    intro a ha
    obtain rfl := Option.some.inj ha
    exact hstart
  | case3 c s hbreak ih => exact ih
  | case4 c s ih => exact ih
  | case6 c s hcaret hstart ih => exact ih

theorem readTarget?_isSuffix {s name rest : Text} (h : readTarget? s = some (name, rest)) :
    rest <:+ s := by
  rw [(readTarget?_eq_some h).1]
  exact (List.suffix_cons '=' rest).trans (List.suffix_append _ _)

theorem readVariable?_isSuffix {s marks rest : Text} {letter : Char}
    (h : readVariable? s = some (marks, letter, rest)) : rest <:+ s := by
  unfold readVariable? at h
  split at h
  · split at h
    · cases h
      exact List.suffix_append ['%', '%', _] _
    · cases h
  · split at h
    · cases h
      exact List.suffix_append ['%', _] _
    · cases h
  · cases h

theorem dropKeyword?_isSuffix {keyword : String} {s rest : Text}
    (h : dropKeyword? keyword s = some rest) : rest <:+ s := by
  obtain ⟨start, rfl, -⟩ := dropKeyword?_eq_some h
  exact List.suffix_append _ _

theorem dropBlanks?_isSuffix {s rest : Text} (h : dropBlanks? s = some rest) : rest <:+ s := by
  obtain ⟨blanks, rfl, -⟩ := dropBlanks?_eq_some h
  exact List.suffix_append _ _

theorem readAssignment?_unquoted (grouped : Bool) {s : Text} (hs : ∀ t, s ≠ '"' :: t) :
    readAssignment? grouped s = (readTarget? s).map fun target =>
      (.assignment (Text.trim target.1)
        (if grouped then Text.trimEnd (dropClosing (Text.trim (takeBody false target.2)))
          else Text.trim (takeBody false target.2)),
        target.2.drop (takeBody false target.2).length) := by
  unfold readAssignment?
  split
  · next t => exact absurd rfl (hs t)
  · cases readTarget? s with
    | none => rfl
    | some target => rfl

theorem readAssignment?_rest {grouped : Bool} {s rest : Text} {form : Form}
    (h : readAssignment? grouped s = some (form, rest)) : rest <:+ s ∧ AtSeparator rest := by
  unfold readAssignment? at h
  split at h
  · next s =>
    obtain ⟨⟨name, t⟩, htarget, h⟩ := Option.bind_eq_some_iff.1 h
    obtain ⟨⟨value, rest'⟩, hclosing, h⟩ := Option.bind_eq_some_iff.1 h
    cases h
    refine ⟨?_, atSeparator_dropWhile rest'⟩
    have ht : rest' <:+ t := by
      rw [(splitClosing?_eq_some hclosing).1]
      exact (List.suffix_cons '"' rest').trans (List.suffix_append _ _)
    exact (List.dropWhile_suffix _).trans (ht.trans
      ((readTarget?_isSuffix htarget).trans (List.suffix_cons '"' s)))
  · obtain ⟨⟨name, t⟩, htarget, h⟩ := Option.bind_eq_some_iff.1 h
    cases h
    exact ⟨(List.drop_suffix _ _).trans (readTarget?_isSuffix htarget), atSeparator_takeBody _ _⟩

def readItems? (s : Text) : Option (Text × Text) :=
  (Text.stripStart? ['('] (s.dropWhile Text.isBlank)).bind fun s =>
    (Text.stripStart? [')'] (s.drop (takeItems false s).length)).map fun rest =>
      (takeItems false s, rest)

def loopItems? (s : Text) : Option (Text × Text) :=
  ((dropBlanks? s).bind (dropKeyword? "in")).bind readItems?

def loopBody? (s : Text) : Option Text :=
  ((dropBlanks? s).bind (dropKeyword? "do")).bind dropBlanks?

theorem readLoop?_eq (grouped : Bool) (s : Text) :
    readLoop? grouped s =
      (readVariable? s).bind fun found => (loopItems? found.2.2).bind fun items =>
        (loopBody? items.2).map fun s =>
          (.loop ⟨grouped, found.1, found.2.1, items.1, takeBody false s⟩,
            s.drop (takeBody false s).length) := by
  unfold readLoop? loopItems? loopBody?
  cases readVariable? s with
  | none => rfl
  | some found =>
    simp only [Option.bind_eq_bind, Option.bind_some, Option.bind_assoc]
    refine Option.bind_congr fun u _ => Option.bind_congr fun v _ => ?_
    unfold readItems?
    cases v.dropWhile Text.isBlank with
    | nil => rfl
    | cons c w =>
      by_cases hc : '(' = c
      · subst hc
        have hopen : Text.stripStart? ['('] ('(' :: w) = some w := rfl
        simp only [hopen, Option.bind_some]
        cases w.drop (takeItems false w).length with
        | nil => rfl
        | cons d x =>
          by_cases hd : ')' = d
          · subst hd
            have hclose : Text.stripStart? [')'] (')' :: x) = some x := rfl
            simp only [hclose, Option.map_some, Option.bind_some]
            simp only [Option.map_eq_bind, Option.bind_assoc]
            rfl
          · have hclose : Text.stripStart? [')'] (d :: x) = none := if_neg hd
            simp only [hclose, Option.map_none, Option.bind_none]
            split
            · next heq => exact absurd (List.cons.inj heq).1.symm hd
            · rfl
      · have hopen : Text.stripStart? ['('] (c :: w) = none := if_neg hc
        simp only [hopen, Option.bind_none]
        split
        · next heq => exact absurd (List.cons.inj heq).1.symm hc
        · rfl

theorem readItems?_isSuffix {s items rest : Text} (h : readItems? s = some (items, rest)) :
    rest <:+ s := by
  obtain ⟨t, hopen, h⟩ := Option.bind_eq_some_iff.1 h
  obtain ⟨u, hclose, h⟩ := Option.map_eq_some_iff.1 h
  cases h
  have ht : t <:+ s.dropWhile Text.isBlank := by
    rw [Text.stripStart?_eq_some.1 hopen]
    exact List.suffix_append _ _
  have hrest : rest <:+ t.drop (takeItems false t).length := by
    rw [Text.stripStart?_eq_some.1 hclose]
    exact List.suffix_append _ _
  exact hrest.trans ((List.drop_suffix _ t).trans (ht.trans (List.dropWhile_suffix _)))

theorem loopItems?_isSuffix {s items rest : Text} (h : loopItems? s = some (items, rest)) :
    rest <:+ s := by
  obtain ⟨t, hin, hitems⟩ := Option.bind_eq_some_iff.1 h
  obtain ⟨u, hblanks, hin⟩ := Option.bind_eq_some_iff.1 hin
  exact (readItems?_isSuffix hitems).trans
    ((dropKeyword?_isSuffix hin).trans (dropBlanks?_isSuffix hblanks))

/-- The body of a loop stands behind a blank. -/
theorem loopBody?_behind {s body : Text} (h : loopBody? s = some body) :
    ∃ c, c ≠ '^' ∧ c :: body <:+ s := by
  obtain ⟨t, hdo, hblanks⟩ := Option.bind_eq_some_iff.1 h
  obtain ⟨u, hblanks', hdo⟩ := Option.bind_eq_some_iff.1 hdo
  obtain ⟨blank, blanks, rfl, hblank⟩ := dropBlanks?_eq_cons hblanks
  obtain ⟨front, c, hlast⟩ := (List.eq_nil_or_concat (blank :: blanks)).resolve_left (by simp)
  have hc : c ≠ '^' := by
    rintro rfl
    exact absurd (hblank '^' (by simp [hlast])) (by decide)
  have hbody : c :: body <:+ blank :: blanks ++ body := by
    rw [hlast, List.concat_eq_append, List.append_assoc]
    exact List.suffix_append _ _
  exact ⟨c, hc, hbody.trans ((dropKeyword?_isSuffix hdo).trans (dropBlanks?_isSuffix hblanks'))⟩

theorem loopBody?_isSuffix {s rest : Text} (h : loopBody? s = some rest) : rest <:+ s := by
  obtain ⟨t, hdo, hblanks⟩ := Option.bind_eq_some_iff.1 h
  obtain ⟨u, hblanks', hdo⟩ := Option.bind_eq_some_iff.1 hdo
  exact (dropBlanks?_isSuffix hblanks).trans
    ((dropKeyword?_isSuffix hdo).trans (dropBlanks?_isSuffix hblanks'))

theorem readLoop?_rest {grouped : Bool} {s rest : Text} {form : Form}
    (h : readLoop? grouped s = some (form, rest)) : rest <:+ s ∧ AtSeparator rest := by
  rw [readLoop?_eq] at h
  obtain ⟨⟨marks, letter, t⟩, hvariable, h⟩ := Option.bind_eq_some_iff.1 h
  obtain ⟨⟨items, u⟩, hitems, h⟩ := Option.bind_eq_some_iff.1 h
  obtain ⟨body, hbody, h⟩ := Option.map_eq_some_iff.1 h
  cases h
  refine ⟨(List.drop_suffix _ _).trans ?_, atSeparator_takeBody _ _⟩
  exact (loopBody?_isSuffix hbody).trans
    ((loopItems?_isSuffix hitems).trans (readVariable?_isSuffix hvariable))

/-- Behind a statement the text ends or goes on with a separator. -/
theorem readForm_rest (s : Text) : (readForm s).2 <:+ s ∧ AtSeparator (readForm s).2 := by
  have hkeyword : ∀ {keyword : String} {read? : Text → Option (Form × Text)} {found : Form × Text},
      (∀ {t rest : Text} {form : Form}, read? t = some (form, rest) →
        rest <:+ t ∧ AtSeparator rest) →
      ((dropKeyword? keyword (s.drop (leadText (lead s)).length)).bind dropBlanks?).bind read? =
        some found → found.2 <:+ s ∧ AtSeparator found.2 := by
    intro keyword read? ⟨form, rest⟩ hread h
    obtain ⟨t, ht, hfound⟩ := Option.bind_eq_some_iff.1 h
    obtain ⟨u, hu, hblanks⟩ := Option.bind_eq_some_iff.1 ht
    obtain ⟨hsuffix, hstart⟩ := hread hfound
    exact ⟨hsuffix.trans ((dropBlanks?_isSuffix hblanks).trans
      ((dropKeyword?_isSuffix hu).trans (List.drop_suffix _ _))), hstart⟩
  unfold readForm
  dsimp only
  cases hfor : ((dropKeyword? "for" (s.drop (leadText (lead s)).length)).bind dropBlanks?).bind
      (readLoop? (isGrouped (lead s))) with
  | some found => exact hkeyword readLoop?_rest hfor
  | none =>
    cases hset : ((dropKeyword? "set" (s.drop (leadText (lead s)).length)).bind dropBlanks?).bind
        (readAssignment? (isGrouped (lead s))) with
    | some found => exact hkeyword readAssignment?_rest hset
    | none => exact ⟨List.drop_suffix _ _, atSeparator_takeBody false s⟩

/-! ## Bodies -/

/-- A reader goes on to the next separator from somewhere behind a character that is no caret. -/
def LeavesBody (s rest : Text) : Prop :=
  ∃ start c body, s = start ++ c :: body ∧ c ≠ '^' ∧ rest = body.drop (takeBody false body).length

theorem LeavesBody.of_isSuffix {s t rest : Text} (h : LeavesBody t rest) (hsuffix : t <:+ s) :
    LeavesBody s rest := by
  obtain ⟨start, c, body, rfl, hc, hrest⟩ := h
  obtain ⟨front, rfl⟩ := hsuffix
  exact ⟨front ++ start, c, body, (List.append_assoc ..).symm, hc, hrest⟩

theorem readAssignment?_leavesBody {grouped : Bool} {s rest : Text} {form : Form} (hs : '"' ∉ s)
    (h : readAssignment? grouped s = some (form, rest)) : LeavesBody s rest := by
  have hquote : ∀ t, s ≠ '"' :: t := by
    rintro t rfl
    exact hs List.mem_cons_self
  rw [readAssignment?_unquoted grouped hquote] at h
  obtain ⟨⟨name, body⟩, htarget, h⟩ := Option.map_eq_some_iff.1 h
  cases h
  exact ⟨name, '=', body, (readTarget?_eq_some htarget).1, by decide, rfl⟩

theorem readLoop?_leavesBody {grouped : Bool} {s rest : Text} {form : Form}
    (h : readLoop? grouped s = some (form, rest)) : LeavesBody s rest := by
  rw [readLoop?_eq] at h
  obtain ⟨⟨marks, letter, t⟩, hvariable, h⟩ := Option.bind_eq_some_iff.1 h
  obtain ⟨⟨items, u⟩, hitems, h⟩ := Option.bind_eq_some_iff.1 h
  obtain ⟨body, hbody, h⟩ := Option.map_eq_some_iff.1 h
  cases h
  obtain ⟨c, hc, start, hstart⟩ := loopBody?_behind hbody
  have hu : LeavesBody u (body.drop (takeBody false body).length) :=
    ⟨start, c, body, hstart.symm, hc, rfl⟩
  exact hu.of_isSuffix ((loopItems?_isSuffix hitems).trans (readVariable?_isSuffix hvariable))

/-- The last part of a statement without quotes goes on to the next separator. -/
theorem readForm_body {s : Text} (hs : '"' ∉ s) :
    ∃ start body, s = start ++ body ∧ start.foldl Mode.next .plain = .plain ∧
      (readForm s).2 = body.drop (takeBody false body).length := by
  have hbehind : ∀ {rest : Text}, LeavesBody s rest →
      ∃ start body, s = start ++ body ∧ start.foldl Mode.next .plain = .plain ∧
        rest = body.drop (takeBody false body).length := by
    rintro rest ⟨start, c, body, rfl, hc, hrest⟩
    rw [List.mem_append, not_or, List.mem_cons, not_or] at hs
    refine ⟨start ++ [c], body, by simp, ?_, hrest⟩
    exact Mode.foldl_next_concat hs.1 (Ne.symm hs.2.1) hc
  have hkeyword : ∀ {keyword : String} {read? : Text → Option (Form × Text)} {found : Form × Text},
      (∀ {t rest : Text} {form : Form}, '"' ∉ t → read? t = some (form, rest) →
        LeavesBody t rest) →
      ((dropKeyword? keyword (s.drop (leadText (lead s)).length)).bind dropBlanks?).bind read? =
        some found → LeavesBody s found.2 := by
    intro keyword read? ⟨form, rest⟩ hread h
    obtain ⟨t, ht, hfound⟩ := Option.bind_eq_some_iff.1 h
    obtain ⟨u, hu, hblanks⟩ := Option.bind_eq_some_iff.1 ht
    have hsuffix : t <:+ s := (dropBlanks?_isSuffix hblanks).trans
      ((dropKeyword?_isSuffix hu).trans (List.drop_suffix _ _))
    exact (hread (fun hquote => hs (hsuffix.mem hquote)) hfound).of_isSuffix hsuffix
  unfold readForm
  dsimp only
  cases hfor : ((dropKeyword? "for" (s.drop (leadText (lead s)).length)).bind dropBlanks?).bind
      (readLoop? (isGrouped (lead s))) with
  | some found => exact hbehind (hkeyword (fun _ => readLoop?_leavesBody) hfor)
  | none =>
    cases hset : ((dropKeyword? "set" (s.drop (leadText (lead s)).length)).bind dropBlanks?).bind
        (readAssignment? (isGrouped (lead s))) with
    | some found => exact hbehind (hkeyword readAssignment?_leavesBody hset)
    | none => exact ⟨[], s, rfl, rfl, rfl⟩

/-! ## Statements -/

theorem text_first_append (s : Text) : (Statement.first s).text ++ (readForm s).2 = s := by
  obtain ⟨start, hstart⟩ := (readForm_rest s).1
  rw [text_first_of_append hstart.symm, hstart]

/-- A statement without quotes in front of a separator leaves the machine outside of quotes. -/
theorem foldl_text_first {s : Text} (hs : '"' ∉ s) (hrest : (readForm s).2 ≠ []) :
    (Statement.first s).text.foldl Mode.next .plain = .plain := by
  obtain ⟨start, body, hsplit, hstart, hbody⟩ := readForm_body hs
  rw [takeBody_eq_pass, if_neg Bool.false_ne_true] at hbody
  have hpass : Mode.plain.pass body ≠ body := by
    intro hpass
    rw [hpass, List.drop_length] at hbody
    exact hrest hbody
  have htext : (Statement.first s).text = start ++ Mode.plain.pass body := by
    refine text_first_of_append ?_
    rw [hbody, List.append_assoc, List.prefix_iff_eq_append.1 (pass_isPrefix .plain body), hsplit]
  have hbody : '"' ∉ body := by
    rw [hsplit, List.mem_append, not_or] at hs
    exact hs.2
  rw [htext, List.foldl_append, hstart, Mode.foldl_pass hbody (by decide) hpass]

theorem drop_text_first (s : Text) : s.drop (Statement.first s).text.length = (readForm s).2 := by
  conv => lhs; arg 2; rw [← text_first_append s]
  rw [List.drop_left]

theorem read_eq (s : Text) : read s = ⟨Statement.first s, readTail (readForm s).2⟩ := by
  rw [read, drop_text_first]

theorem readTail_cons {c : Char} {s : Text} {separator : Separator} {width : Nat}
    (h : Separator.first? c s = some (separator, width)) :
    readTail (c :: s) =
      (separator, (read (s.drop width)).head) :: (read (s.drop width)).tail := by
  rw [readTail, h]
  rfl

theorem read_last {s : Text} (h : (readForm s).2 = []) : read s = ⟨Statement.first s, []⟩ := by
  rw [read_eq, h, readTail]

theorem read_next {s t : Text} {c : Char} {separator : Separator} {width : Nat}
    (h : (readForm s).2 = c :: t) (hfirst : Separator.first? c t = some (separator, width)) :
    read s = ⟨Statement.first s,
      (separator, (read (t.drop width)).head) :: (read (t.drop width)).tail⟩ := by
  rw [read_eq, h, readTail_cons hfirst]

/-- A text is one statement, or a statement, a separator and a text that is shorter. -/
theorem read_induction {P : Text → Prop} (last : ∀ s, (readForm s).2 = [] → P s)
    (next : ∀ s c t separator width, (readForm s).2 = c :: t →
      Separator.first? c t = some (separator, width) → P (t.drop width) → P s) (s : Text) : P s := by
  generalize hn : s.length = n
  induction n using Nat.strongRecOn generalizing s with
  | ind n ih =>
    obtain ⟨hsuffix, hstart⟩ := readForm_rest s
    cases hrest : (readForm s).2 with
    | nil => exact last s hrest
    | cons c t =>
      rw [hrest] at hsuffix hstart
      obtain ⟨separator, width, hfirst, -⟩ := Separator.exists_first? (hstart c rfl) t
      have hlength : (t.drop width).length < n := by
        have hle := hsuffix.length_le
        rw [List.length_cons] at hle
        rw [List.length_drop]
        omega
      exact next s c t separator width hrest hfirst (ih _ hlength _ rfl)

/-! ## Statements and where they start -/

def statements (script : Script) : List Statement :=
  script.head :: script.tail.map Prod.snd

def firstText (s : Text) : Text :=
  (Statement.first s).text

theorem separators_last {s : Text} (h : (readForm s).2 = []) : separators firstText s = [] := by
  rw [separators]
  split
  · rfl
  · next hdrop =>
    rw [firstText, drop_text_first, h] at hdrop
    cases hdrop

theorem separators_next {s t : Text} {c : Char} {separator : Separator} {width : Nat}
    (h : (readForm s).2 = c :: t) (hfirst : Separator.first? c t = some (separator, width)) :
    separators firstText s =
      (separator, t.drop width) :: separators firstText (t.drop width) := by
  rw [separators]
  split
  · next hdrop =>
    rw [firstText, drop_text_first, h] at hdrop
    cases hdrop
  · next hdrop =>
    rw [firstText, drop_text_first, h] at hdrop
    obtain ⟨rfl, rfl⟩ := List.cons.inj hdrop
    rw [hfirst]

theorem starts_last {s : Text} (h : (readForm s).2 = []) : starts firstText s = [s] := by
  rw [starts, separators_last h]
  rfl

theorem starts_next {s t : Text} {c : Char} {separator : Separator} {width : Nat}
    (h : (readForm s).2 = c :: t) (hfirst : Separator.first? c t = some (separator, width)) :
    starts firstText s = s :: starts firstText (t.drop width) := by
  rw [starts, separators_next h hfirst]
  rfl

/-- A script is the statement at the head of its text and the one behind each separator. -/
theorem read_eq_separators (s : Text) :
    read s = ⟨Statement.first s,
      (separators firstText s).map fun next => (next.1, Statement.first next.2)⟩ := by
  induction s using read_induction with
  | last s h => rw [read_last h, separators_last h]; rfl
  | next s c t separator width h hfirst ih =>
    rw [read_next h hfirst, separators_next h hfirst, List.map_cons, ih]

/-- The statements of a script are those at the heads of the texts at which a statement starts. -/
theorem statements_read (s : Text) :
    (read s).statements = (starts firstText s).map Statement.first := by
  rw [read_eq_separators, statements, starts, List.map_cons, List.map_map, List.map_map]
  rfl

/-- Where a statement starts, an end of the text starts. -/
theorem isSuffix_of_mem_starts {s t : Text} (h : t ∈ starts firstText s) : t <:+ s := by
  induction s using read_induction with
  | last s hrest =>
    rw [starts_last hrest] at h
    exact List.mem_singleton.1 h ▸ List.suffix_refl t
  | next s c u separator width hrest hfirst ih =>
    rw [starts_next hrest hfirst] at h
    rcases List.mem_cons.1 h with rfl | h
    · exact List.suffix_refl t
    · have hsuffix := (readForm_rest s).1
      rw [hrest] at hsuffix
      exact (ih h).trans ((List.drop_suffix width u).trans ((List.suffix_cons c u).trans hsuffix))

end Script

end Unmask
