import Unmask.Proofs.Leads
import Unmask.Proofs.Rests

/-!
# Lines

A line break ends a statement, so what stands behind it does not count for the statements in front
of it.  There are three exceptions, and each shows in the line: a quoted value may hold a line break,
a caret makes it ordinary, and a carriage return takes a line feed behind it as its own.

The line break is a line feed, a carriage return, or both as one; `mark` is the first character of it.

    readForm_line    a statement ends within its line
    read_line        the statements of a text, a line break, and the statements behind it
-/

namespace Unmask

namespace Script

/-! ## Texts that end with their last line -/

/-- A line break behind the text ends its last statement. -/
structure Ended (s : Text) : Prop where
  noQuote : '"' ∉ s
  noCaret : s.getLast? ≠ some '^'
  noReturn : s.getLast? ≠ some '\r'

/-- A line break that starts with `mark` ends the last statement of the text. -/
structure Settled (mark : Char) (s : Text) : Prop where
  noQuote : '"' ∉ s
  plain : s.foldl Mode.next .plain = .plain
  noReturn : mark = '\n' → s.getLast? ≠ some '\r'

theorem Ended.settled {s : Text} (h : Ended s) : Settled '\n' s := by
  refine ⟨h.noQuote, ?_, fun _ => h.noReturn⟩
  cases hmode : s.foldl Mode.next .plain with
  | plain => rfl
  | quoted => exact absurd hmode (Mode.foldl_next_ne_quoted h.noQuote (by decide))
  | escaped => exact absurd (Mode.getLast?_of_foldl_next hmode) h.noCaret

/-- What stands behind a part that leaves the machine outside of quotes is settled as well. -/
theorem Settled.of_append {mark : Char} {start s : Text} (h : Settled mark (start ++ s))
    (hstart : start.foldl Mode.next .plain = .plain) : Settled mark s where
  noQuote hquote := h.noQuote (List.mem_append_right start hquote)
  plain := by
    have hplain := h.plain
    rwa [List.foldl_append, hstart] at hplain
  noReturn hmark hreturn := h.noReturn hmark (by rw [List.getLast?_append, hreturn]; rfl)

/-- An end of a text that a line break settles; it may start behind a caret. -/
def SettledEnd (mark : Char) (s : Text) : Prop :=
  ∃ start, Settled mark (start ++ s)

namespace SettledEnd

variable {mark : Char} {s t : Text}

theorem of_isSuffix (h : SettledEnd mark s) (hsuffix : t <:+ s) : SettledEnd mark t := by
  obtain ⟨start, hstart⟩ := h
  obtain ⟨front, rfl⟩ := hsuffix
  exact ⟨start ++ front, List.append_assoc start front t ▸ hstart⟩

theorem noQuote (h : SettledEnd mark s) : '"' ∉ s := by
  obtain ⟨start, hstart⟩ := h
  exact fun hquote => hstart.noQuote (List.mem_append_right start hquote)

/-- Behind a character that is no caret it starts outside of quotes. -/
theorem settled {c : Char} (h : SettledEnd mark (c :: s)) (hc : c ≠ '^') : Settled mark s := by
  obtain ⟨start, hstart⟩ := h
  have hquote := hstart.noQuote
  rw [List.mem_append, not_or, List.mem_cons, not_or] at hquote
  rw [List.append_cons] at hstart
  exact hstart.of_append (Mode.foldl_next_concat hquote.1 (Ne.symm hquote.2.1) hc)

end SettledEnd

theorem Settled.settledEnd {mark : Char} {s : Text} (h : Settled mark s) : SettledEnd mark s :=
  ⟨[], h⟩

/-- What stands behind the first statement is settled as the text is. -/
theorem settled_rest {mark : Char} {s : Text} (h : Settled mark s) :
    Settled mark (readForm s).2 := by
  by_cases hrest : (readForm s).2 = []
  · rw [hrest]
    exact ⟨List.not_mem_nil, rfl, fun _ => by simp⟩
  · rw [← text_first_append s] at h
    exact h.of_append (foldl_text_first (text_first_append s ▸ h.noQuote) hrest)

/-- What stands behind a separator is settled as the text is. -/
theorem settled_drop {mark c : Char} {s : Text} {separator : Separator} {width : Nat}
    (h : Settled mark (c :: s)) (hfirst : Separator.first? c s = some (separator, width)) :
    Settled mark (s.drop width) := by
  refine Settled.of_append ?_ (foldl_separator hfirst)
  rwa [List.cons_append, List.take_append_drop]

/-! ## Readers -/

section

variable {mark : Char} (hmark : Text.isBreak mark = true) (b : Text)

/-- What was read, and what stands behind it with another line. -/
def withLine {α : Type} (mark : Char) (b : Text) (found : α × Text) : α × Text :=
  (found.1, found.2 ++ mark :: b)

/-- A reader goes on behind another one, which leaves an end of the text. -/
theorem bind_line {α : Type} {s? s'? : Option Text} {read? : Text → Option α} {f : α → α}
    (hs : s'? = s?.map (· ++ mark :: b))
    (hread : ∀ s, s? = some s → read? (s ++ mark :: b) = (read? s).map f) :
    s'?.bind read? = (s?.bind read?).map f := by
  subst hs
  cases s? with
  | none => rfl
  | some s => exact hread s rfl

theorem drop_takeWhile_line {p : Char → Bool} (s : Text) :
    (s ++ mark :: b).drop (s.takeWhile p).length = s.drop (s.takeWhile p).length ++ mark :: b :=
  List.drop_append_of_le_length (List.takeWhile_prefix p).length_le

theorem dropWhile_line {p : Char → Bool} (hp : p mark = false) (s : Text) :
    (s ++ mark :: b).dropWhile p = s.dropWhile p ++ mark :: b := by
  induction s with
  | nil => exact List.dropWhile_cons_of_neg (by simp [hp])
  | cons c s ih =>
    rw [List.cons_append]
    by_cases hc : p c = true
    · rw [List.dropWhile_cons_of_pos hc, List.dropWhile_cons_of_pos hc, ih]
    · rw [List.dropWhile_cons_of_neg hc, List.dropWhile_cons_of_neg hc, List.cons_append]

theorem takeWhile_line {p : Char → Bool} (hp : p mark = false) (s : Text) :
    (s ++ mark :: b).takeWhile p = s.takeWhile p :=
  LeadItem.takeWhile_append_border (fun _ hc => Option.some.inj hc ▸ hp) s

theorem stripStart?_line {a : Char} (ha : a ≠ mark) (s : Text) :
    Text.stripStart? [a] (s ++ mark :: b) = (Text.stripStart? [a] s).map (· ++ mark :: b) := by
  cases s with
  | nil => exact if_neg ha
  | cons c s =>
    have hcons : ∀ t : Text, Text.stripStart? [a] (c :: t) = if a = c then some t else none :=
      fun t => rfl
    rw [List.cons_append, hcons, hcons]
    split <;> rfl

theorem takeItems_isPrefix (quoted : Bool) (s : Text) : takeItems quoted s <+: s := by
  fun_induction takeItems quoted s with
  | case1 quoted => exact List.nil_prefix
  | case2 c s hbreak => exact List.nil_prefix
  | case3 c s hbreak ih => exact List.cons_prefix_cons.2 ⟨rfl, ih⟩
  | case4 c s hstop => exact List.nil_prefix
  | case5 c s hstop ih => exact List.cons_prefix_cons.2 ⟨rfl, ih⟩

include hmark

/-- What holds of neither of the two characters does not hold of the mark. -/
theorem mark_not {p : Char → Bool} (hfeed : p '\n' = false) (hreturn : p '\r' = false) :
    p mark = false := by
  simp only [Text.isBreak, Bool.or_eq_true, beq_iff_eq] at hmark
  rcases hmark with rfl | rfl
  · exact hfeed
  · exact hreturn

theorem ne_mark {c : Char} (hc : Text.isBreak c = false) : c ≠ mark := by
  rintro rfl
  exact Bool.false_ne_true (hc.symm.trans hmark)

theorem lead_line (s : Text) : lead (s ++ mark :: b) = lead s := by
  obtain ⟨hstarts, hordinary⟩ := leadText_isPrefix (s ++ mark :: b)
  have halike : LeadItem.EndsAlike (mark :: b) [] :=
    ⟨fun c hc => Option.some.inj hc ▸ mark_not hmark rfl rfl, (fun c hc => by cases hc),
      mark_not hmark (p := Text.isBlank) rfl rfl⟩
  have hmark' : isOrdinary mark = false := mark_not hmark rfl rfl
  have hends : leadText (lead (s ++ mark :: b)) <+: s :=
    Text.isPrefix_of_notMem hstarts fun hmem =>
      Bool.false_ne_true (hmark'.symm.trans (hordinary mark hmem))
  have hlead := lead_append_congr halike (fun _ => by rw [lead]) hends
  rwa [List.append_nil, eq_comm] at hlead

theorem dropKeyword?_line (keyword : String)
    (hkeyword : (keyword.toList.all fun a => !Text.isBreak a.toLower) = true) (s : Text) :
    dropKeyword? keyword (s ++ mark :: b) = (dropKeyword? keyword s).map (· ++ mark :: b) := by
  unfold dropKeyword?
  generalize keyword.toList = pattern at hkeyword
  induction pattern generalizing s with
  | nil => rfl
  | cons a pattern ih =>
    rw [List.all_cons, Bool.and_eq_true, Bool.not_eq_true'] at hkeyword
    cases s with
    | nil =>
      have hbreak : Text.isBreak mark.toLower = true := by
        simpa using mark_not hmark (p := fun c => !Text.isBreak c.toLower) rfl rfl
      have ha : ¬ (a.toLower == mark.toLower) = true := by
        simpa using ne_mark hbreak hkeyword.1
      exact if_neg ha
    | cons c s =>
      rw [List.cons_append, Text.dropMatch?, Text.dropMatch?]
      split
      · exact ih s hkeyword.2
      · rfl

theorem dropBlanks?_line (s : Text) :
    dropBlanks? (s ++ mark :: b) = (dropBlanks? s).map (· ++ mark :: b) := by
  have hblank : Text.isBlank mark = false := mark_not hmark rfl rfl
  unfold dropBlanks?
  rw [dropWhile_line b hblank]
  cases s with
  | nil => exact if_neg (by simp [hblank])
  | cons c s =>
    rw [List.cons_append, List.head?_cons, List.head?_cons]
    split <;> rfl

theorem readTarget?_line (s : Text) :
    readTarget? (s ++ mark :: b) = (readTarget? s).map (withLine mark b) := by
  have heq : mark ≠ '=' := (ne_mark hmark rfl).symm
  unfold readTarget?
  dsimp only
  rw [takeWhile_line b (mark_not hmark rfl rfl), drop_takeWhile_line]
  split
  · cases s.drop (s.takeWhile isTargetChar).length with
    | nil =>
      rw [List.nil_append]
      split
      · next rest hrest => exact absurd (List.cons.inj hrest).1 heq
      · rfl
    | cons c t =>
      rw [List.cons_append]
      by_cases hc : c = '='
      · subst hc
        rfl
      · split
        · next rest heq => exact absurd (List.cons.inj heq).1 hc
        · split
          · next rest heq => exact absurd (List.cons.inj heq).1 hc
          · rfl
  · rfl

theorem takeBody_line {s : Text} (h : Settled mark s) :
    takeBody false (s ++ mark :: b) = takeBody false s := by
  have hstops : Mode.plain.stops mark = true := by
    simpa using mark_not hmark (p := fun c => !Mode.plain.stops c) rfl rfl
  rw [takeBody_eq_pass, takeBody_eq_pass, if_neg Bool.false_ne_true]
  by_cases hs : Mode.plain.pass s = s
  · rw [Mode.pass_append_of_eq hs, h.plain, hs, Mode.pass, if_pos hstops]
    exact List.append_nil s
  · exact Mode.pass_append_of_ne hs _

theorem drop_takeBody_line {s : Text} (h : Settled mark s) :
    (s ++ mark :: b).drop (takeBody false (s ++ mark :: b)).length =
      s.drop (takeBody false s).length ++ mark :: b := by
  have hstarts : takeBody false s <+: s := by
    rw [takeBody_eq_pass]
    exact pass_isPrefix _ s
  rw [takeBody_line hmark b h, List.drop_append_of_le_length hstarts.length_le]

theorem takeItems_line {s : Text} (hs : '"' ∉ s) :
    takeItems false (s ++ mark :: b) = takeItems false s := by
  induction s with
  | nil => exact if_pos (Or.inr hmark)
  | cons c s ih =>
    rw [List.mem_cons, not_or] at hs
    have hc : (c == '"') = false := by simpa using Ne.symm hs.1
    rw [List.cons_append, takeItems, takeItems, hc, ih hs.2]

theorem readVariable?_line (s : Text) :
    readVariable? (s ++ mark :: b) =
      (readVariable? s).map fun found => (found.1, withLine mark b found.2) := by
  have hbreak : mark.isAlpha = false := mark_not hmark rfl rfl
  have hmark' : mark ≠ '%' := (ne_mark hmark rfl).symm
  have hpercent : ('%' : Char).isAlpha = false := by decide
  rcases s with _ | ⟨c, _ | ⟨d, s⟩⟩
  · simp [readVariable?, hmark']
  · by_cases hc : c = '%'
    · subst hc
      simp [readVariable?, hbreak, hmark']
    · simp [readVariable?, hc]
  · by_cases hc : c = '%'
    · by_cases hd : d = '%'
      · subst hc hd
        rcases s with _ | ⟨e, s⟩
        · simp [readVariable?, hbreak, hpercent]
        · simp only [List.cons_append, readVariable?]
          split <;> rfl
      · subst hc
        have hone : ∀ t : Text, readVariable? ('%' :: d :: t) =
            if d.isAlpha then some (['%'], d, t) else none := fun t => by simp [readVariable?, hd]
        rw [List.cons_append, List.cons_append, hone, hone]
        split <;> rfl
    · simp [readVariable?, hc]

theorem readAssignment?_line (grouped : Bool) {s : Text} (h : SettledEnd mark s) :
    readAssignment? grouped (s ++ mark :: b) =
      (readAssignment? grouped s).map (withLine mark b) := by
  have hquote : ∀ t, s ≠ '"' :: t := by
    rintro t rfl
    exact h.noQuote List.mem_cons_self
  have hquote' : ∀ t, s ++ mark :: b ≠ '"' :: t := by
    intro t ht
    cases s with
    | nil => exact ne_mark hmark (c := '"') rfl (List.cons.inj ht).1.symm
    | cons c s => exact hquote s (congrArg (· :: s) (List.cons.inj ht).1)
  rw [readAssignment?_unquoted grouped hquote, readAssignment?_unquoted grouped hquote',
    readTarget?_line hmark]
  cases htarget : readTarget? s with
  | none => rfl
  | some target =>
    have htail : Settled mark target.2 := by
      refine (h.of_isSuffix ?_).settled (c := '=') (by decide)
      rw [(readTarget?_eq_some htarget).1]
      exact List.suffix_append _ _
    simp only [Option.map_some, withLine]
    rw [drop_takeBody_line hmark b htail, takeBody_line hmark b htail]

theorem readItems?_line {s : Text} (hs : '"' ∉ s) :
    readItems? (s ++ mark :: b) = (readItems? s).map (withLine mark b) := by
  unfold readItems?
  rw [dropWhile_line b (mark_not hmark rfl rfl)]
  refine bind_line b (stripStart?_line b (ne_mark hmark rfl) _) fun t ht => ?_
  have ht : t <:+ s := by
    refine List.IsSuffix.trans ?_ (List.dropWhile_suffix Text.isBlank)
    rw [Text.stripStart?_eq_some.1 ht]
    exact List.suffix_append _ _
  rw [takeItems_line hmark b fun hquote => hs (ht.mem hquote),
    List.drop_append_of_le_length (takeItems_isPrefix false t).length_le,
    stripStart?_line b (ne_mark hmark rfl)]
  simp only [Option.map_map]
  rfl

theorem loopItems?_line {s : Text} (hs : '"' ∉ s) :
    loopItems? (s ++ mark :: b) = (loopItems? s).map (withLine mark b) := by
  have hin := bind_line b (dropBlanks?_line hmark b s) fun t _ =>
    dropKeyword?_line hmark b "in" (by decide) t
  refine bind_line b hin fun t ht => readItems?_line hmark b fun hquote => hs ?_
  obtain ⟨u, hu, ht⟩ := Option.bind_eq_some_iff.1 ht
  exact ((dropKeyword?_isSuffix ht).trans (dropBlanks?_isSuffix hu)).mem hquote

theorem loopBody?_line (s : Text) :
    loopBody? (s ++ mark :: b) = (loopBody? s).map (· ++ mark :: b) :=
  bind_line b (bind_line b (dropBlanks?_line hmark b s) fun t _ =>
    dropKeyword?_line hmark b "do" (by decide) t) fun t _ => dropBlanks?_line hmark b t

theorem readLoop?_line (grouped : Bool) {s : Text} (h : SettledEnd mark s) :
    readLoop? grouped (s ++ mark :: b) = (readLoop? grouped s).map (withLine mark b) := by
  rw [readLoop?_eq, readLoop?_eq, readVariable?_line hmark]
  cases hvariable : readVariable? s with
  | none => rfl
  | some found =>
    have ht : SettledEnd mark found.2.2 := h.of_isSuffix (readVariable?_isSuffix hvariable)
    simp only [Option.map_some, Option.bind_some, withLine]
    rw [loopItems?_line hmark b ht.noQuote]
    cases hitems : loopItems? found.2.2 with
    | none => rfl
    | some items =>
      have hu : SettledEnd mark items.2 := ht.of_isSuffix (loopItems?_isSuffix hitems)
      simp only [Option.map_some, Option.bind_some, withLine]
      rw [loopBody?_line hmark]
      cases hbody : loopBody? items.2 with
      | none => rfl
      | some body =>
        obtain ⟨c, hc, hsuffix⟩ := loopBody?_behind hbody
        have hv : Settled mark body := (hu.of_isSuffix hsuffix).settled hc
        simp only [Option.map_some]
        rw [drop_takeBody_line hmark b hv, takeBody_line hmark b hv]
        rfl

/-- Another line behind the text stands behind its first statement. -/
theorem readForm_line {s : Text} (h : Settled mark s) :
    readForm (s ++ mark :: b) = withLine mark b (readForm s) := by
  have hlead : leadText (lead s) <+: s := (leadText_isPrefix s).1
  have hkeyword : ∀ (keyword : String) {read? : Text → Option (Form × Text)},
      (keyword.toList.all fun a => !Text.isBreak a.toLower) = true →
      (∀ {t}, SettledEnd mark t → read? (t ++ mark :: b) = (read? t).map (withLine mark b)) →
      ((dropKeyword? keyword ((s ++ mark :: b).drop (leadText (lead s)).length)).bind
          dropBlanks?).bind read? =
        (((dropKeyword? keyword (s.drop (leadText (lead s)).length)).bind
          dropBlanks?).bind read?).map (withLine mark b) := by
    intro keyword read? hkeyword hread
    rw [List.drop_append_of_le_length hlead.length_le]
    have hblanks := bind_line b (dropKeyword?_line hmark b keyword hkeyword
      (s.drop (leadText (lead s)).length)) fun t _ => dropBlanks?_line hmark b t
    refine bind_line b hblanks fun t ht => hread (h.settledEnd.of_isSuffix ?_)
    obtain ⟨u, hu, ht⟩ := Option.bind_eq_some_iff.1 ht
    exact (dropBlanks?_isSuffix ht).trans
      ((dropKeyword?_isSuffix hu).trans (List.drop_suffix _ _))
  unfold readForm
  dsimp only
  rw [lead_line hmark, hkeyword "for" (by decide) (readLoop?_line hmark b _),
    hkeyword "set" (by decide) (readAssignment?_line hmark b _), drop_takeBody_line hmark b h]
  cases ((dropKeyword? "for" (s.drop (leadText (lead s)).length)).bind dropBlanks?).bind
      (readLoop? (isGrouped (lead s))) with
  | some found => rfl
  | none =>
    cases ((dropKeyword? "set" (s.drop (leadText (lead s)).length)).bind dropBlanks?).bind
        (readAssignment? (isGrouped (lead s))) with
    | some found => rfl
    | none => rfl

/-! ## Statements -/

theorem first_line {s : Text} (h : Settled mark s) :
    Statement.first (s ++ mark :: b) = Statement.first s := by
  have htext : (Statement.first (s ++ mark :: b)).text = (Statement.first s).text := by
    refine text_first_of_append ?_
    rw [readForm_line hmark b h, withLine, ← List.append_assoc, text_first_append]
  have hkind : (Statement.first (s ++ mark :: b)).kind = (Statement.first s).kind := by
    rw [kind_first, kind_first, readForm_line hmark b h]
    rfl
  exact Statement.mk.injEq .. ▸ ⟨htext, hkind⟩

/-- The separator in front of another line stays the same. -/
theorem first?_line {c : Char} {s : Text} (h : Settled mark (c :: s)) :
    Separator.first? c (s ++ mark :: b) = Separator.first? c s := by
  cases s with
  | nil =>
    have hc : c = '\r' → mark ≠ '\n' := fun hc hfeed => h.noReturn hfeed (congrArg some hc)
    have hand : mark ≠ '&' := (ne_mark hmark rfl).symm
    have hbar : mark ≠ '|' := (ne_mark hmark rfl).symm
    unfold Separator.first?
    split
    · exact if_neg fun hhead => hand (Option.some.inj hhead)
    · exact if_neg fun hhead => hbar (Option.some.inj hhead)
    · exact if_neg fun hhead => hc rfl (Option.some.inj hhead)
    · rfl
    · rfl
  | cons d s => rfl

end

section

variable {mark : Char} {width : Nat}

/-- Behind the separators and statements of a text come a line break and another script. -/
theorem readTail_line (b : Text) (hfirst : Separator.first? mark b = some (.newline, width))
    {s : Text} (h : Settled mark s) (hs : AtSeparator s) :
    readTail (s ++ mark :: b) = readTail s ++
      (.newline, (read (b.drop width)).head) :: (read (b.drop width)).tail := by
  have hmark : Text.isBreak mark = true := Separator.isBreak_of_first? hfirst
  -- by induction on the length, as each statement leaves a shorter text
  generalize hn : s.length = n
  induction n using Nat.strongRecOn generalizing s with
  | ind n ih =>
    cases s with
    | nil => rw [List.nil_append, readTail_cons hfirst, readTail, List.nil_append]
    | cons c s =>
      obtain ⟨separator, width', hfirst', hwidth⟩ := Separator.exists_first? (hs c rfl) s
      have hline := (first?_line hmark b h).trans hfirst'
      rw [List.cons_append, readTail_cons hline, readTail_cons hfirst',
        List.drop_append_of_le_length hwidth]
      have hbehind : Settled mark (s.drop width') := settled_drop h hfirst'
      obtain ⟨hsuffix, hstart⟩ := readForm_rest (s.drop width')
      have hlength : (readForm (s.drop width')).2.length < n := by
        have hle := hsuffix.length_le
        rw [List.length_drop] at hle
        rw [List.length_cons] at hn
        omega
      rw [read_eq, read_eq (s.drop width'), first_line hmark b hbehind,
        readForm_line hmark b hbehind, withLine,
        ih _ hlength (settled_rest hbehind) hstart rfl]
      rfl

/-- A text with another one on the next line is the one script and then the other. -/
theorem read_line (b : Text) (hfirst : Separator.first? mark b = some (.newline, width)) {s : Text}
    (h : Settled mark s) :
    read (s ++ mark :: b) = ⟨(read s).head, (read s).tail ++
      (.newline, (read (b.drop width)).head) :: (read (b.drop width)).tail⟩ := by
  have hmark : Text.isBreak mark = true := Separator.isBreak_of_first? hfirst
  obtain ⟨hsuffix, hstart⟩ := readForm_rest s
  rw [read_eq, read_eq s, first_line hmark b h, readForm_line hmark b h, withLine,
    readTail_line b hfirst (settled_rest h) hstart]

end

end Script

end Unmask
