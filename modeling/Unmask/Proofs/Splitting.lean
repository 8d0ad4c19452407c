import Unmask.Proofs.Machine
import Unmask.Proofs.Openings
import Unmask.Script.Basic

/-!
# Where statements end

Without loops, the statements of a script are those that the machine finds, as long as no caret
behind a quoted assignment makes a separator ordinary: there the reader stops and the machine goes on.

    takeBody_eq_pass     the body of a command
    reach_append         the statement at the head of a text
    read_eq_split        all statements
-/

namespace Unmask.Script

/-! ## The machine -/

/-- Inside and outside of quotes, the body of a command is what the machine passes over. -/
theorem takeBody_eq_pass (quoted : Bool) (s : Text) :
    takeBody quoted s = (if quoted then Mode.quoted else .plain).pass s := by
  fun_induction takeBody quoted s with
  | case1 quoted => cases quoted <;> rfl
  | case2 c s hbreak =>
    rw [if_pos rfl, Mode.pass, Mode.stops, if_pos hbreak]
  | case3 c s hbreak ih =>
    rw [if_pos rfl, Mode.pass, Mode.stops, if_neg hbreak, ih, Mode.next]
    by_cases hc : c = '"'
    · rw [if_pos hc, if_neg (by simp [hc])]
    · rw [if_neg hc, if_pos (by simp [hc])]
  | case4 c s ih =>
    rw [ih]
    rfl
  | case5 c s hcaret hstart =>
    rw [if_neg (by decide), Mode.pass, Mode.stops, if_pos hstart]
  | case6 c s hcaret hstart ih =>
    rw [if_neg (by decide), Mode.pass, Mode.stops, if_neg hstart, ih, Mode.next]
    by_cases hc : c = '"'
    · rw [if_pos hc, if_pos (by simp [hc])]
    · rw [if_neg hc, if_neg (by simp [hc])]
      by_cases hc' : c = '^'
      · subst hc'
        cases s with
        | nil => rfl
        | cons d s => exact absurd rfl (hcaret d s rfl)
      · rw [if_neg hc']

theorem pass_isPrefix (mode : Mode) (s : Text) : mode.pass s <+: s := by
  induction s generalizing mode with
  | nil => exact List.nil_prefix
  | cons c s ih =>
    rw [Mode.pass]
    split
    · exact List.nil_prefix
    · exact List.cons_prefix_cons.2 ⟨rfl, ih _⟩

/-- Outside of quotes an ordinary character is passed over and opens none. -/
theorem Mode.ordinary {mode : Mode} (hmode : mode ≠ .quoted) {c : Char} (hc : isOrdinary c = true) :
    mode.stops c = false ∧ mode.next c ≠ .quoted := by
  unfold isOrdinary at hc
  obtain ⟨hquote, hstart⟩ : c ≠ '"' ∧ Separator.isStart c = false := by simpa using hc
  cases mode with
  | quoted => exact absurd rfl hmode
  | plain =>
    refine ⟨hstart, ?_⟩
    rw [next, if_neg hquote]
    split <;> decide
  | escaped => exact ⟨rfl, fun h => by cases h⟩

/-- Ordinary characters leave the machine outside of quotes, and an equals sign is no caret. -/
theorem pass_ordinary {p : Text} (hp : ∀ c ∈ p, isOrdinary c = true) (s : Text) {mode : Mode}
    (hmode : mode ≠ .quoted) :
    mode.pass (p ++ '=' :: s) = p ++ '=' :: Mode.plain.pass s := by
  induction p generalizing mode with
  | nil =>
    cases mode with
    | quoted => exact absurd rfl hmode
    | plain | escaped => rfl
  | cons c p ih =>
    obtain ⟨hstops, hnext⟩ := Mode.ordinary hmode (hp c List.mem_cons_self)
    rw [List.cons_append, Mode.pass, hstops, if_neg Bool.false_ne_true,
      ih (fun a ha => hp a (List.mem_cons_of_mem _ ha)) hnext, List.cons_append]

/-- Behind a closing quote the machine stops at the first separator that no caret escapes. -/
theorem pass_behind {rest : Text} (hcloses : closes rest = true) {mode : Mode}
    (hmode : mode ≠ .quoted)
    (hescaped : rest.any Separator.isStart = true →
      (rest.takeWhile fun c => !Separator.isStart c).foldl Mode.next mode ≠ .escaped) :
    mode.pass rest = rest.takeWhile fun c => !Separator.isStart c := by
  -- no quote stands in front of the separator, so the machine is never inside of quotes
  induction rest generalizing mode with
  | nil => rfl
  | cons c s ih =>
    by_cases hstart : Separator.isStart c = true
    · have hplain : mode = .plain := by
        cases mode with
        | quoted => exact absurd rfl hmode
        | plain => rfl
        | escaped =>
          refine absurd ?_ (hescaped ?_)
          · rw [List.takeWhile_cons_of_neg (by simp [hstart])]
            rfl
          · rw [List.any_cons, hstart, Bool.true_or]
      subst hplain
      rw [Mode.pass, Mode.stops, if_pos hstart, List.takeWhile_cons_of_neg (by simp [hstart])]
    · have hc : isOrdinary c = true := by
        unfold isOrdinary
        unfold closes at hcloses
        by_cases hquote : c = '"'
        · rw [hquote, List.dropWhile_cons_of_neg (by decide)] at hcloses
          cases hcloses
        · simp [hquote, hstart]
      have hcloses' : closes s = true := by
        unfold closes at hcloses ⊢
        rwa [List.dropWhile_cons_of_pos (by simpa [isOrdinary] using hc)] at hcloses
      obtain ⟨hstops, hnext⟩ := Mode.ordinary hmode hc
      rw [List.takeWhile_cons_of_pos (by simp [hstart])] at hescaped ⊢
      rw [Mode.pass, hstops, if_neg Bool.false_ne_true, ih hcloses' hnext]
      intro hany
      exact hescaped (by rw [List.any_cons, hany, Bool.or_true])

/-! ## The first statement -/

/-- A text that does not hold the keyword of loops in any letter case. -/
def LoopFree (s : Text) : Prop :=
  ¬ "for".toList <:+: Text.asciiLower s

theorem LoopFree.of_suffix {s t : Text} (h : LoopFree s) (hsuffix : t <:+ s) : LoopFree t := by
  intro hin
  obtain ⟨start, rfl⟩ := hsuffix
  refine h (hin.trans ?_)
  unfold Text.asciiLower
  rw [List.map_append]
  exact List.suffix_append _ _ |>.isInfix

theorem LoopFree.dropKeyword?_for {s : Text} (h : LoopFree s) : dropKeyword? "for" s = none := by
  cases hdrop : dropKeyword? "for" s with
  | none => rfl
  | some rest =>
    obtain ⟨start, rfl, hlower⟩ := dropKeyword?_eq_some hdrop
    refine absurd ?_ h
    unfold Text.asciiLower at hlower ⊢
    rw [List.map_append, hlower]
    exact List.prefix_append _ _ |>.isInfix

/-- Behind a statement without loops stands what follows an assignment, or else a command. -/
theorem LoopFree.readForm_snd {s : Text} (h : LoopFree s) :
    (readForm s).2 = ((assignmentText? s).bind fun t =>
      (readAssignment? (isGrouped (lead s)) t).map Prod.snd).getD (s.drop (takeBody false s).length) := by
  have hfor := (h.of_suffix (List.drop_suffix (leadText (lead s)).length s)).dropKeyword?_for
  unfold readForm assignmentText?
  simp only [hfor, Option.bind_none]
  cases (dropKeyword? "set" (s.drop (leadText (lead s)).length)).bind dropBlanks? with
  | none => rfl
  | some t =>
    simp only [Option.bind_some]
    cases readAssignment? (isGrouped (lead s)) t with
    | none => rfl
    | some found => rfl

/-- Behind a quoted assignment its statement goes on up to a separator. -/
theorem readAssignment?_quoted (grouped : Bool) (s : Text) :
    (readAssignment? grouped ('"' :: s)).map Prod.snd =
      (behindClosing? s).map fun rest => rest.dropWhile fun c => !Separator.isStart c := by
  unfold behindClosing?
  simp only [readAssignment?, Option.bind_eq_bind]
  cases readTarget? s with
  | none => rfl
  | some target =>
    simp only [Option.bind_some]
    cases splitClosing? target.2 with
    | none => rfl
    | some closing => rfl

theorem behindClosing?_eq_some {s rest : Text} (h : behindClosing? s = some rest) :
    (∃ front, s = front ++ rest) ∧ closes rest = true := by
  obtain ⟨⟨name, t⟩, htarget, h⟩ := Option.bind_eq_some_iff.1 h
  obtain ⟨⟨value, rest'⟩, hclosing, h⟩ := Option.bind_eq_some_iff.1 h
  cases h
  obtain ⟨rfl, -⟩ := readTarget?_eq_some htarget
  obtain ⟨rfl, hcloses⟩ := splitClosing?_eq_some hclosing
  refine ⟨⟨name ++ '=' :: value ++ ['"'], ?_⟩, hcloses⟩
  simp only [List.append_assoc, List.cons_append, List.nil_append]

theorem readAssignment?_bare (grouped : Bool) {s : Text} (hs : ∀ t, s ≠ '"' :: t) :
    (readAssignment? grouped s).map Prod.snd =
      (readTarget? s).map fun target => target.2.drop (takeBody false target.2).length := by
  unfold readAssignment?
  split
  · next t => exact absurd rfl (hs t)
  · cases readTarget? s with
    | none => rfl
    | some target => rfl

/-- A statement is what stands in front of the text behind it. -/
theorem text_first_of_append {s t : Text} (h : s = t ++ (readForm s).2) :
    (Statement.first s).text = t := by
  have htext : (Statement.first s).text = s.take (s.length - (readForm s).2.length) := rfl
  rw [htext]
  generalize (readForm s).2 = rest at h ⊢
  rw [h, List.length_append, Nat.add_sub_cancel, List.take_left]

/-- A command is what the machine passes over. -/
theorem pass_append_command (s : Text) :
    s = Mode.plain.pass s ++ s.drop (takeBody false s).length := by
  rw [takeBody_eq_pass, if_neg Bool.false_ne_true]
  exact (List.prefix_iff_eq_append.1 (pass_isPrefix .plain s)).symm

/-- So is an assignment without quotes. -/
theorem pass_append_bare {start : Text} (s : Text) (hstart : ∀ c ∈ start, isOrdinary c = true) :
    start ++ '=' :: s =
      Mode.plain.pass (start ++ '=' :: s) ++ s.drop (takeBody false s).length := by
  rw [pass_ordinary hstart s (by decide), List.append_assoc, List.cons_append,
    ← pass_append_command s]

/-- Where no caret escapes it, the machine stops at the first separator behind a quoted assignment. -/
theorem pass_behindQuoted {s rest : Text} (hbehind : behindQuoted? s = some rest)
    (hcloses : closes rest = true) (hescapes : escapesBehindQuoted s = false) :
    Mode.plain.pass rest = rest.takeWhile fun c => !Separator.isStart c := by
  unfold escapesBehindQuoted at hescapes
  rw [hbehind] at hescapes
  refine pass_behind hcloses (by decide) fun hany hescaped => ?_
  dsimp only at hescapes
  rw [hany, hescaped] at hescapes
  cases hescapes

/-- A quoted assignment is passed over through its closing quote, and then up to a separator. -/
theorem reach_append_quoted {s v start : Text} (hs : s = start ++ '"' :: v)
    (hbehind : behindQuoted? s = behindClosing? v) (hescapes : escapesBehindQuoted s = false) :
    s = reach s ++ ((behindClosing? v).map fun rest =>
      rest.dropWhile fun c => !Separator.isStart c).getD (s.drop (takeBody false s).length) := by
  unfold reach
  cases hclosing : behindClosing? v with
  | none =>
    rw [hbehind, hclosing]
    exact pass_append_command s
  | some rest =>
    rw [hclosing] at hbehind
    obtain ⟨⟨front, rfl⟩, hcloses⟩ := behindClosing?_eq_some hclosing
    have hfront : s = (start ++ '"' :: front) ++ rest := by
      rw [hs, List.append_assoc, List.cons_append]
    have htake : s.take (s.length - rest.length) = start ++ '"' :: front := by
      rw [hfront, List.length_append, Nat.add_sub_cancel, List.take_left]
    rw [hbehind]
    simp only [Option.map_some, Option.getD_some]
    rw [htake, pass_behindQuoted hbehind hcloses hescapes, List.append_assoc,
      List.takeWhile_append_dropWhile]
    exact hfront

/-- An assignment without quotes is passed over like a command. -/
theorem reach_append_bare {s t start : Text} (hs : s = start ++ t)
    (hstart : ∀ c ∈ start, isOrdinary c = true) (hbehind : behindQuoted? s = none) :
    s = reach s ++ ((readTarget? t).map fun target =>
      target.2.drop (takeBody false target.2).length).getD (s.drop (takeBody false s).length) := by
  unfold reach
  rw [hbehind]
  cases htarget : readTarget? t with
  | none => exact pass_append_command s
  | some target =>
    obtain ⟨ht, hname⟩ := readTarget?_eq_some htarget
    have hfront : s = (start ++ target.1) ++ '=' :: target.2 := by
      rw [hs, ht, List.append_assoc]
    have hordinary : ∀ c ∈ start ++ target.1, isOrdinary c = true := fun c hc =>
      (List.mem_append.1 hc).elim (hstart c) (hname c)
    have hpass := pass_append_bare target.2 hordinary
    rw [← hfront] at hpass
    exact hpass

/-- Without loops, a text is the statement that the machine finds and the text behind it. -/
theorem LoopFree.reach_append {s : Text} (h : LoopFree s) (hescapes : escapesBehindQuoted s = false) :
    s = reach s ++ (readForm s).2 := by
  rw [h.readForm_snd]
  cases hassign : assignmentText? s with
  | none =>
    have hbehind : behindQuoted? s = none := by
      unfold behindQuoted?
      rw [hassign]
      rfl
    unfold reach
    rw [hbehind]
    exact pass_append_command s
  | some t =>
    obtain ⟨start, hs, hstart⟩ := assignmentText?_eq_some hassign
    rw [Option.bind_some]
    by_cases ht : ∃ v, t = '"' :: v
    · obtain ⟨v, rfl⟩ := ht
      have hbehind : behindQuoted? s = behindClosing? v := by
        unfold behindQuoted?
        rw [hassign]
        rfl
      rw [readAssignment?_quoted]
      exact reach_append_quoted hs hbehind hescapes
    · have ht' : ∀ v, t ≠ '"' :: v := fun v hv => ht ⟨v, hv⟩
      have hbehind : behindQuoted? s = none := by
        unfold behindQuoted?
        rw [hassign]
        simp only [Option.bind_eq_bind, Option.bind_some]
      rw [readAssignment?_bare _ ht']
      exact reach_append_bare hs hstart hbehind

/-- Without loops, the first statement is the one that the machine finds. -/
theorem LoopFree.text_first {s : Text} (h : LoopFree s) (hescapes : escapesBehindQuoted s = false) :
    (Statement.first s).text = reach s :=
  text_first_of_append (h.reach_append hescapes)

/-! ## All statements -/

def texts (script : Script) : Text × List (Separator × Text) :=
  (script.head.text, script.tail.map fun next => (next.1, next.2.text))

theorem readTail_eq_separators {s : Text} (h : LoopFree s)
    (hescapes : ∀ t ∈ starts reach s, escapesBehindQuoted t = false) :
    (readTail (s.drop (reach s).length)).map (fun next => (next.1, next.2.text)) =
      (separators reach s).map fun next => (next.1, reach next.2) := by
  unfold starts at hescapes
  fun_induction separators reach s with
  | case1 s hdrop =>
    rw [hdrop, readTail]
    rfl
  | case2 s c t hdrop hnone =>
    rw [hdrop, readTail, hnone]
    rfl
  | case3 s c t hdrop separator width hsome ih =>
    have hsuffix : t.drop width <:+ s := by
      refine (List.drop_suffix width t).trans ((List.suffix_cons c t).trans ?_)
      rw [← hdrop]
      exact List.drop_suffix _ s
    have hloop : LoopFree (t.drop width) := h.of_suffix hsuffix
    have hrest : ∀ u ∈ t.drop width :: (separators reach (t.drop width)).map Prod.snd,
        escapesBehindQuoted u = false := by
      intro u hu
      exact hescapes u (List.mem_cons_of_mem _ hu)
    have hfirst := hloop.text_first (hrest _ List.mem_cons_self)
    rw [hdrop, readTail, hsome]
    simp only [List.map_cons, hfirst]
    rw [ih hloop hrest]

/--
Without loops, and where no caret behind a quoted assignment makes a separator ordinary, the
statements of a script are those that the machine finds.
-/
theorem read_eq_split {s : Text} (hloop : LoopFree s)
    (hescapes : ∀ t ∈ starts reach s, escapesBehindQuoted t = false) :
    texts (read s) = split reach s := by
  unfold texts read split
  dsimp only
  rw [hloop.text_first (hescapes s List.mem_cons_self), readTail_eq_separators hloop hescapes]

/-- Two assignments and two commands, with separators in quotes and behind a caret. -/
def mixed : Text :=
  "set \"A=1&2\" ^^ || echo ^& \"a|b\"\nset B=3^|4&%A%".toList

theorem read_eq_split_mixed :
    LoopFree mixed ∧ (∀ t ∈ starts reach mixed, escapesBehindQuoted t = false) ∧
    texts (read mixed) =
      ("set \"A=1&2\" ^^ ".toList, [(.or, " echo ^& \"a|b\"".toList),
        (.newline, "set B=3^|4".toList), (.sequence, "%A%".toList)]) := by
  have hloop : LoopFree mixed := by
    unfold LoopFree
    decide +kernel
  have hescapes : ∀ t ∈ starts reach mixed, escapesBehindQuoted t = false := by decide +kernel
  refine ⟨hloop, hescapes, (read_eq_split hloop hescapes).trans ?_⟩
  decide +kernel

/-- A machine that knows no quoted assignments ends one at a line break between its quotes. -/
theorem read_ne_split_break :
    texts (read "set \"A=1\n2\"".toList) ≠ split Mode.plain.pass "set \"A=1\n2\"".toList := by
  decide +kernel

end Unmask.Script
