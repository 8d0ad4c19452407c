import Unmask.Proofs.Leads
import Unmask.Proofs.Rests

/-!
# What makes a statement a command

A statement without percent signs is a command unless it opens an assignment: a lead, the keyword,
blanks and a name in front of an equals sign.  If a quote stands in front of the name, the assignment
is complete only if another quote follows anywhere.  How an assignment opens does not depend on what
follows its equals sign.

    opening?_eq_some         what stands in front of an equals sign opens an assignment by itself
    SetsNothing.first_eq     what sets nothing is a command
    setsNothing_of_kind      and the other way round
    SetsNothing.of_append    what follows a text does not make it a command
-/

namespace Unmask.Script

/-! ## Openings -/

theorem dropKeyword?_append {keyword : String} {start : Text}
    (h : Text.asciiLower start = Text.asciiLower keyword.toList) (s : Text) :
    dropKeyword? keyword (start ++ s) = some s := by
  unfold dropKeyword?
  generalize keyword.toList = pattern at h
  induction pattern generalizing start with
  | nil =>
    obtain rfl : start = [] := List.map_eq_nil_iff.1 h
    rfl
  | cons a pattern ih =>
    cases start with
    | nil => cases h
    | cons c start =>
      obtain ⟨hc, hstart⟩ := List.cons.inj h
      rw [List.cons_append, Text.dropMatch?, if_pos (beq_iff_eq.2 hc.symm), ih hstart]

theorem dropBlanks?_append {blanks s : Text} (hne : blanks ≠ [])
    (hblanks : ∀ c ∈ blanks, Text.isBlank c = true) (hs : ∀ c ∈ s.head?, Text.isBlank c = false) :
    dropBlanks? (blanks ++ s) = some s := by
  have hdrop : (blanks ++ s).dropWhile Text.isBlank = s := by
    rw [List.dropWhile_append_of_pos hblanks]
    cases s with
    | nil => rfl
    | cons c s => exact List.dropWhile_cons_of_neg (by simp [hs c rfl])
  unfold dropBlanks?
  rw [hdrop]
  cases blanks with
  | nil => exact absurd rfl hne
  | cons c blanks =>
    have hc : ((c :: blanks ++ s).head?.any Text.isBlank) = true := hblanks c List.mem_cons_self
    rw [if_pos hc]

/-- In front of a blank there is always a lead. -/
theorem lead_blank_ne_nil {blank : Char} (h : Text.isBlank blank = true) (s : Text) :
    lead (blank :: s) ≠ [] := by
  have hfirst : LeadItem.first? blank s = some (.mark blank) := if_pos (by rw [h]; rfl)
  rw [lead, hfirst]
  exact List.cons_ne_nil _ _

/-- The lead and the keyword of an assignment are found whatever stands behind the blanks. -/
theorem assignmentText?_eq_append {s t : Text} (h : assignmentText? s = some t) :
    ∃ start, s = start ++ t ∧ (∀ c ∈ start, isOrdinary c = true) ∧
      ∀ t' : Text, (∀ c ∈ t'.head?, Text.isBlank c = false) →
        assignmentText? (start ++ t') = some t' := by
  obtain ⟨start, hs, hordinary⟩ := assignmentText?_eq_some h
  obtain ⟨u, hkeyword, hblanks⟩ := Option.bind_eq_some_iff.1 h
  obtain ⟨keyword, hdrop, hlower⟩ := dropKeyword?_eq_some hkeyword
  obtain ⟨blank, blanks, rfl, hblank⟩ := dropBlanks?_eq_cons hblanks
  obtain ⟨front, hfront⟩ : ∃ front, leadText (lead s) = front := ⟨_, rfl⟩
  have hsame : front ++ keyword ++ blank :: (blanks ++ t) = s := by
    rw [← List.prefix_iff_eq_append.1 (leadText_isPrefix s).1, hdrop, hfront, List.append_assoc,
      List.cons_append]
  have hstart : start = front ++ keyword ++ blank :: blanks := by
    have hboth : start ++ t = front ++ keyword ++ blank :: blanks ++ t := by
      rw [← hs, ← hsame, List.append_assoc (front ++ keyword), List.cons_append]
    exact List.append_cancel_right hboth
  refine ⟨start, hs, hordinary, fun t' ht' => ?_⟩
  -- the border is the first blank behind the keyword
  have halike := LeadItem.endsAlike_blank (hblank blank List.mem_cons_self) (blanks ++ t)
    (blanks ++ t')
  have hends : leadText (lead (front ++ keyword ++ blank :: (blanks ++ t))) <+: front ++ keyword := by
    rw [hsame, hfront]
    exact List.prefix_append _ _
  have hlead := lead_append_congr halike
    (fun hnil => absurd hnil (lead_blank_ne_nil (hblank blank List.mem_cons_self) _)) hends
  rw [hsame] at hlead
  have hwhole : start ++ t' = front ++ keyword ++ blank :: (blanks ++ t') := by
    rw [hstart, List.append_assoc, List.cons_append]
  unfold assignmentText?
  rw [hwhole, hlead, hfront, List.append_assoc, List.drop_left, dropKeyword?_append hlower,
    Option.bind_some, ← List.cons_append, dropBlanks?_append (List.cons_ne_nil _ _) hblank ht']

/-- A name is found whatever stands behind its equals sign. -/
theorem readTarget?_eq_append {s name rest : Text} (h : readTarget? s = some (name, rest)) :
    (∃ c name', name = c :: name' ∧ isTargetChar c = true ∧ Text.isBlank c = false) ∧
      ∀ z, readTarget? (name ++ '=' :: z) = some (name, z) := by
  unfold readTarget? at h
  dsimp only at h
  split at h
  · next hhead =>
    split at h
    · next rest' hdrop =>
      obtain ⟨hname, -⟩ := Prod.mk.inj (Option.some.inj h)
      have hchars : ∀ c ∈ name, isTargetChar c = true := by
        rw [← hname]
        exact fun c hc => List.mem_takeWhile_imp hc
      rw [hname] at hhead
      refine ⟨?_, fun z => ?_⟩
      · cases name with
        | nil => cases hhead
        | cons c name =>
          have hblank : (c != '/' && !Text.isBlank c) = true := hhead
          simp only [Bool.and_eq_true, Bool.not_eq_true'] at hblank
          exact ⟨c, name, rfl, hchars c List.mem_cons_self, hblank.2⟩
      · have htake : (name ++ '=' :: z).takeWhile isTargetChar = name := by
          rw [LeadItem.takeWhile_append_border fun c hc => Option.some.inj hc ▸ rfl]
          exact List.takeWhile_eq_self_iff.2 hchars
        unfold readTarget?
        dsimp only
        rw [htake, if_pos hhead, List.drop_left]
        rfl
    · cases h
  · cases h

/-- Whether a quote stands in front of a name, and what follows the equals sign behind it. -/
def openTarget? : Text → Option (Bool × Text)
  | '"' :: t => (readTarget? t).map fun target => (true, target.2)
  | t => (readTarget? t).map fun target => (false, target.2)

theorem openTarget?_bare {t : Text} (ht : ∀ t', t ≠ '"' :: t') :
    openTarget? t = (readTarget? t).map fun target => (false, target.2) := by
  unfold openTarget?
  split
  · next t' => exact absurd rfl (ht t')
  · rfl

/-- The head of an assignment: whether it has quotes, and what follows its equals sign. -/
def opening? (s : Text) : Option (Bool × Text) :=
  (assignmentText? s).bind openTarget?

/-- What stands in front of an equals sign opens an assignment whatever follows. -/
theorem opening?_eq_some {s rest : Text} {quoted : Bool} (h : opening? s = some (quoted, rest)) :
    ∃ start, s = start ++ '=' :: rest ∧ (∀ c ∈ start, Separator.isStart c = false) ∧
      ∀ z, opening? (start ++ '=' :: z) = some (quoted, z) := by
  obtain ⟨t, hassign, h'⟩ := Option.bind_eq_some_iff.1 h
  obtain ⟨start, rfl, hordinary, happend⟩ := assignmentText?_eq_append hassign
  have hstart : ∀ {c : Char}, isOrdinary c = true → Separator.isStart c = false := by
    intro c hc
    unfold isOrdinary at hc
    simp only [Bool.not_eq_true', Bool.or_eq_false_iff] at hc
    exact hc.2
  by_cases ht : ∃ t', t = '"' :: t'
  · obtain ⟨t, rfl⟩ := ht
    obtain ⟨⟨name, rest'⟩, htarget, he⟩ := Option.map_eq_some_iff.1 h'
    cases he
    obtain ⟨rfl, hname⟩ := readTarget?_eq_some htarget
    have hagain := (readTarget?_eq_append htarget).2
    refine ⟨start ++ '"' :: name, ?_, fun c hc => ?_, fun z => ?_⟩
    · rw [List.append_assoc, List.cons_append]
    · rcases List.mem_append.1 hc with hc | hc
      · exact hstart (hordinary c hc)
      · rcases List.mem_cons.1 hc with rfl | hc
        · rfl
        · exact hstart (hname c hc)
    · unfold opening?
      rw [List.append_assoc, List.cons_append, happend ('"' :: _) fun c hc => by cases hc; rfl,
        Option.bind_some, openTarget?, hagain]
      rfl
  · have hbare : ∀ t', t ≠ '"' :: t' := fun t' he => ht ⟨t', he⟩
    rw [openTarget?_bare hbare] at h'
    obtain ⟨⟨name, rest'⟩, htarget, he⟩ := Option.map_eq_some_iff.1 h'
    cases he
    obtain ⟨rfl, hname⟩ := readTarget?_eq_some htarget
    obtain ⟨⟨d, name', rfl, htargetChar, hblank⟩, hagain⟩ := readTarget?_eq_append htarget
    refine ⟨start ++ d :: name', ?_, fun c hc => ?_, fun z => ?_⟩
    · rw [List.append_assoc]
    · exact hstart ((List.mem_append.1 hc).elim (hordinary c) (hname c))
    · have hbare' : ∀ t', d :: name' ++ '=' :: z ≠ '"' :: t' := by
        intro t' he
        obtain rfl : d = '"' := (List.cons.inj he).1
        cases htargetChar
      unfold opening?
      rw [List.append_assoc, happend (d :: name' ++ _) fun c hc => by cases hc; exact hblank,
        Option.bind_some, openTarget?_bare hbare', hagain]
      rfl

/-- In front of an assignment a blank does not count. -/
theorem opening?_blank {blank : Char} (hblank : Text.isBlank blank = true) (s : Text) :
    opening? (blank :: s) = opening? s := by
  have hfirst : LeadItem.first? blank s = some (.mark blank) := if_pos (by rw [hblank]; rfl)
  have hlead : lead (blank :: s) = .mark blank :: lead s := by
    rw [lead, hfirst]
    rfl
  have htext : assignmentText? (blank :: s) = assignmentText? s := by
    unfold assignmentText?
    rw [hlead]
    rfl
  unfold opening?
  rw [htext]

/-! ## Commands -/

/-- The statement at the head of a text sets no variable. -/
def SetsNothing (s : Text) : Prop :=
  ∀ quoted rest, opening? s = some (quoted, rest) → quoted = true ∧ '"' ∉ rest

/-- A closing quote is found as soon as there is a quote, as the last one closes. -/
theorem splitClosing?_eq_none_iff {s : Text} : splitClosing? s = none ↔ '"' ∉ s := by
  constructor
  · intro h
    induction s with
    | nil => exact List.not_mem_nil
    | cons c s ih =>
      rw [splitClosing?] at h
      split at h
      · cases h
      · next hc =>
        have hs := ih (Option.map_eq_none_iff.1 h)
        rintro hmem
        obtain rfl : '"' = c := (List.mem_cons.1 hmem).resolve_right hs
        refine hc ⟨rfl, ?_⟩
        unfold closes
        rw [Option.all_eq_true]
        intro d hd
        have hsuffix := List.dropWhile_suffix (fun c => c != '"' && !Separator.isStart c) (l := s)
        exact bne_iff_ne.2 fun he => hs (he ▸ hsuffix.mem (List.mem_of_mem_head? hd))
  · intro h
    cases hsplit : splitClosing? s with
    | none => rfl
    | some found =>
      obtain ⟨value, rest⟩ := found
      rw [(splitClosing?_eq_some hsplit).1] at h
      exact absurd (List.mem_append_right _ List.mem_cons_self) h

theorem readAssignment?_eq_none_iff (grouped : Bool) (s : Text) :
    (assignmentText? s).bind (readAssignment? grouped) = none ↔ SetsNothing s := by
  unfold SetsNothing opening?
  cases assignmentText? s with
  | none => simp
  | some t =>
    rw [Option.bind_some, Option.bind_some]
    by_cases ht : ∃ t', t = '"' :: t'
    · obtain ⟨t, rfl⟩ := ht
      simp only [readAssignment?, openTarget?]
      cases readTarget? t with
      | none => simp
      | some target =>
        have hclosing := splitClosing?_eq_none_iff (s := target.2)
        cases hsplit : splitClosing? target.2 with
        | none => simpa [hsplit] using hclosing
        | some closing => simpa [hsplit] using hclosing
    · have ht' : ∀ t', t ≠ '"' :: t' := fun t' he => ht ⟨t', he⟩
      rw [readAssignment?_unquoted grouped ht', openTarget?_bare ht']
      cases readTarget? t with
      | none => simp
      | some target => simp

theorem readAssignment?_form {grouped : Bool} {s : Text} {found : Form × Text}
    (h : readAssignment? grouped s = some found) :
    ∃ name value, found.1 = .assignment name value := by
  unfold readAssignment? at h
  split at h
  · obtain ⟨target, -, h⟩ := Option.bind_eq_some_iff.1 h
    obtain ⟨closing, -, h⟩ := Option.bind_eq_some_iff.1 h
    cases h
    exact ⟨_, _, rfl⟩
  · obtain ⟨target, -, h⟩ := Option.bind_eq_some_iff.1 h
    cases h
    exact ⟨_, _, rfl⟩

/-- Without percent signs nothing is a loop. -/
theorem readLoop?_eq_none {grouped : Bool} {s : Text} (h : '%' ∉ s) : readLoop? grouped s = none := by
  have hvariable : readVariable? s = none := by
    unfold readVariable?
    split
    · exact absurd List.mem_cons_self h
    · exact absurd List.mem_cons_self h
    · rfl
  rw [readLoop?_eq, hvariable]
  rfl

section

variable {s : Text} (hpercent : '%' ∉ s)

include hpercent

theorem loopForm_eq_none : ((dropKeyword? "for" (s.drop (leadText (lead s)).length)).bind
    dropBlanks?).bind (readLoop? (isGrouped (lead s))) = none := by
  refine Option.bind_eq_none_iff.2 fun t ht => readLoop?_eq_none fun hmem => hpercent ?_
  obtain ⟨u, hu, hblanks⟩ := Option.bind_eq_some_iff.1 ht
  exact ((dropBlanks?_isSuffix hblanks).trans
    ((dropKeyword?_isSuffix hu).trans (List.drop_suffix _ s))).mem hmem

theorem readForm_eq_getD : readForm s =
    ((assignmentText? s).bind (readAssignment? (isGrouped (lead s)))).getD
      (.command, s.drop (takeBody false s).length) := by
  unfold readForm
  dsimp only
  rw [loopForm_eq_none hpercent]
  rfl

theorem SetsNothing.readForm_eq (h : SetsNothing s) :
    readForm s = (.command, s.drop (takeBody false s).length) := by
  rw [readForm_eq_getD hpercent, (readAssignment?_eq_none_iff _ s).2 h]
  rfl

theorem SetsNothing.first_eq (h : SetsNothing s) : Statement.first s = ⟨Mode.plain.pass s, .command⟩ := by
  have hform := h.readForm_eq hpercent
  have htext : (Statement.first s).text = Mode.plain.pass s := by
    refine text_first_of_append ?_
    rw [hform]
    exact pass_append_command s
  have hkind : (Statement.first s).kind = .command := by
    rw [kind_first, hform]
    rfl
  rw [← htext, ← hkind]

/-- A command sets nothing. -/
theorem setsNothing_of_kind (h : (Statement.first s).kind = .command) : SetsNothing s := by
  rw [← readAssignment?_eq_none_iff (isGrouped (lead s))]
  rw [kind_first, readForm_eq_getD hpercent] at h
  cases hread : (assignmentText? s).bind (readAssignment? (isGrouped (lead s))) with
  | none => rfl
  | some found =>
    obtain ⟨t, -, hfound⟩ := Option.bind_eq_some_iff.1 hread
    obtain ⟨name, value, hform⟩ := readAssignment?_form hfound
    rw [hread, Option.getD_some, hform] at h
    cases h

end

theorem SetsNothing.of_append {s t : Text} (h : SetsNothing (s ++ t)) : SetsNothing s := by
  intro quoted rest hopening
  obtain ⟨start, rfl, -, happend⟩ := opening?_eq_some hopening
  rw [List.append_assoc, List.cons_append] at h
  obtain ⟨hquoted, hrest⟩ := h quoted (rest ++ t) (happend _)
  exact ⟨hquoted, fun hmem => hrest (List.mem_append_left t hmem)⟩

/-- Behind a separator stand other statements, which may only close quotes. -/
theorem SetsNothing.append_written {s t : Text} (h : SetsNothing (s ++ t)) (separator : Separator)
    {u : Text} (hquote : '"' ∈ u → '"' ∈ t) : SetsNothing (s ++ (separator.written ++ u)) := by
  intro quoted rest hopening
  obtain ⟨start, hstart, hclass, happend⟩ := opening?_eq_some hopening
  -- the opening ends with an equals sign and holds no separator, so it ends in front of this one
  have hends : start ++ ['='] <+: s := by
    have hopens : start ++ ['='] <+: s ++ (separator.written ++ u) :=
      ⟨rest, by rw [hstart, List.append_assoc, List.singleton_append]⟩
    have hnot : ∀ {c : Char}, Separator.isStart c = true → c ∉ start ++ ['='] := by
      intro c hc hmem
      rcases List.mem_append.1 hmem with hmem | hmem
      · rw [hclass c hmem] at hc
        cases hc
      · rw [List.mem_singleton.1 hmem] at hc
        cases hc
    have hblank : ∀ {c : Char} {v : Text}, Separator.isStart c = true →
        start ++ ['='] <+: s ++ ' ' :: c :: v → start ++ ['='] <+: s := by
      intro c v hc hopens
      have hopens' : start ++ ['='] <+: (s ++ [' ']) ++ c :: v := by
        rw [List.append_assoc]
        exact hopens
      rcases List.prefix_concat_iff.1 (Text.isPrefix_of_notMem hopens' (hnot hc)) with he | hends
      · cases List.append_inj_right' he rfl
      · exact hends
    cases separator with
    | newline => exact Text.isPrefix_of_notMem (c := '\n') hopens (hnot rfl)
    | sequence | and | or | pipe => exact hblank rfl hopens
  obtain ⟨t', rfl⟩ := hends
  simp only [List.append_assoc, List.singleton_append] at h hstart
  obtain rfl := (List.cons.inj (List.append_cancel_left hstart)).2
  obtain ⟨hquoted, hrest⟩ := h quoted (t' ++ t) (happend _)
  refine ⟨hquoted, fun hmem => hrest ?_⟩
  rcases List.mem_append.1 hmem with hmem | hmem
  · exact List.mem_append_left t hmem
  · refine List.mem_append_right t' (hquote ((List.mem_append.1 hmem).resolve_left fun hw => ?_))
    cases separator <;> exact absurd hw (by decide)

end Unmask.Script
