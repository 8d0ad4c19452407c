import Unmask.Proofs.NameCycles
import Unmask.Proofs.Runs
import Unmask.Proofs.Splitting

/-!
# Defining a name and using it

A line sets a variable to a value in quotes, and the next line writes what the variable stands for.
Whatever the value is, as long as it holds no double quote and no percent sign, the output is the
second line with the value in it: the value goes unchanged through the quotes that it is read from,
the table, the expansion and the second reading of what came out.

    read_setLine_echoLine      the two lines are an assignment and a command
    expand_around              a site expands to its value, between what stands around it
    reveal_setLine_echoLine    the whole run
-/

namespace Unmask

/-! ## Texts that stay as they are -/

namespace Text

theorem dropWhile_eq_self {p : Char → Bool} {s : Text} (h : ∀ c ∈ s.head?, p c = false) :
    s.dropWhile p = s := by
  cases s with
  | nil => rfl
  | cons c s => exact List.dropWhile_cons_of_neg (by simp [h c rfl])

theorem trim_eq_self {s : Text} (hhead : ∀ c ∈ s.head?, isSpace c = false)
    (hlast : ∀ c ∈ s.getLast?, isSpace c = false) : trim s = s := by
  have hlast' : ∀ c ∈ s.reverse.head?, isSpace c = false := by
    rwa [List.head?_reverse]
  rw [trim, trimStart, dropWhile_eq_self hhead, trimEnd, dropWhile_eq_self hlast',
    List.reverse_reverse]

theorem trimEnd_concat {c : Char} (hc : isSpace c = false) (s : Text) :
    trimEnd (s ++ [c]) = s ++ [c] := by
  rw [trimEnd, List.reverse_concat, List.dropWhile_cons_of_neg (by simp [hc]), List.reverse_cons,
    List.reverse_reverse]

end Text

theorem Template.read_plain {d : Dialect} {text : Text} (hne : text ≠ [])
    (htext : ∀ c ∈ text, isMark d c = false) : read d text = .ok [⟨text, .literal text⟩] := by
  have hcut := Fragment.cut_plain_append hne htext (s := []) fun c hc => by cases hc
  rw [List.append_nil, Fragment.cut] at hcut
  rw [read, hcut]
  rfl

/-! ## A site between other text -/

namespace Expansion.Scope

open Template (isMark)

variable {scope : Scope} {text before after value : Text}

theorem expandPiecesWith_plain {descend : Descent} {chain : Chain} {budget : Nat}
    (hsize : Text.byteLength text ≤ budget) (memory : Memory) :
    scope.expandPiecesWith descend chain budget [⟨text, .literal text⟩] memory =
      .ok (.literal text, memory) := by
  have hhead : scope.expandPieceWith descend chain ⟨text, .literal text⟩ memory =
      .ok (.literal text, memory) := rfl
  rw [expandPiecesWith_cons hhead hsize rfl, append_literal_nil]

/-- A text without marks expands to itself. -/
theorem descend_plain (htext : ∀ c ∈ text, isMark scope.dialect c = false)
    (hsize : Text.byteLength text ≤ limit) (depth : Nat) (chain : Chain) (memory : Memory) :
    scope.descend (depth + 1) chain text memory = .ok (.literal text, memory) := by
  by_cases hne : text = []
  · subst hne
    simp only [descend, Template.read, Template.Fragment.cut]
    rfl
  · simp only [descend, Template.read_plain hne htext, bind, Except.bind]
    exact expandPiecesWith_plain hsize memory

theorem read_between {d : Dialect} (l : Link d) (hbefore : before ≠ []) (hafter : after ≠ [])
    (hplain : ∀ c ∈ before ++ after, isMark d c = false) :
    Template.read d (before ++ l.token ++ after) =
      .ok [⟨before, .literal before⟩, ⟨l.token, .reference ⟨l.name, .whole⟩⟩,
        ⟨after, .literal after⟩] := by
  have hcut : Template.Fragment.cut d (before ++ l.token ++ after) =
      [.plain before, .site l.mark l.name none, .plain after] := by
    have hbefore' := Template.Fragment.cut_plain_append hbefore
      (fun c hc => hplain c (List.mem_append_left _ hc)) (s := l.token ++ after)
      fun c hc => Option.some.inj hc ▸ l.named.1
    have hafter' := Template.Fragment.cut_plain_append hafter
      (fun c hc => hplain c (List.mem_append_right _ hc)) (s := []) fun c hc => by cases hc
    have hsite := Template.Fragment.cut_bare_append l.named after
    rw [List.append_nil, Template.Fragment.cut] at hafter'
    rw [List.append_assoc, hbefore', Link.token, List.append_assoc, List.singleton_append, hsite,
      hafter']
  rw [Template.read, hcut]
  rfl

/-- The site of a name with one value stands for that value. -/
theorem expandPieceWith_plain (l : Link scope.dialect)
    (hvalues : scope.definitions.valuesOf l.key = [value])
    (hvalue : ∀ c ∈ value, isMark scope.dialect c = false)
    (hsize : Text.byteLength value ≤ limit) (depth : Nat) :
    scope.expandPieceWith (scope.descend (depth + 1)) [] ⟨l.token, .reference ⟨l.name, .whole⟩⟩
        .empty =
      .ok (.literal value, Memory.empty.keep l.generation ⟨value, false⟩) :=
  resolveWith_enter l.token .empty (find_only scope.unknownNames hvalues rfl) rfl
    (descend_plain hvalue hsize depth [l.generation] .empty)

/-- Text around a site stays around what the site stands for. -/
theorem expand_around {memory memory' : Memory} (l : Link scope.dialect)
    (hsite : scope.expandPieceWith (scope.descend scope.definitions.total) []
      ⟨l.token, .reference ⟨l.name, .whole⟩⟩ memory = .ok (.literal value, memory'))
    (hbefore : before ≠ []) (hafter : after ≠ [])
    (hplain : ∀ c ∈ before ++ after, isMark scope.dialect c = false)
    (hsize : Text.byteLength (before ++ value ++ after) ≤ limit) :
    scope.expand (before ++ l.token ++ after) memory =
      .ok (⟨before ++ value ++ after, false⟩, memory') := by
  simp only [Text.byteLength_append] at hsize
  -- from the last piece to the first, each within what those in front of it leave
  have hrest : scope.expandPiecesWith (scope.descend scope.definitions.total) []
      (limit - Text.byteLength before)
      [⟨l.token, .reference ⟨l.name, .whole⟩⟩, ⟨after, .literal after⟩] memory =
        .ok (⟨⟨value ++ after, false⟩, []⟩, memory') :=
    expandPiecesWith_cons hsite
      (show Text.byteLength value ≤ limit - Text.byteLength before by omega)
      (expandPiecesWith_plain (show Text.byteLength after ≤
        limit - Text.byteLength before - Text.byteLength value by omega) _)
  have hfirst : scope.expandPieceWith (scope.descend scope.definitions.total) []
      ⟨before, .literal before⟩ memory = .ok (.literal before, memory) := rfl
  have hall : scope.expandPiecesWith (scope.descend scope.definitions.total) [] limit
      [⟨before, .literal before⟩, ⟨l.token, .reference ⟨l.name, .whole⟩⟩, ⟨after, .literal after⟩]
      memory = .ok (⟨⟨before ++ (value ++ after), false⟩, []⟩, memory') :=
    expandPiecesWith_cons hfirst (show Text.byteLength before ≤ limit by omega) hrest
  simp only [expand, expandTemplate, read_between l hbefore hafter hplain, bind, Except.bind]
  rw [hall, List.append_assoc]
  rfl

/-- It expands to the value, between what stands around it. -/
theorem expand_between (scope : Scope) (l : Link scope.dialect)
    (hvalues : scope.definitions.valuesOf l.key = [value]) (htotal : scope.definitions.total ≠ 0)
    (hbefore : before ≠ []) (hafter : after ≠ [])
    (hplain : ∀ c ∈ before ++ value ++ after, isMark scope.dialect c = false)
    (hsize : Text.byteLength (before ++ value ++ after) ≤ limit) :
    scope.expand (before ++ l.token ++ after) .empty =
      .ok (⟨before ++ value ++ after, false⟩, Memory.empty.keep l.generation ⟨value, false⟩) := by
  obtain ⟨depth, hdepth⟩ := Nat.exists_eq_succ_of_ne_zero htotal
  have hvalue : Text.byteLength value ≤ limit := by
    simp only [Text.byteLength_append] at hsize
    omega
  simp only [List.mem_append] at hplain
  have hsite := expandPieceWith_plain l hvalues (fun c hc => hplain c (.inl (.inr hc))) hvalue depth
  rw [← Nat.succ_eq_add_one, ← hdepth] at hsite
  exact expand_around l hsite hbefore hafter
    (fun c hc => hplain c ((List.mem_append.1 hc).imp .inl id)) hsize

end Expansion.Scope

namespace Script

/-! ## The two lines -/

/-- A line that gives a name a value in quotes. -/
def setLine (name value : Text) : Text :=
  "set \"".toList ++ name ++ '=' :: value ++ ['"']

/-- A line that writes a text between brackets. -/
def echoLine (text : Text) : Text :=
  "echo [".toList ++ text ++ [']']

/-- The names that an assignment can give a value to and a site can use. -/
structure Assignable (name : Text) : Prop where
  /-- It is not empty and starts with no digit, `~` or `*`. -/
  isName : Template.isName '%' name = true
  isNameChar : ∀ c ∈ name, Template.isNameChar c = true
  noEquals : '=' ∉ name
  noSlash : name.head? ≠ some '/'

namespace Assignable

variable {name : Text}

theorem named (h : Assignable name) : Template.Fragment.Named .percent '%' name :=
  ⟨rfl, h.isName, h.isNameChar⟩

theorem isTargetChar (h : Assignable name) : ∀ c ∈ name, isTargetChar c = true := by
  intro c hc
  have hordinary : isOrdinary c = true :=
    isOrdinary_of_class Template.isNameChar (by decide) (h.isNameChar c hc)
  have hequals : c ≠ '=' := fun e => h.noEquals (e ▸ hc)
  unfold isOrdinary at hordinary
  simpa [Script.isTargetChar, hequals] using hordinary

theorem isSpace (h : Assignable name) : ∀ c ∈ name, Text.isSpace c = false := by
  intro c hc
  have hchar := h.isNameChar c hc
  unfold Template.isNameChar at hchar
  simp only [Bool.not_eq_true', Bool.or_eq_false_iff] at hchar
  simp only [hchar]

theorem trim (h : Assignable name) : Text.trim name = name :=
  Text.trim_eq_self (fun c hc => h.isSpace c (List.mem_of_mem_head? hc))
    fun c hc => h.isSpace c (List.mem_of_mem_getLast? hc)

end Assignable

theorem readTarget?_append {name : Text} (h : Assignable name) (s : Text) :
    readTarget? (name ++ '=' :: s) = some (name, s) := by
  have htake := (Template.Fragment.takeWhile_append_mark h.isTargetChar
    (by decide : isTargetChar '=' = false) s).1
  have hhead : (name.head?.any fun c => c != '/' && !Text.isBlank c) = true := by
    cases name with
    | nil => exact absurd h.isName (by decide)
    | cons c name =>
      have hslash : c ≠ '/' := fun e => h.noSlash (congrArg some e)
      have hblank : Text.isBlank c = false := by
        refine Bool.eq_false_iff.2 fun hc => ?_
        simp only [Text.isBlank, Bool.or_eq_true, beq_iff_eq] at hc
        have hspace := h.isSpace c List.mem_cons_self
        rcases hc with rfl | rfl <;> exact absurd hspace (by decide)
      simp [hslash, hblank]
  simp only [readTarget?, htake, hhead, if_true, List.drop_left]

/-- A value without quotes ends at the quote behind it, if no other quote follows in the statement. -/
theorem splitClosing?_append {value rest : Text} (hvalue : '"' ∉ value)
    (hcloses : closes rest = true) :
    splitClosing? (value ++ '"' :: rest) = some (value, rest) := by
  induction value with
  | nil => rw [List.nil_append, splitClosing?, if_pos ⟨rfl, hcloses⟩]
  | cons c value ih =>
    rw [List.mem_cons, not_or] at hvalue
    rw [List.cons_append, splitClosing?, if_neg fun h => hvalue.1 h.1.symm, ih hvalue.2]
    rfl

theorem closes_of_isStart {s : Text} (h : ∀ c ∈ s.head?, Separator.isStart c = true) :
    closes s = true := by
  unfold closes
  rw [Text.dropWhile_eq_self fun c hc => by simp [h c hc]]
  cases s with
  | nil => rfl
  | cons c s =>
    have hc : c ≠ '"' := by
      rintro rfl
      exact absurd (h '"' rfl) (by decide)
    simp [hc]

theorem lead_eq_nil {c : Char} {s : Text} (h : LeadItem.first? c s = none) : lead (c :: s) = [] := by
  rw [lead, h]

theorem readForm_setLine {name value rest : Text} (hname : Assignable name)
    (hvalue : '"' ∉ value) (hrest : ∀ c ∈ rest.head?, Separator.isStart c = true) :
    readForm (setLine name value ++ rest) = (.assignment name value, rest) := by
  -- the first word says that there is no lead and which keyword it is
  have hlead : lead (setLine name value ++ rest) = [] :=
    lead_eq_nil (c := 's') (s := "et \"".toList ++ name ++ '=' :: value ++ ['"'] ++ rest) rfl
  have hfor : dropKeyword? "for" (setLine name value ++ rest) = none := rfl
  have hset : (dropKeyword? "set" (setLine name value ++ rest)).bind dropBlanks? =
      some ('"' :: (name ++ '=' :: value ++ ['"'] ++ rest)) := rfl
  have hread : readAssignment? false ('"' :: (name ++ '=' :: value ++ ['"'] ++ rest)) =
      some (.assignment name value, rest) := by
    have htarget := readTarget?_append hname (value ++ '"' :: rest)
    have hclosing := splitClosing?_append hvalue (closes_of_isStart hrest)
    have htail : rest.dropWhile (fun c => !Separator.isStart c) = rest :=
      Text.dropWhile_eq_self fun c hc => by simp [hrest c hc]
    simp only [List.append_assoc, List.cons_append, List.nil_append, readAssignment?, htarget,
      hclosing, htail, hname.trim, bind, Option.bind, pure]
  unfold readForm
  simp only [hlead, hfor, leadText, List.flatMap_nil, List.length_nil, List.drop_zero, hset,
    Option.bind_none, Option.bind_some]
  rw [show isGrouped [] = false from rfl, hread]
  rfl

theorem readForm_echoLine (text : Text) :
    readForm (echoLine text) =
      (.command, (echoLine text).drop (takeBody false (echoLine text)).length) := by
  have hlead : lead (echoLine text) = [] :=
    lead_eq_nil (c := 'e') (s := "cho [".toList ++ text ++ [']']) rfl
  have hfor : dropKeyword? "for" (echoLine text) = none := rfl
  have hset : dropKeyword? "set" (echoLine text) = none := rfl
  unfold readForm
  simp only [hlead, leadText, List.flatMap_nil, List.length_nil, List.drop_zero, hfor, hset,
    Option.bind_none]
  rfl

theorem first_of_readForm {s text rest : Text} {form : Form} (hs : s = text ++ rest)
    (h : readForm s = (form, rest)) : Statement.first s = ⟨text, form.kind⟩ := by
  have htext : (Statement.first s).text = text := text_first_of_append (by rw [h]; exact hs)
  have hkind := kind_first s
  rw [h] at hkind
  change (Statement.first s) = ⟨text, form.kind⟩
  rw [← hkind, ← htext]

/-- A text without quotes, carets and separators is one statement to its end. -/
theorem takeBody_eq_self {s : Text} (h : ∀ c ∈ s, isOrdinary c = true ∧ c ≠ '^') :
    takeBody false s = s := by
  rw [takeBody_eq_pass, if_neg Bool.false_ne_true]
  induction s with
  | nil => rfl
  | cons c s ih =>
    obtain ⟨hordinary, hcaret⟩ := h c List.mem_cons_self
    unfold isOrdinary at hordinary
    obtain ⟨hquote, hstart⟩ : c ≠ '"' ∧ Separator.isStart c = false := by simpa using hordinary
    rw [Mode.pass, Mode.stops, hstart, if_neg Bool.false_ne_true, Mode.next, if_neg hquote,
      if_neg hcaret, ih fun a ha => h a (List.mem_cons_of_mem _ ha)]

theorem forall_mem_echoLine {p : Char → Prop} [DecidablePred p] {text : Text}
    (hframe : ("echo []".toList.all fun c => p c) = true) (htext : ∀ c ∈ text, p c) :
    ∀ c ∈ echoLine text, p c := by
  have hframe' : ∀ c ∈ "echo []".toList, p c := fun c hc =>
    of_decide_eq_true (List.all_eq_true.1 hframe c hc)
  intro c hc
  change c ∈ "echo [".toList ++ text ++ [']'] at hc
  rw [List.mem_append, List.mem_append] at hc
  rcases hc with (hc | hc) | hc
  · exact hframe' c (List.mem_append_left [']'] hc)
  · exact htext c hc
  · exact hframe' c (List.mem_append_right "echo [".toList hc)

theorem first_echoLine {text : Text} (h : ∀ c ∈ text, isOrdinary c = true ∧ c ≠ '^') :
    Statement.first (echoLine text) = ⟨echoLine text, .command⟩ := by
  have hbody : takeBody false (echoLine text) = echoLine text :=
    takeBody_eq_self (forall_mem_echoLine (by decide) h)
  have hform := readForm_echoLine text
  rw [hbody, List.drop_length] at hform
  exact first_of_readForm (List.append_nil _).symm hform

def lineBreaks : List Text :=
  ["\n".toList, "\r\n".toList, "\r".toList]

theorem mem_lineBreaks {lineBreak : Text} (h : lineBreak ∈ lineBreaks) :
    lineBreak = ['\n'] ∨ lineBreak = ['\r', '\n'] ∨ lineBreak = ['\r'] := by
  simpa [lineBreaks] using h

theorem first_setLine {name value rest : Text} (hname : Assignable name) (hvalue : '"' ∉ value)
    (hrest : ∀ c ∈ rest.head?, Separator.isStart c = true) :
    Statement.first (setLine name value ++ rest) = ⟨setLine name value, .assignment name value⟩ :=
  first_of_readForm rfl (readForm_setLine hname hvalue hrest)

theorem readTail_echoLine {lineBreak text : Text} (hbreak : lineBreak ∈ lineBreaks)
    (h : ∀ c ∈ text, isOrdinary c = true ∧ c ≠ '^') :
    readTail (lineBreak ++ echoLine text) = [(.newline, ⟨echoLine text, .command⟩)] := by
  have hbehind : readTail ((echoLine text).drop (echoLine text).length) = [] := by
    rw [List.drop_length, readTail]
  rcases mem_lineBreaks hbreak with rfl | rfl | rfl
  · rw [List.cons_append, List.nil_append, readTail]
    simp only [Separator.first?, List.drop_zero, first_echoLine h, hbehind]
  · rw [List.cons_append, List.cons_append, List.nil_append, readTail]
    simp only [Separator.first?, List.head?_cons, if_true, List.drop_succ_cons, List.drop_zero,
      first_echoLine h, hbehind]
  · have hhead : (echoLine text).head? ≠ some '\n' := by
      change some 'e' ≠ some '\n'
      decide
    rw [List.cons_append, List.nil_append, readTail]
    simp only [Separator.first?, if_neg hhead, List.drop_zero, first_echoLine h, hbehind]

theorem read_setLine_echoLine {name value lineBreak text : Text} (hname : Assignable name)
    (hvalue : '"' ∉ value) (hbreak : lineBreak ∈ lineBreaks)
    (h : ∀ c ∈ text, isOrdinary c = true ∧ c ≠ '^') :
    read (setLine name value ++ (lineBreak ++ echoLine text)) =
      ⟨⟨setLine name value, .assignment name value⟩, [(.newline, ⟨echoLine text, .command⟩)]⟩ := by
  have hrest : ∀ c ∈ (lineBreak ++ echoLine text).head?, Separator.isStart c = true := by
    intro c hc
    rcases mem_lineBreaks hbreak with rfl | rfl | rfl <;> cases hc <;> rfl
  simp only [read, first_setLine hname hvalue hrest, List.drop_left, readTail_echoLine hbreak h]

/-! ## The run -/

namespace Progress

variable {settings : Settings} {p q : Progress}

theorem facing_of_not_switchesDelayed {statement : Statement}
    (h : statement.switchesDelayed = false) : p.facing statement = p := by
  unfold Statement.switchesDelayed at h
  rw [facing, h, Bool.or_false]

theorem take_assignment {text name value : Text} (hkeep : settings.keepAssignments = false)
    (hswitch : Statement.switchesDelayed ⟨text, .assignment name value⟩ = false) :
    p.take settings ⟨text, .assignment name value⟩ = .ok (p.define (name, value)) := by
  have htake : p.take settings ⟨text, .assignment name value⟩ =
      .ok ((p.facing ⟨text, .assignment name value⟩).define (name, value)) := by
    unfold take
    simp only [hkeep, assign, Kind.definitions, Bool.false_eq_true, if_false, List.foldl_cons,
      List.foldl_nil, pure, Except.pure, facing]
  rw [htake, facing_of_not_switchesDelayed hswitch]

/-- An expansion that notices nothing leaves the run where it stands. -/
theorem expand_of_silent {text value : Text} {memory : Expansion.Memory}
    (h : (p.scope settings).expand text .empty = .ok (⟨value, false⟩, memory))
    (hsilent : memory.diagnostics = []) : p.expand settings text = .ok (value, p) := by
  refine bind_eq_ok.2 ⟨(⟨value, false⟩, memory), h, ?_⟩
  simp only [hsilent, List.foldl_nil, Bool.or_false]
  rfl

theorem take_command {text value : Text}
    (hswitch : Statement.switchesDelayed ⟨text, .command⟩ = false)
    (hexpand : p.expand settings text = .ok (value, q))
    (hkind : expandedKind text value = .command) :
    p.take settings ⟨text, .command⟩ = .ok (q.write value) := by
  rw [← facing_of_not_switchesDelayed (p := p) hswitch] at hexpand
  exact bind_eq_ok.2 ⟨(value, q), hexpand, if_pos hkind⟩

end Progress

theorem expandedKind_echoLine (text value : Text) :
    Progress.expandedKind text (echoLine value) = .command :=
  Progress.expandedKind_eq_command text (by rw [readForm_echoLine])

theorem trim_echoLine (text : Text) : Text.trim (echoLine text) = echoLine text := by
  refine Text.trim_eq_self (fun c hc => ?_) fun c hc => ?_
  · cases hc
    rfl
  · change c ∈ ("echo [".toList ++ text ++ [']']).getLast? at hc
    rw [List.getLast?_append_of_ne_nil _ (List.cons_ne_nil _ _)] at hc
    cases hc
    rfl

theorem liveReferences_plain (scope : Expansion.Scope) {text : Text} (hne : text ≠ [])
    (htext : ∀ c ∈ text, Template.isMark scope.dialect c = false) :
    scope.liveReferences text = .ok [] := by
  simp only [Expansion.Scope.liveReferences, Template.read_plain hne htext]
  rfl

section

variable {name value : Text}

/-- The site of a name that can be used. -/
def Assignable.site (h : Assignable name) : Expansion.Link .percent :=
  ⟨'%', name, h.named⟩

/-- Where a run stands between the two lines. -/
def betweenLines (settings : Settings) (name value : Text) : Progress :=
  let p := (Progress.start settings).define (name, value)
  { p with transcript := p.transcript.separate .newline }

theorem isOrdinary_site (h : Assignable name) :
    ∀ c ∈ h.site.token, isOrdinary c = true ∧ c ≠ '^' := by
  intro c hc
  change c ∈ '%' :: name ++ ['%'] at hc
  rw [List.cons_append, List.mem_cons, List.mem_append, List.mem_singleton] at hc
  rcases hc with rfl | hc | rfl
  · decide
  · have hchar := h.isNameChar c hc
    refine ⟨isOrdinary_of_class Template.isNameChar (by decide) hchar, ?_⟩
    rintro rfl
    exact absurd hchar (by decide)
  · decide

theorem isMark_echoLine (hpercent : '%' ∉ value) :
    ∀ c ∈ echoLine value, Template.isMark .percent c = false :=
  forall_mem_echoLine (by decide) fun c hc => by
    have hne : c ≠ '%' := fun e => hpercent (e ▸ hc)
    simp [Template.isMark, hne]

theorem expand_echoLine (hname : Assignable name) (hpercent : '%' ∉ value)
    (hsize : Text.byteLength (echoLine value) ≤ Expansion.limit) :
    (betweenLines { raw := true } name value).expand { raw := true } (echoLine hname.site.token) =
      .ok (echoLine value, betweenLines { raw := true } name value) := by
  have hvalues : (Definitions.empty.insert name value).valuesOf hname.site.key = [value] := by
    have hkey : hname.site.key = Definitions.key name := rfl
    rw [Definitions.valuesOf_insert, if_pos hkey, Definitions.valuesOf_empty, List.nil_append]
  have htotal : (Definitions.empty.insert name value).total ≠ 0 := by
    rw [Definitions.total_insert]
    exact Nat.succ_ne_zero _
  have hbefore : "echo [".toList ≠ [] := by decide
  have hafter : [']'] ≠ [] := List.cons_ne_nil _ _
  have hexpand := Expansion.Scope.expand_between
    ⟨Definitions.empty.insert name value, .percent, .erase⟩ hname.site hvalues htotal hbefore hafter
    (isMark_echoLine hpercent) hsize
  exact Progress.expand_of_silent hexpand rfl

theorem write_echoLine :
    ((betweenLines { raw := true } name value).write (echoLine value)).transcript =
      ⟨echoLine value, none⟩ := by
  have htranscript : (betweenLines { raw := true } name value).transcript = ⟨[], some .newline⟩ := rfl
  unfold Progress.write Transcript.write
  rw [trim_echoLine, htranscript]
  rfl

theorem finish_echoLine (hpercent : '%' ∉ value) :
    ((betweenLines { raw := true } name value).write (echoLine value)).finish { raw := true } =
      .ok ⟨echoLine value, [⟨name, value, 0⟩], [], false⟩ := by
  have houtput : ((betweenLines { raw := true } name value).write (echoLine value)).output
      { raw := true } = echoLine value := congrArg Transcript.output write_echoLine
  have hlive := liveReferences_plain ⟨Definitions.empty.insert name value, .percent, .erase⟩
    (List.cons_ne_nil _ _) (isMark_echoLine hpercent)
  refine bind_eq_ok.2 ⟨[], ?_, ?_⟩
  · rw [houtput]
    exact hlive
  · rw [houtput]
    rfl

/--
Defining a name and using it on the next line gives the value back: the output is the line with the
value in it, the assignment is recorded, and nothing is reported.
-/
theorem reveal_setLine_echoLine (name value lineBreak : Text) (hname : Assignable name)
    (hquote : '"' ∉ value) (hpercent : '%' ∉ value) (hbreak : lineBreak ∈ lineBreaks)
    (hsize : Text.byteLength (echoLine value) ≤ Expansion.limit) :
    reveal { raw := true }
        (setLine name value ++ (lineBreak ++ echoLine ('%' :: name ++ ['%']))) =
      .ok ⟨echoLine value, [⟨name, value, 0⟩], [], false⟩ := by
  have hread := read_setLine_echoLine hname hquote hbreak (isOrdinary_site hname)
  have hset : (Progress.start { raw := true }).take { raw := true }
      ⟨setLine name value, .assignment name value⟩ =
        .ok ((Progress.start { raw := true }).define (name, value)) :=
    Progress.take_assignment rfl rfl
  have hecho : (betweenLines { raw := true } name value).take { raw := true }
      ⟨echoLine hname.site.token, .command⟩ =
        .ok ((betweenLines { raw := true } name value).write (echoLine value)) :=
    Progress.take_command rfl (expand_echoLine hname hpercent hsize) (expandedKind_echoLine _ _)
  have hrest : ((Progress.start { raw := true }).define (name, value)).takeAll { raw := true }
      [(.newline, ⟨echoLine hname.site.token, .command⟩)] =
        .ok ((betweenLines { raw := true } name value).write (echoLine value)) :=
    bind_eq_ok.2 ⟨_, hecho, rfl⟩
  change read (setLine name value ++ (lineBreak ++ echoLine ('%' :: name ++ ['%']))) = _ at hread
  have hscan := scan_eq_ok_iff.2 ⟨ends_read_iff.1 (by rw [hread]; rfl), hread⟩
  exact bind_eq_ok.2 ⟨_, hscan,
    bind_eq_ok.2 ⟨_, hset, bind_eq_ok.2 ⟨_, hrest, finish_echoLine hpercent⟩⟩⟩

/-- A value with separators, carets and a line break. -/
theorem reveal_setLine_echoLine_break :
    let name := "A(1)".toList
    let value := "x & y|^\nset B=1".toList
    Assignable name ∧ '"' ∉ value ∧ '%' ∉ value ∧ "\r\n".toList ∈ lineBreaks ∧
      Text.byteLength (echoLine value) ≤ Expansion.limit ∧
      reveal { raw := true }
          (setLine name value ++ ("\r\n".toList ++ echoLine ('%' :: name ++ ['%']))) =
        .ok ⟨echoLine value, [⟨name, value, 0⟩], [], false⟩ := by
  intro name value
  have hchars : name.all Template.isNameChar = true := by decide
  have hname : Assignable name := ⟨by decide, List.all_eq_true.1 hchars, by decide, by decide⟩
  exact ⟨hname, by decide, by decide, by decide, by decide,
    reveal_setLine_echoLine name value _ hname (by decide) (by decide) (by decide) (by decide)⟩

end

end Script

end Unmask
