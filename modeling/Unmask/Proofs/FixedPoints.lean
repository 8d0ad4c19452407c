import Unmask.Proofs.Pieces

/-!
# Outputs that come back unchanged

The output of a script of commands without marks consists of the statements without the white space
around them, and what separated them.  Read again, it falls into the same statements: no quote, caret
or opening in one of them reaches farther than it did in the source.  Where a caret stands in front of
a line break two of them become one.  So a second run writes the same text, as long as the statements
that it reads fit the limit.

    adds_read               what a script adds to a transcript is laid out
    reveal_reveal_literal   the second run gives the output of the first
-/

namespace Unmask

namespace Script

/-! ## Outputs are laid out -/

/-- A statement without the white space around it is a piece, and its text stands there trimmed. -/
theorem isPiece_trim {s body rest : Text} (hs : s = body ++ rest)
    (hbody : Mode.plain.pass s = body) (hne : Text.trim body ≠ []) :
    IsPiece (Text.trim body) ∧
      (∃ after, Text.trimStart s = Text.trim body ++ (after ++ rest)) ∧
      ((Text.trim body).foldl Mode.next .plain = .quoted →
        body.foldl Mode.next .plain = .quoted) := by
  obtain ⟨before, after, hbetween, hbefore, hafter⟩ := Text.trim_between body
  have htrimmed := Text.trimmed_trim body
  obtain ⟨t, ht⟩ : ∃ t, Text.trim body = t := ⟨_, rfl⟩
  rw [ht] at hne hbetween htrimmed ⊢
  have hfold : before.foldl Mode.next .plain = .plain := Mode.foldl_next_space hbefore (by decide)
  have hwhole : Mode.plain.pass body = body := by
    by_contra hpass
    rw [hs, Mode.pass_append_of_ne hpass] at hbody
    exact hpass hbody
  refine ⟨⟨hne, htrimmed, ?_⟩, ⟨after, ?_⟩, fun hquoted => ?_⟩
  · rw [hbetween, Mode.pass_append_iff, hfold, Mode.pass_append_iff] at hwhole
    exact hwhole.2.1
  · have hstart : (t ++ (after ++ rest)).dropWhile Text.isSpace = t ++ (after ++ rest) :=
      Text.dropWhile_eq_self fun c hc => htrimmed.head c (by
        rwa [List.head?_append_of_ne_nil _ hne] at hc)
    rw [hs, hbetween, Text.trimStart, List.append_assoc, List.dropWhile_append_of_pos hbefore,
      List.append_assoc, hstart]
  · rw [hbetween, List.foldl_append, hfold, List.foldl_append, hquoted]
    exact Mode.foldl_next_space hafter (by decide)

/-- A separator that waits to be written, and one that waits there later. -/
def Waits (pending later : Option Separator) : Prop :=
  later = pending ∨ pending ≠ some .newline ∧ later ≠ none

theorem waits_separate (separator : Separator) (t : Transcript) :
    Waits t.pending (t.separate separator).pending := by
  unfold Transcript.separate
  split
  · exact .inl rfl
  · next hpending => exact .inr ⟨hpending, fun h => by cases h⟩

theorem Waits.trans {pending later last : Option Separator} (h : Waits pending later)
    (h' : Waits later last) : Waits pending last := by
  rcases h with rfl | ⟨hpending, hlater⟩
  · exact h'
  · rcases h' with rfl | ⟨-, hlast⟩
    · exact .inr ⟨hpending, hlater⟩
    · exact .inr ⟨hpending, hlast⟩

/-- Something waits still, and a line break stays one. -/
theorem Waits.exists_some {separator : Separator} {later : Option Separator}
    (h : Waits (some separator) later) :
    ∃ separator', later = some separator' ∧ (separator = .newline → separator' = .newline) := by
  rcases h with rfl | ⟨hpending, hlater⟩
  · exact ⟨separator, rfl, id⟩
  · obtain ⟨separator', rfl⟩ := Option.ne_none_iff_exists'.1 hlater
    exact ⟨separator', rfl, fun h => absurd (congrArg some h) hpending⟩

theorem eq_newline_of_isBreak {c : Char} {s : Text} {separator : Separator} {width : Nat}
    (hc : Text.isBreak c = true) (h : Separator.first? c s = some (separator, width)) :
    separator = .newline := by
  simp only [Text.isBreak, Bool.or_eq_true, beq_iff_eq] at hc
  rcases hc with rfl | rfl
  · cases h
    rfl
  · have hreturn : Separator.first? '\r' s =
        if s.head? = some '\n' then some (.newline, 1) else some (.newline, 0) := rfl
    rw [hreturn] at h
    split at h <;> cases h <;> rfl

/-- What is laid out is added to a transcript; there may be nothing of it. -/
def Adds (source : Text) (t t' : Transcript) : Prop :=
  ∃ x pending, (x = [] ∨ Laid x) ∧ ('"' ∈ x → '"' ∈ source) ∧ Waits t.pending pending ∧
    t'.output = (Transcript.write x ⟨t.output, pending⟩).output

theorem adds_last {s body : Text} (hs : s = body ++ []) (hbody : Mode.plain.pass s = body)
    (hexposed : SetsNothing (Text.trimStart s)) (t : Transcript) : Adds s t (t.write body) := by
  by_cases hne : Text.trim body = []
  · refine ⟨[], t.pending, .inl rfl, (fun h => by cases h), .inl rfl, ?_⟩
    rw [Transcript.write_space hne]
    rfl
  · obtain ⟨hpiece, ⟨after, hstart⟩, -⟩ := isPiece_trim hs hbody hne
    rw [hstart] at hexposed
    refine ⟨Text.trim body, t.pending, .inr (.last hpiece hexposed.of_append), fun h => ?_,
      .inl rfl, ?_⟩
    · rw [hs]
      exact List.mem_append_left _ (Text.mem_of_mem_trim h)
    · rw [Transcript.write_trim]

/-- A statement in front of others adds its piece, and behind a separator what the others add. -/
theorem adds_next {s body u : Text} {c : Char} {separator : Separator} {width : Nat}
    (hs : s = body ++ c :: u) (hbody : Mode.plain.pass s = body)
    (hexposed : SetsNothing (Text.trimStart s))
    (hfirst : Separator.first? c u = some (separator, width)) {t t' : Transcript}
    (h : Adds (u.drop width) ((t.write body).separate separator) t') : Adds s t t' := by
  obtain ⟨x, pending, hx, hquote, hwaits, houtput⟩ := h
  have hbehind : '"' ∈ x → '"' ∈ c :: u := fun hmem =>
    List.mem_cons_of_mem c ((List.drop_suffix width u).mem (hquote hmem))
  by_cases hne : Text.trim body = []
  -- white space alone writes nothing, and the separator behind it may take the place of one that waits
  · rw [Transcript.write_space hne, Transcript.output_separate] at houtput
    rw [Transcript.write_space hne] at hwaits
    refine ⟨x, pending, hx, fun hmem => ?_, (waits_separate separator t).trans hwaits, houtput⟩
    rw [hs]
    exact List.mem_append_right body (hbehind hmem)
  · obtain ⟨hpiece, ⟨after, hstart⟩, hquoted⟩ := isPiece_trim hs hbody hne
    rw [hstart] at hexposed
    have hwrite : t.write body = ⟨t.output ++ (t.joiner ++ Text.trim body), none⟩ := by
      rw [← Transcript.write_trim body, Transcript.write_trimmed hpiece.trimmed hne]
    have hseparate : ∀ separator : Separator, (t.write body).separate separator =
        ⟨t.output ++ (t.joiner ++ Text.trim body), some separator⟩ := by
      intro separator
      rw [hwrite]
      exact if_neg (Option.some_ne_none _).symm
    have hmem : '"' ∈ Text.trim body → '"' ∈ s := fun hmem => by
      rw [hs]
      exact List.mem_append_left _ (Text.mem_of_mem_trim hmem)
    rw [hseparate] at hwaits houtput
    rcases hx with rfl | hx
    · refine ⟨Text.trim body, t.pending, .inr (.last hpiece hexposed.of_append), hmem, .inl rfl, ?_⟩
      rw [houtput, Transcript.write_trim, hwrite]
      rfl
    -- more separators may follow before something is written, so another one may be written
    · obtain ⟨separator', rfl, hnewline⟩ := hwaits.exists_some
      have hlaid : Laid (Text.trim body ++ (separator'.written ++ x)) := by
        refine .cons hpiece hx (hexposed.append_written separator' fun hmem =>
          List.mem_append_right after (hbehind hmem)) fun hmode => ?_
        have hstops := Mode.stops_of_pass (hs ▸ hbody)
        rw [hquoted hmode] at hstops
        exact hnewline (eq_newline_of_isBreak hstops hfirst)
      refine ⟨_, t.pending, .inr hlaid, fun hwhole => ?_, .inl rfl, ?_⟩
      · rcases List.mem_append.1 hwhole with hleft | hright
        · exact hmem hleft
        · rcases List.mem_append.1 hright with hwritten | hmem
          · cases separator' <;> exact absurd hwritten (by decide)
          · rw [hs]
            exact List.mem_append_right body (hbehind hmem)
      · rw [houtput, ← hseparate separator', ← Transcript.write_trim body t,
          Transcript.write_separate_write hpiece.trimmed hx.trimmed hne hx.ne_nil]

/-- What the statements of a script of commands add to a transcript, if anything, is laid out. -/
theorem adds_read {s : Text} (hpercent : '%' ∉ s)
    (hcommands : ∀ t ∈ starts firstText s, SetsNothing t ∧ SetsNothing (Text.trimStart t))
    (t : Transcript) : Adds s t (writeWith id (read s) t) := by
  induction s using read_induction generalizing t with
  | last s hrest =>
    obtain ⟨hset, hexposed⟩ := hcommands s (starts_last hrest ▸ List.mem_cons_self)
    have hs := text_first_append s
    rw [hrest, hset.first_eq hpercent] at hs
    rw [read_last hrest, hset.first_eq hpercent]
    exact adds_last hs.symm rfl hexposed t
  | next s c u separator width hrest hfirst ih =>
    have hstarts := starts_next hrest hfirst
    obtain ⟨hset, hexposed⟩ := hcommands s (hstarts ▸ List.mem_cons_self)
    have hs := text_first_append s
    rw [hrest, hset.first_eq hpercent] at hs
    rw [read_next hrest hfirst, hset.first_eq hpercent]
    have hpercent' : '%' ∉ u.drop width := fun hmem => hpercent ((readForm_rest s).1.mem (by
      rw [hrest]
      exact List.mem_cons_of_mem c ((List.drop_suffix width u).mem hmem)))
    exact adds_next hs.symm rfl hexposed hfirst (ih hpercent'
      (fun t ht => hcommands t (hstarts ▸ List.mem_cons_of_mem s ht)) _)

/-! ## Commands that fit the limit -/

theorem writeWith_congr {f g : Text → Text} {script : Script}
    (h : ∀ statement ∈ script.statements, Text.trim (f statement.text) = Text.trim (g statement.text))
    (t : Transcript) : writeWith f script t = writeWith g script t := by
  obtain ⟨head, tail⟩ := script
  unfold writeWith
  rw [Transcript.write_of_trim_eq (h head List.mem_cons_self)]
  have htail : ∀ next ∈ tail, Text.trim (f next.2.text) = Text.trim (g next.2.text) :=
    fun next hnext => h next.2 (List.mem_cons_of_mem _ (List.mem_map_of_mem hnext))
  clear h
  generalize t.write (g head.text) = t
  induction tail generalizing t with
  | nil => rfl
  | cons next tail ih =>
    rw [List.foldl_cons, List.foldl_cons, Transcript.write_of_trim_eq (htail next List.mem_cons_self)]
    exact ih (fun next hnext => htail next (List.mem_cons_of_mem _ hnext)) _

/-- A run over commands that fit the limit writes them as they stand. -/
theorem reveal_fitting {s : Text} (hliteral : Literal s)
    (h : ∀ t ∈ starts firstText s, SetsNothing t)
    (hfits : ∀ statement ∈ (read s).statements,
      Text.byteLength (Text.trimEnd statement.text) ≤ Expansion.limit) :
    reveal { raw := true } s = .ok ⟨(writeWith id (read s) .empty).output, [], [], false⟩ := by
  have hcongr : writeWith (Text.takeBytes Expansion.limit) (read s) .empty =
      writeWith id (read s) .empty :=
    writeWith_congr (fun statement hmem => Text.trim_takeBytes (hfits statement hmem)) _
  rw [reveal_literal hliteral h, hcongr]

theorem setsNothing_of_commands {s : Text} (hpercent : '%' ∉ s)
    (h : ∀ statement ∈ (read s).statements, statement.kind = .command) :
    ∀ t ∈ starts firstText s, SetsNothing t := by
  intro t ht
  refine setsNothing_of_kind (fun hmem => hpercent ((isSuffix_of_mem_starts ht).mem hmem)) ?_
  refine h _ ?_
  rw [statements_read]
  exact List.mem_map_of_mem ht

/-! ## Statements as long as the limit -/

/-- A number of hash marks. -/
def hashes (n : Nat) : Text :=
  List.replicate n '#'

theorem byteLength_hashes (n : Nat) : Text.byteLength (hashes n) = n :=
  (Text.byteLength_replicate n '#').trans (Nat.mul_one n)

theorem eq_hash_of_mem {n : Nat} {c : Char} (h : c ∈ hashes n) : c = '#' :=
  (List.mem_replicate.1 h).2

theorem isPiece_hashes (n : Nat) : IsPiece (hashes (n + 1)) where
  ne_nil := List.cons_ne_nil _ _
  trimmed := by
    refine ⟨fun c hc => ?_, fun c hc => ?_⟩
    · rw [eq_hash_of_mem (List.mem_of_mem_head? hc)]
      rfl
    · rw [eq_hash_of_mem (List.mem_of_mem_getLast? hc)]
      rfl
  whole := by
    have hbody : takeBody false (hashes (n + 1)) = hashes (n + 1) := takeBody_eq_self fun c hc => by
      rw [eq_hash_of_mem hc]
      decide
    rwa [takeBody_eq_pass, if_neg Bool.false_ne_true] at hbody

theorem setsNothing_of_first {c : Char} {s : Text} (hfirst : LeadItem.first? c s = none)
    (hc : c.toLower ≠ 's') : SetsNothing (c :: s) := by
  have htext : assignmentText? (c :: s) = none := by
    have hkeyword : dropKeyword? "set" (c :: s) = none := if_neg fun he =>
      hc (beq_iff_eq.1 he).symm
    unfold assignmentText?
    rw [lead_eq_nil hfirst]
    exact congrArg (Option.bind · dropBlanks?) hkeyword
  intro quoted rest hopening
  unfold opening? at hopening
  rw [htext] at hopening
  cases hopening

theorem literal_hashes (n : Nat) : Literal (hashes n) :=
  ⟨fun hmem => absurd (eq_hash_of_mem hmem) (by decide),
    fun hmem => absurd (eq_hash_of_mem hmem) (by decide)⟩

section

variable {body blanks : Text}
  (hbody : body = ['a'] ∧ blanks = [] ∨ body = ['a', ' '] ∧ blanks = [' '])

include hbody

theorem literal_behind (n : Nat) : Literal (body ++ '&' :: (blanks ++ hashes (n + 1))) := by
  have hfront : Literal (body ++ '&' :: blanks) := by
    rcases hbody with ⟨rfl, rfl⟩ | ⟨rfl, rfl⟩ <;> exact ⟨by decide, by decide⟩
  have hall := hfront.append (literal_hashes (n + 1))
  rwa [List.append_assoc, List.cons_append] at hall

theorem isBlank_behind : ∀ c ∈ blanks, Text.isBlank c = true := by
  rcases hbody with ⟨-, rfl⟩ | ⟨-, rfl⟩
  · exact fun c hc => by cases hc
  · exact fun c hc => List.mem_singleton.1 hc ▸ rfl

/-- Behind a command and a separator, hash marks are a command. -/
theorem read_behind (n : Nat) : read (body ++ '&' :: (blanks ++ hashes (n + 1))) =
    ⟨⟨body, .command⟩, [(.sequence, ⟨blanks ++ hashes (n + 1), .command⟩)]⟩ := by
  have hliteral := literal_behind hbody n
  have hset : SetsNothing (body ++ '&' :: (blanks ++ hashes (n + 1))) := by
    rcases hbody with ⟨rfl, rfl⟩ | ⟨rfl, rfl⟩ <;> exact setsNothing_of_first rfl (by decide)
  have hpass : Mode.plain.pass (body ++ '&' :: (blanks ++ hashes (n + 1))) = body := by
    rcases hbody with ⟨rfl, rfl⟩ | ⟨rfl, rfl⟩ <;> rfl
  have hsequence : Separator.first? '&' (blanks ++ hashes (n + 1)) = some (.sequence, 0) := by
    rcases hbody with ⟨rfl, rfl⟩ | ⟨rfl, rfl⟩ <;> rfl
  have hpercent : '%' ∉ blanks ++ hashes (n + 1) := fun hmem =>
    hliteral.percent (List.mem_append_right _ (List.mem_cons_of_mem _ hmem))
  obtain ⟨hfirst, hrest⟩ := hset.first_append hliteral.percent rfl hpass
  rw [read_next hrest hsequence, hfirst, List.drop_zero,
    read_piece (isBlank_behind hbody) (isPiece_hashes n) (setsNothing_of_first rfl (by decide)) hpercent]

/-- The output is the command and as many hash marks as the limit leaves. -/
theorem reveal_behind {n m : Nat}
    (hcut : Text.takeBytes Expansion.limit (blanks ++ hashes (n + 1)) = blanks ++ hashes (m + 1)) :
    reveal { raw := true } (body ++ '&' :: (blanks ++ hashes (n + 1))) =
      .ok ⟨['a', ' '] ++ '&' :: ([' '] ++ hashes (m + 1)), [], [], false⟩ := by
  have hliteral := literal_behind hbody n
  have hread := read_behind hbody n
  have hset := setsNothing_of_commands hliteral.percent fun statement hmem => by
    rw [hread] at hmem
    rcases List.mem_cons.1 hmem with rfl | hmem
    · rfl
    · rw [List.mem_singleton.1 hmem]
  have hspace : ∀ c ∈ blanks, Text.isSpace c = true := fun c hc =>
    Text.isSpace_of_isBlank (isBlank_behind hbody c hc)
  have hfirst : (Transcript.empty.write (Text.takeBytes Expansion.limit body)).separate .sequence =
      ⟨['a'], some .sequence⟩ := by
    rcases hbody with ⟨rfl, rfl⟩ | ⟨rfl, rfl⟩ <;> decide
  have hwrite : writeWith (Text.takeBytes Expansion.limit)
      (read (body ++ '&' :: (blanks ++ hashes (n + 1)))) .empty =
        Transcript.write (hashes (m + 1)) ⟨['a'], some .sequence⟩ := by
    rw [hread, ← hfirst, ← Transcript.write_of_trim_eq (Text.trim_space_append hspace _), ← hcut]
    rfl
  rw [reveal_literal hliteral hset, hwrite,
    Transcript.write_trimmed (isPiece_hashes m).trimmed (List.cons_ne_nil _ _)]
  rfl

end

/--
A statement as long as the limit gets a blank in front of it behind the separator of the output, so a
second run cuts off its last character.
-/
theorem reveal_full :
    let s := "a&".toList ++ hashes 8191
    let output := "a & ".toList ++ hashes 8191
    let output' := "a & ".toList ++ hashes 8190
    Literal s ∧
      (∀ statement ∈ (read s).statements,
        statement.kind = .command ∧ Text.byteLength statement.text ≤ Expansion.limit) ∧
      reveal { raw := true } s = .ok ⟨output, [], [], false⟩ ∧
      reveal { raw := true } output = .ok ⟨output', [], [], false⟩ ∧ output' ≠ output := by
  have hsource : ['a'] = ['a'] ∧ ([] : Text) = [] ∨ ['a'] = ['a', ' '] ∧ ([] : Text) = [' '] :=
    .inl ⟨rfl, rfl⟩
  have houtput : ['a', ' '] = ['a'] ∧ [' '] = ([] : Text) ∨ ['a', ' '] = ['a', ' '] ∧ [' '] = [' '] :=
    .inr ⟨rfl, rfl⟩
  have hsize : Text.byteLength (hashes 8191) ≤ Expansion.limit := (byteLength_hashes 8191).le
  refine ⟨literal_behind hsource 8190, fun statement hmem => ?_, ?_, ?_, ?_⟩
  · have hread : read ("a&".toList ++ hashes 8191) = _ := read_behind hsource 8190
    rw [hread] at hmem
    rcases List.mem_cons.1 hmem with rfl | hmem
    · exact ⟨rfl, by decide⟩
    · rw [List.mem_singleton.1 hmem]
      exact ⟨rfl, hsize⟩
  · have hcut : Text.takeBytes Expansion.limit ([] ++ hashes 8191) = [] ++ hashes 8191 :=
      Text.takeBytes_eq_self hsize
    exact reveal_behind hsource hcut
  · have hcut : Text.takeBytes Expansion.limit ([' '] ++ hashes (8190 + 1)) = [' '] ++ hashes 8190 := by
      have hfull : Text.byteLength ([' '] ++ hashes 8190) = Expansion.limit := by
        rw [Text.byteLength_append, byteLength_hashes]
        rfl
      have hlast : hashes (8190 + 1) = hashes 8190 ++ ['#'] := List.replicate_succ'
      rw [hlast, ← List.append_assoc, Text.takeBytes_append hfull.le, hfull, Nat.sub_self]
      exact List.append_nil _
    exact reveal_behind houtput hcut
  · intro he
    have hsame : hashes 8190 = hashes 8191 := List.append_cancel_left he
    have hlength := congrArg Text.byteLength hsame
    rw [byteLength_hashes, byteLength_hashes] at hlength
    cases hlength

/-! ## Two runs -/

/--
The output of a script of commands without marks is a script of commands again, and a second run gives
it back unchanged, as long as the statements that it reads fit the limit.  The commands have to be
commands also without the white space in front of them, of which the reader only knows the blanks.
-/
theorem reveal_reveal_literal (s : Text) (hliteral : Literal s)
    (hcommands : ∀ statement ∈ (read s).statements,
      statement.kind = .command ∧ Text.byteLength statement.text ≤ Expansion.limit)
    (hexposed : ∀ t ∈ starts firstText s, (Statement.first (Text.trimStart t)).kind = .command) :
    ∃ output, reveal { raw := true } s = .ok ⟨output, [], [], false⟩ ∧
      (∀ statement ∈ (read output).statements, statement.kind = .command) ∧
      ((∀ statement ∈ (read output).statements,
          Text.byteLength (Text.trimEnd statement.text) ≤ Expansion.limit) →
        reveal { raw := true } output = .ok ⟨output, [], [], false⟩) := by
  have hpercent := hliteral.percent
  have hset := setsNothing_of_commands hpercent fun statement hmem => (hcommands statement hmem).1
  have hlaid := adds_read hpercent (fun t ht => ⟨hset t ht, setsNothing_of_kind (fun hmem =>
    hpercent ((isSuffix_of_mem_starts ht).mem ((List.dropWhile_suffix _).mem hmem)))
      (hexposed t ht)⟩) .empty
  have hfits : ∀ statement ∈ (read s).statements,
      Text.byteLength (Text.trimEnd statement.text) ≤ Expansion.limit := fun statement hmem =>
    (Text.byteLength_le_of_isPrefix (Text.trimEnd_isPrefix _)).trans (hcommands statement hmem).2
  have hreveal := reveal_fitting hliteral hset hfits
  obtain ⟨x, pending, hx, -, -, houtput⟩ := hlaid
  have hx' : (writeWith id (read s) .empty).output = x := by
    rw [houtput]
    rcases hx with rfl | hx
    · rfl
    · exact Transcript.write_first hx.trimmed hx.ne_nil pending
  have hliteral' : Literal x := by
    rw [← hx']
    exact literal_writeWith (fun statement hmem => literal_text hliteral hmem)
      ⟨List.not_mem_nil, List.not_mem_nil⟩
  rw [hx'] at hreveal
  refine ⟨x, hreveal, ?_⟩
  rcases hx with rfl | hx
  · exact ⟨by decide +kernel, fun _ => by decide +kernel⟩
  · have hreads : ReadsAs x (read ([] ++ x)) :=
      hx.readsAs hliteral'.percent fun c hc => by cases hc
    rw [List.nil_append] at hreads
    refine ⟨hreads.commands, fun hfits' => ?_⟩
    have hset' := setsNothing_of_commands hliteral'.percent hreads.commands
    have hfirst : (Transcript.empty.write x).output = x :=
      Transcript.write_first hx.trimmed hx.ne_nil none
    rw [reveal_fitting hliteral' hset' hfits', hreads.written, hfirst]

/-- White space that is no blank, quotes over a separator, and a caret in front of a line break. -/
theorem reveal_reveal_literal_merged :
    let s := "\u00a0echo \"a & b\n\n | c^ \r\n&&d =1 \t|| (set \"x=^ & y".toList
    let output := "echo \"a & b\nc^\nd =1 || (set \"x=^ & y".toList
    Literal s ∧
      (∀ statement ∈ (read s).statements,
        statement.kind = .command ∧ Text.byteLength statement.text ≤ Expansion.limit) ∧
      (∀ t ∈ starts firstText s, (Statement.first (Text.trimStart t)).kind = .command) ∧
      (∀ statement ∈ (read output).statements,
        Text.byteLength (Text.trimEnd statement.text) ≤ Expansion.limit) ∧
      reveal { raw := true } s = .ok ⟨output, [], [], false⟩ ∧
      reveal { raw := true } output = .ok ⟨output, [], [], false⟩ := by
  intro s output
  have hliteral : Literal s := ⟨by decide +kernel, by decide +kernel⟩
  have hcommands : ∀ statement ∈ (read s).statements,
      statement.kind = .command ∧ Text.byteLength statement.text ≤ Expansion.limit := by
    decide +kernel
  have hexposed : ∀ t ∈ starts firstText s, (Statement.first (Text.trimStart t)).kind = .command := by
    decide +kernel
  have hfits : ∀ statement ∈ (read output).statements,
      Text.byteLength (Text.trimEnd statement.text) ≤ Expansion.limit := by decide +kernel
  have hreveal : reveal { raw := true } s = .ok ⟨output, [], [], false⟩ := by decide +kernel
  obtain ⟨output', hreveal', -, hagain⟩ := reveal_reveal_literal s hliteral hcommands hexposed
  obtain rfl : output' = output :=
    congrArg Revealed.output (Except.ok.inj (hreveal'.symm.trans hreveal))
  exact ⟨hliteral, hcommands, hexposed, hfits, hreveal, hagain hfits⟩

/--
Neither condition can be left out: a statement as long as the limit is cut off by the second run, and
behind white space that is no blank an assignment is a command for the first run only.
-/
theorem reveal_reveal_ne :
    let s := "a&".toList ++ hashes 8191
    let output := "a & ".toList ++ hashes 8191
    let s' := "\u00a0set A=1".toList
    let output' := "set A=1".toList
    (Literal s ∧
      (∀ statement ∈ (read s).statements,
        statement.kind = .command ∧ Text.byteLength statement.text ≤ Expansion.limit) ∧
      reveal { raw := true } s = .ok ⟨output, [], [], false⟩ ∧
      reveal { raw := true } output = .ok ⟨"a & ".toList ++ hashes 8190, [], [], false⟩ ∧
      "a & ".toList ++ hashes 8190 ≠ output) ∧
    Literal s' ∧
      (∀ statement ∈ (read s').statements,
        statement.kind = .command ∧ Text.byteLength statement.text ≤ Expansion.limit) ∧
      reveal { raw := true } s' = .ok ⟨output', [], [], false⟩ ∧
      reveal { raw := true } output' = .ok ⟨[], [⟨['A'], ['1'], 0⟩], [], false⟩ ∧ [] ≠ output' := by
  intro s output s' output'
  have hliteral : Literal s' := ⟨by decide +kernel, by decide +kernel⟩
  exact ⟨reveal_full, hliteral, by decide +kernel, by decide +kernel, by decide +kernel, by decide⟩

end Script

end Unmask
