import Unmask.Proofs.Faults
import Unmask.Proofs.LoopBodies
import Unmask.Proofs.ScriptAlphabets

/-!
# A loop without end

The instances of a loop may be loops that hold more than the loop itself, and so on from one loop to
the next.  In a ring of loops each one has an instance that starts with the next, whatever stands
behind its body, and so from none of them the chain of loops comes to an end.

    Feeds.inner               one loop has an instance that is the next one with more behind it
    not_ends_of_feeds         loops that feed one another go on for ever
    not_loopsEnd_endlessText  a text that is such a loop
-/

namespace Unmask

namespace Text

variable {pattern replacement : Text}

/-- Where the last character of a text stands in a pattern only at its end, no occurrence goes on. -/
theorem replaceAll_append_of_getLast? (hne : pattern ≠ []) {s : Text}
    (hlast : ∀ c ∈ s.getLast?, c ∉ pattern.dropLast) (t : Text) :
    replaceAll (· == ·) pattern replacement (s ++ t) =
      replaceAll (· == ·) pattern replacement s ++ replaceAll (· == ·) pattern replacement t := by
  -- by induction on the length, as an occurrence at the head is passed over as a whole
  generalize hn : s.length = n
  induction n using Nat.strongRecOn generalizing s with
  | ind n ih =>
    cases s with
    | nil => rfl
    | cons c s =>
      by_cases hoccurs : pattern <+: c :: s ++ t
      · have hwhole : pattern <+: c :: s := by
          refine (List.prefix_or_prefix_of_prefix hoccurs (List.prefix_append _ t)).elim id ?_
          rintro ⟨border, hborder⟩
          rcases List.eq_nil_or_concat border with rfl | ⟨start, d, rfl⟩
          · rw [List.append_nil] at hborder
            exact hborder ▸ List.prefix_refl _
          · refine absurd ?_ (hlast _ (List.getLast?_eq_some_getLast (List.cons_ne_nil c s)))
            rw [← hborder, List.concat_eq_append, ← List.append_assoc, List.dropLast_concat]
            exact List.mem_append_left start (List.getLast_mem _)
        obtain ⟨rest, hrest⟩ := hwhole
        have hlength := congrArg List.length hrest
        have hpattern := List.length_pos_iff.2 hne
        rw [List.length_append] at hlength
        have hrestLast : ∀ c ∈ rest.getLast?, c ∉ pattern.dropLast := fun d hd =>
          hlast d (hrest ▸ List.mem_getLast?_append_of_mem_getLast? hd)
        rw [← hrest, List.append_assoc, replaceAll_append hne, replaceAll_append hne,
          ih rest.length (by omega) hrestLast rfl, List.append_assoc]
      · have hnone : ¬ pattern <+: c :: s := fun h => hoccurs (h.trans (List.prefix_append _ t))
        have hrestLast : ∀ d ∈ s.getLast?, d ∉ pattern.dropLast := fun d hd =>
          have hbehind : d ∈ ([c] ++ s).getLast? := List.mem_getLast?_append_of_mem_getLast? hd
          hlast d hbehind
        rw [List.cons_append] at hoccurs ⊢
        rw [replaceAll_cons hoccurs, replaceAll_cons hnone, List.cons_append,
          ih s.length (by rw [← hn]; exact Nat.lt_succ_self _) hrestLast rfl]

theorem trimEnd_append_of_getLast? {s : Text} (hne : s ≠ [])
    (hlast : ∀ c ∈ s.getLast?, isSpace c = false) (t : Text) :
    trimEnd (s ++ t) = s ++ trimEnd t := by
  have hself : trimEnd s = s := by
    rcases List.eq_nil_or_concat s with rfl | ⟨start, c, rfl⟩
    · rfl
    · rw [List.concat_eq_append] at hlast ⊢
      exact trimEnd_concat (hlast c List.getLast?_concat) start
  unfold trimEnd at hself ⊢
  rw [List.reverse_append, List.dropWhile_append]
  split
  · next hempty =>
    rw [hself, List.isEmpty_iff.1 hempty, List.reverse_nil, List.append_nil]
  · rw [List.reverse_append, List.reverse_reverse]

end Text

namespace Script

open Text (Over)

/-- Where no character starts a separator, a statement goes on to the end of the text. -/
theorem takeBody_eq_self_of_over {s : Text} (hs : Over (Separator.isStart · = false) s)
    (quoted : Bool) : takeBody quoted s = s := by
  fun_induction takeBody quoted s with
  | case1 => rfl
  | case2 c s hbreak =>
    have hstart := hs c List.mem_cons_self
    simp [Separator.isStart, hbreak] at hstart
  | case3 c s _ ih => rw [ih (hs.of_isSuffix (List.suffix_cons c s))]
  | case4 c s ih =>
    rw [ih ((hs.of_isSuffix (List.suffix_cons _ _)).of_isSuffix (List.suffix_cons _ _))]
  | case5 c s _ hstart => exact absurd (hs c List.mem_cons_self) (by simp [hstart])
  | case6 c s _ _ ih => rw [ih (hs.of_isSuffix (List.suffix_cons c s))]

namespace Loop

variable {l next : Loop} {item more : Text}

def extend (l : Loop) (more : Text) : Loop :=
  { l with body := l.body ++ more }

/-- What stands behind the keyword of a loop, as it is written. -/
def header (l : Loop) : Text :=
  l.marks ++ l.letter :: (" in (".toList ++ l.items ++ ')' :: " do ".toList)

def toText (l : Loop) : Text :=
  "for ".toList ++ (l.header ++ l.body)

theorem toText_extend (l : Loop) (more : Text) : (l.extend more).toText = l.toText ++ more := by
  unfold toText
  rw [List.append_assoc, List.append_assoc]
  rfl

/-- A loop that reads back as it is written. -/
structure Written (l : Loop) : Prop where
  grouped : l.grouped = false
  lettered : l.Lettered
  items : takeItems false (l.items ++ [')']) = l.items
  body : ∃ c s, l.body = c :: s ∧ Text.isBlank c = false

theorem Written.extend (h : l.Written) (more : Text) : (l.extend more).Written := by
  obtain ⟨c, s, hbody, hc⟩ := h.body
  exact ⟨h.grouped, ⟨h.lettered.marks, h.lettered.letter⟩, h.items, c, s ++ more,
    congrArg (· ++ more) hbody, hc⟩

theorem Lettered.readVariable? (h : l.Lettered) (s : Text) :
    Script.readVariable? (l.marks ++ l.letter :: s) = some (l.marks, l.letter, s) := by
  have hne : l.letter ≠ '%' := h.letter_ne (by decide)
  rcases h.marks with hmarks | hmarks
  · rw [hmarks]
    unfold Script.readVariable?
    split
    · next heq => exact absurd (List.cons.inj (List.cons.inj heq).2).1 hne
    · next heq =>
      obtain ⟨rfl, rfl⟩ := List.cons.inj (List.cons.inj heq).2
      exact if_pos h.letter
    · next hnot => exact absurd rfl (hnot _ _)
  · rw [hmarks]
    exact if_pos h.letter

/-- The parenthesis behind the items ends them, whatever follows it. -/
theorem takeItems_append {quoted : Bool} {items : Text}
    (h : takeItems quoted (items ++ [')']) = items) (s : Text) :
    takeItems quoted (items ++ ')' :: s) = items := by
  induction items generalizing quoted with
  | nil =>
    cases quoted with
    | false => rfl
    | true => cases h
  | cons c items ih =>
    cases quoted with
    | false =>
      rw [List.cons_append, takeItems] at h ⊢
      split at h
      · cases h
      · next hgoes => rw [if_neg hgoes, ih (List.cons.inj h).2]
    | true =>
      rw [List.cons_append, takeItems] at h ⊢
      split at h
      · cases h
      · next hgoes => rw [if_neg hgoes, ih (List.cons.inj h).2]

theorem readItems?_append {items : Text} (h : takeItems false (items ++ [')']) = items)
    (s : Text) : readItems? (" (".toList ++ items ++ ')' :: s) = some (items, s) := by
  change (Text.stripStart? [')'] ((items ++ ')' :: s).drop
    (takeItems false (items ++ ')' :: s)).length)).map (fun rest =>
      (takeItems false (items ++ ')' :: s), rest)) = _
  rw [takeItems_append h, List.drop_left]
  rfl

/-- Behind a blank and before a character that is none, the blanks are passed over. -/
theorem dropBlanks?_space {c : Char} (hc : Text.isBlank c = false) (s : Text) :
    dropBlanks? (' ' :: c :: s) = some (c :: s) := by
  change some ((c :: s).dropWhile Text.isBlank) = _
  rw [List.dropWhile_cons_of_neg (by rw [hc]; exact Bool.false_ne_true)]

theorem Written.readLoop? (h : l.Written) (hbody : Over (Separator.isStart · = false) l.body) :
    Script.readLoop? false (l.header ++ l.body) = some (.loop l, []) := by
  obtain ⟨c, t, hhead, hc⟩ := h.body
  have hitems : loopItems? (" in (".toList ++ l.items ++ ')' :: (" do ".toList ++ l.body)) =
      some (l.items, " do ".toList ++ l.body) :=
    readItems?_append h.items (" do ".toList ++ l.body)
  have hloopBody : loopBody? (" do ".toList ++ l.body) = some l.body := by
    rw [hhead]
    exact dropBlanks?_space hc t
  have hheader : l.header ++ l.body =
      l.marks ++ l.letter :: (" in (".toList ++ l.items ++ ')' :: (" do ".toList ++ l.body)) := by
    unfold header
    rw [List.append_assoc, List.cons_append, List.append_assoc, List.cons_append]
  rw [hheader, readLoop?_eq, h.lettered.readVariable?, Option.bind_some, hitems, Option.bind_some, hloopBody,
    Option.map_some, takeBody_eq_self_of_over hbody, List.drop_length, ← h.grouped]

/-- A loop that is written down is read again. -/
theorem Written.readForm_toText (h : l.Written) (hbody : Over (Separator.isStart · = false) l.body) :
    readForm l.toText = (.loop l, []) := by
  have hread := h.readLoop? hbody
  obtain ⟨s, hs⟩ : ∃ s, l.header ++ l.body = '%' :: s := by
    unfold header
    rcases h.lettered.marks with hmarks | hmarks <;> rw [hmarks] <;> exact ⟨_, rfl⟩
  -- the first word says that there is no lead and which keyword it is
  have htext : l.toText = "for ".toList ++ '%' :: s := congrArg ("for ".toList ++ ·) hs
  have hlead : lead ("for ".toList ++ '%' :: s) = [] :=
    lead_eq_nil (c := 'f') (s := "or ".toList ++ '%' :: s) rfl
  have hfor : (dropKeyword? "for" ("for ".toList ++ '%' :: s)).bind dropBlanks? = some ('%' :: s) :=
    dropBlanks?_space rfl s
  unfold readForm
  simp only [htext, hlead, leadText, List.flatMap_nil, List.length_nil, List.drop_zero, hfor,
    Option.bind_some]
  rw [show isGrouped [] = false from rfl, ← hs, hread]
  rfl

/-! ## From one loop to the next -/

/-- For one of its items a loop comes to a text that starts with the next loop. -/
structure Feeds (l : Loop) (item : Text) (next : Loop) : Prop where
  written : l.Written
  nextWritten : next.Written
  mem : item ∈ splitItems l.items
  starts : next.toText <+: l.bodyFor item
  last : ∀ c ∈ l.body.getLast?, Text.isSpace c = false ∧ c ∉ l.bareMark.dropLast
  bareLast : ∀ c ∈ (Text.replaceAll (· == ·) l.bareMark (bareItem item) l.body).getLast?,
    c ∉ l.itemMark.dropLast

theorem Written.template_extend (h : l.Written) (hlast : ∀ c ∈ l.body.getLast?, Text.isSpace c = false)
    (more : Text) : (l.extend more).template = l.body ++ Text.trimEnd more := by
  obtain ⟨c, s, hbody, -⟩ := h.body
  have hne : l.body ≠ [] := hbody ▸ List.cons_ne_nil c s
  unfold template
  rw [(h.extend more).grouped, if_neg Bool.false_ne_true]
  exact Text.trimEnd_append_of_getLast? hne hlast more

/-- What stands behind the body stands behind what comes of the body. -/
theorem Feeds.bodyFor_extend (h : l.Feeds item next) (more : Text) :
    ∃ more', (l.extend more).bodyFor item = l.bodyFor item ++ more' := by
  have htemplate := h.written.template_extend (fun c hc => (h.last c hc).1)
  have hself : l.template = l.body := by
    have hnil := htemplate []
    rw [extend, List.append_nil] at hnil
    exact hnil.trans (List.append_nil _)
  refine ⟨Text.replaceAll (· == ·) l.itemMark item
    (Text.replaceAll (· == ·) l.bareMark (bareItem item) (Text.trimEnd more)), ?_⟩
  unfold bodyFor
  rw [htemplate, hself]
  change Text.replaceAll (· == ·) l.itemMark item
    (Text.replaceAll (· == ·) l.bareMark (bareItem item) (l.body ++ Text.trimEnd more)) = _
  rw [Text.replaceAll_append_of_getLast? l.bareMark_ne_nil (fun c hc => (h.last c hc).2),
    Text.replaceAll_append_of_getLast? l.itemMark_ne_nil h.bareLast]

/-- So one of the instances is the next loop with more behind it. -/
theorem Feeds.inner (h : l.Feeds item next) {more : Text}
    (hover : (Form.loop (l.extend more)).Over (Separator.isStart · = false)) :
    ∃ more', Form.loop (next.extend more') ∈ (l.extend more).inner := by
  obtain ⟨more', hbody⟩ := h.bodyFor_extend more
  obtain ⟨rest, hrest⟩ := h.starts
  have htext : (l.extend more).bodyFor item = (next.extend (rest ++ more')).toText := by
    rw [hbody, ← hrest, toText_extend, List.append_assoc]
  have hmem : (l.extend more).bodyFor item ∈ (l.extend more).instances := by
    rw [instances_eq]
    exact List.mem_map_of_mem h.mem
  have hclean : Over (Separator.isStart · = false) (next.extend (rest ++ more')).toText :=
    htext ▸ over_of_mem_instances hover.1 hover.2 hmem
  have hread := (h.nextWritten.extend (rest ++ more')).readForm_toText
    (hclean.of_isSuffix ((List.suffix_append _ _).trans (List.suffix_append _ _)))
  refine ⟨rest ++ more', List.mem_filterMap.2 ⟨_, hmem, ?_⟩⟩
  rw [htext]
  exact wholeForm?_eq_some_iff.2 hread

end Loop

/-- Loops each of which feeds another of them go on for ever, whatever stands behind their bodies. -/
theorem not_ends_of_feeds {ring : List Loop} (hring : ∀ l ∈ ring, ∃ item, ∃ next ∈ ring, l.Feeds item next)
    {l : Loop} (hl : l ∈ ring) (hover : (Form.loop l).Over (Separator.isStart · = false)) :
    ¬(Form.loop l).Ends := by
  refine Form.not_ends_of_inner (P := fun form => form.Over (Separator.isStart · = false) ∧
    ∃ l ∈ ring, ∃ more, form = .loop (l.extend more)) ?_ ⟨hover, l, hl, [], ?_⟩
  · rintro _ ⟨hover, l, hl, more, rfl⟩
    obtain ⟨item, next, hnext, hfeeds⟩ := hring l hl
    obtain ⟨more', hinner⟩ := hfeeds.inner hover
    exact ⟨_, ⟨_, rfl, hinner⟩, Loop.over_of_mem_inner hover hinner, next, hnext, more', rfl⟩
  · rw [Loop.extend, List.append_nil]

/-! ## A ring of four loops -/

theorem forall_mem_getLast? {p : Char → Prop} (c : Char) {s : Text} (hlast : s.getLast? = some c)
    (h : p c) : ∀ d ∈ s.getLast?, p d := by
  intro d hd
  obtain rfl : c = d := Option.some.inj (hlast.symm.trans hd)
  exact h

/-- The item that the loops pass on. -/
def passedOn : Text :=
  "\"for %x in (%y) do for %u in (%u %~x) do for %y in (%x) do %~y\"".toList

/-- The item is the body. -/
def unquoting : Loop :=
  ⟨false, ['%'], 'y', passedOn, "%~y".toList⟩

/-- The item is put into itself. -/
def nesting : Loop :=
  ⟨false, ['%'], 'x', passedOn,
    "for %u in (%u %~x) do for ".toList ++ passedOn ++ " in (%x) do %~y".toList⟩

/-- The variable is put in its own place. -/
def waiting : Loop :=
  ⟨false, ['%'], 'u', "%u for ".toList ++ passedOn ++ " in (%y".toList,
    "for %u in (%u %~x) do for %y in (".toList ++ passedOn ++ ") do %~y".toList⟩

/-- The variable is put in its own place once more. -/
def closing : Loop :=
  ⟨false, ['%'], 'u', "%u %~x".toList, "for %y in (".toList ++ passedOn ++ ") do %~y".toList⟩

theorem written_unquoting : unquoting.Written :=
  ⟨rfl, ⟨.inl rfl, rfl⟩, by decide +kernel, _, _, rfl, rfl⟩

theorem written_nesting : nesting.Written :=
  ⟨rfl, ⟨.inl rfl, rfl⟩, by decide +kernel, _, _, rfl, rfl⟩

theorem written_waiting : waiting.Written :=
  ⟨rfl, ⟨.inl rfl, rfl⟩, by decide +kernel, _, _, rfl, rfl⟩

theorem written_closing : closing.Written :=
  ⟨rfl, ⟨.inl rfl, rfl⟩, by decide +kernel, _, _, rfl, rfl⟩

theorem feeds_unquoting : unquoting.Feeds passedOn nesting :=
  ⟨written_unquoting, written_nesting, by decide +kernel, by decide +kernel,
    forall_mem_getLast? 'y' (by decide +kernel) (by decide +kernel),
    forall_mem_getLast? 'y' (by decide +kernel) (by decide +kernel)⟩

theorem feeds_nesting : nesting.Feeds passedOn waiting :=
  ⟨written_nesting, written_waiting, by decide +kernel, by decide +kernel,
    forall_mem_getLast? 'y' (by decide +kernel) (by decide +kernel),
    forall_mem_getLast? 'y' (by decide +kernel) (by decide +kernel)⟩

theorem feeds_waiting : waiting.Feeds "%u".toList closing :=
  ⟨written_waiting, written_closing, by decide +kernel, by decide +kernel,
    forall_mem_getLast? 'y' (by decide +kernel) (by decide +kernel),
    forall_mem_getLast? 'y' (by decide +kernel) (by decide +kernel)⟩

theorem feeds_closing : closing.Feeds "%u".toList unquoting :=
  ⟨written_closing, written_unquoting, by decide +kernel, by decide +kernel,
    forall_mem_getLast? 'y' (by decide +kernel) (by decide +kernel),
    forall_mem_getLast? 'y' (by decide +kernel) (by decide +kernel)⟩

theorem not_ends_unquoting : ¬(Form.loop unquoting).Ends := by
  have hring : ∀ l ∈ [unquoting, nesting, waiting, closing], ∃ item,
      ∃ next ∈ [unquoting, nesting, waiting, closing], l.Feeds item next := by
    intro l hl
    simp only [List.mem_cons, List.not_mem_nil, or_false] at hl
    rcases hl with rfl | rfl | rfl | rfl
    · exact ⟨_, nesting, by simp, feeds_unquoting⟩
    · exact ⟨_, waiting, by simp, feeds_nesting⟩
    · exact ⟨_, closing, by simp, feeds_waiting⟩
    · exact ⟨_, unquoting, by simp, feeds_closing⟩
  exact not_ends_of_feeds hring List.mem_cons_self ⟨Text.over_of_all rfl, Text.over_of_all rfl⟩

/-- A text of one loop, which stays a loop however often it is taken apart. -/
def endlessText : Text :=
  unquoting.toText

theorem readForm_endlessText : readForm endlessText = (.loop unquoting, []) :=
  written_unquoting.readForm_toText (Text.over_of_all rfl)

theorem not_loopsEnd_endlessText : ¬LoopsEnd endlessText := by
  intro hends
  have hfirst := hends endlessText List.mem_cons_self
  rw [readForm_endlessText] at hfirst
  exact not_ends_unquoting hfirst

/-- No settings change that. -/
theorem reveal_endlessText (settings : Settings) :
    reveal settings endlessText = .error .endlessLoop :=
  reveal_eq_error_iff.2 (.inl ⟨rfl, not_loopsEnd_endlessText⟩)

end Script

end Unmask
