import Unmask.Proofs.Alphabets
import Unmask.Proofs.Layout
import Unmask.Proofs.Lines
import Unmask.Proofs.LiteralRuns

/-!
# Alphabets of scripts

What a statement defines is cut out of its text: a value is a part of it, and the body of a loop is
put together from the body and the items.  So the values are written in the alphabet of the text.
Breaking the long lines of an output puts in only what stands at the breaks.

    first_over    the statement at the head of a text
    over_wrap     a text whose long lines are broken
-/

namespace Unmask

open Text (Over)

variable {p : Char → Prop}

namespace Text

theorem stripLast?_isPrefix {c : Char} {s rest : Text} (h : stripLast? c s = some rest) :
    rest <+: s := by
  unfold stripLast? at h
  split at h
  · cases h
  · next d r hreverse =>
    split at h
    · cases h
      refine ⟨[d], ?_⟩
      rw [← List.reverse_cons, ← hreverse, List.reverse_reverse]
    · cases h

theorem Over.unquote? {mark : Char} {s bare : Text} (hs : Over p s)
    (h : unquote? mark s = some bare) : Over p bare := by
  unfold Text.unquote? at h
  split at h
  · cases h
  · next c s =>
    split at h
    · exact (hs.of_isSuffix (List.suffix_cons c s)).of_isPrefix (stripLast?_isPrefix h)
    · cases h

theorem over_join {sep : Text} (hsep : Over p sep) {parts : List Text}
    (h : ∀ part ∈ parts, Over p part) : Over p (join sep parts) := by
  induction parts with
  | nil => exact over_nil
  | cons part parts ih =>
    have hpart := h part List.mem_cons_self
    by_cases hne : parts = []
    · rw [hne]
      exact hpart
    · rw [join_cons _ _ hne]
      exact (hpart.append hsep).append (ih fun part hp => h part (List.mem_cons_of_mem _ hp))

theorem over_of_mem_parts {sep : Text} {parts : List Text} (h : Over p (join sep parts)) :
    ∀ part ∈ parts, Over p part := by
  induction parts with
  | nil => exact fun _ hmem => absurd hmem List.not_mem_nil
  | cons part parts ih =>
    by_cases hne : parts = []
    · subst hne
      intro part' hmem
      rw [List.mem_singleton.1 hmem]
      exact h
    · rw [join_cons _ _ hne, List.append_assoc] at h
      intro part' hmem
      rcases List.mem_cons.1 hmem with rfl | hmem
      · exact h.of_isPrefix (List.prefix_append _ _)
      · exact ih ((h.of_isSuffix (List.suffix_append _ _)).of_isSuffix (List.suffix_append _ _))
          part' hmem

end Text

namespace Script

theorem takeBody_isPrefix (quoted : Bool) (s : Text) : takeBody quoted s <+: s := by
  rw [takeBody_eq_pass]
  exact pass_isPrefix _ s

theorem dropClosing_isPrefix (s : Text) : dropClosing s <+: s := by
  unfold dropClosing
  cases hstrip : Text.stripLast? ')' s with
  | none => exact List.prefix_refl s
  | some rest => exact Text.stripLast?_isPrefix hstrip

/-! ## Forms -/

/-- The values that a statement of a form gives come from texts in an alphabet. -/
def Form.Over (p : Char → Prop) : Form → Prop
  | assignment _ value => Text.Over p value
  | loop l => Text.Over p l.items ∧ Text.Over p l.body
  | command => True

theorem readAssignment?_over {grouped : Bool} {s rest : Text} {form : Form} (hs : Over p s)
    (h : readAssignment? grouped s = some (form, rest)) : form.Over p := by
  unfold readAssignment? at h
  split at h
  · next s =>
    obtain ⟨⟨name, t⟩, htarget, h⟩ := Option.bind_eq_some_iff.1 h
    obtain ⟨⟨value, rest'⟩, hclosing, h⟩ := Option.bind_eq_some_iff.1 h
    cases h
    have ht := (hs.of_isSuffix (List.suffix_cons '"' s)).of_isSuffix (readTarget?_isSuffix htarget)
    rw [(splitClosing?_eq_some hclosing).1] at ht
    exact ht.of_isPrefix (List.prefix_append _ _)
  · obtain ⟨⟨name, t⟩, htarget, h⟩ := Option.bind_eq_some_iff.1 h
    cases h
    have hvalue : Over p (Text.trim (takeBody false t)) :=
      ((hs.of_isSuffix (readTarget?_isSuffix htarget)).of_isPrefix (takeBody_isPrefix false t)).trim
    unfold Form.Over
    dsimp only
    split
    · exact (hvalue.of_isPrefix (dropClosing_isPrefix _)).of_isPrefix (Text.trimEnd_isPrefix _)
    · exact hvalue

theorem loopItems?_over {s items rest : Text} (hs : Over p s)
    (h : loopItems? s = some (items, rest)) : Over p items := by
  obtain ⟨t, hin, hitems⟩ := Option.bind_eq_some_iff.1 h
  obtain ⟨u, hblanks, hin⟩ := Option.bind_eq_some_iff.1 hin
  obtain ⟨v, hopen, hitems⟩ := Option.bind_eq_some_iff.1 hitems
  obtain ⟨w, -, hitems⟩ := Option.map_eq_some_iff.1 hitems
  cases hitems
  have hv : v <:+ t.dropWhile Text.isBlank := by
    rw [Text.stripStart?_eq_some.1 hopen]
    exact List.suffix_append _ _
  have ht := (hs.of_isSuffix (dropBlanks?_isSuffix hblanks)).of_isSuffix (dropKeyword?_isSuffix hin)
  exact (ht.of_isSuffix (hv.trans (List.dropWhile_suffix _))).of_isPrefix (takeItems_isPrefix false v)

theorem readLoop?_over {grouped : Bool} {s rest : Text} {form : Form} (hs : Over p s)
    (h : readLoop? grouped s = some (form, rest)) : form.Over p := by
  rw [readLoop?_eq] at h
  obtain ⟨⟨marks, letter, t⟩, hvariable, h⟩ := Option.bind_eq_some_iff.1 h
  obtain ⟨⟨items, u⟩, hitems, h⟩ := Option.bind_eq_some_iff.1 h
  obtain ⟨body, hbody, h⟩ := Option.map_eq_some_iff.1 h
  cases h
  have ht := hs.of_isSuffix (readVariable?_isSuffix hvariable)
  have hu := ht.of_isSuffix (loopItems?_isSuffix hitems)
  exact ⟨loopItems?_over ht hitems,
    (hu.of_isSuffix (loopBody?_isSuffix hbody)).of_isPrefix (takeBody_isPrefix false body)⟩

/-- The form of a statement is made of parts of the text. -/
theorem readForm_over {s : Text} (hs : Over p s) : (readForm s).1.Over p := by
  have hkeyword : ∀ {keyword : String} {read? : Text → Option (Form × Text)} {found : Form × Text},
      (∀ {t rest : Text} {form : Form}, Over p t → read? t = some (form, rest) → form.Over p) →
      ((dropKeyword? keyword (s.drop (leadText (lead s)).length)).bind dropBlanks?).bind read? =
        some found → found.1.Over p := by
    intro keyword read? ⟨form, rest⟩ hread h
    obtain ⟨t, ht, hfound⟩ := Option.bind_eq_some_iff.1 h
    obtain ⟨u, hu, hblanks⟩ := Option.bind_eq_some_iff.1 ht
    exact hread (hs.of_isSuffix ((dropBlanks?_isSuffix hblanks).trans
      ((dropKeyword?_isSuffix hu).trans (List.drop_suffix _ _)))) hfound
  unfold readForm
  dsimp only
  cases hfor : ((dropKeyword? "for" (s.drop (leadText (lead s)).length)).bind dropBlanks?).bind
      (readLoop? (isGrouped (lead s))) with
  | some found => exact hkeyword readLoop?_over hfor
  | none =>
    cases hset : ((dropKeyword? "set" (s.drop (leadText (lead s)).length)).bind dropBlanks?).bind
        (readAssignment? (isGrouped (lead s))) with
    | some found => exact hkeyword readAssignment?_over hset
    | none => trivial

/-! ## Loops -/

theorem over_of_mem_consFirst {c : Char} {parts : List Text} (hc : p c)
    (hparts : ∀ part ∈ parts, Over p part) : ∀ part ∈ Text.consFirst c parts, Over p part := by
  have hcons : ∀ {part : Text}, Over p part → Over p (c :: part) := fun hpart a ha =>
    (List.mem_cons.1 ha).elim (fun he => he ▸ hc) (hpart a)
  cases parts with
  | nil =>
    intro part hmem
    rw [List.mem_singleton.1 hmem]
    exact hcons Text.over_nil
  | cons first parts =>
    intro part hmem
    rcases List.mem_cons.1 hmem with rfl | hmem
    · exact hcons (hparts first List.mem_cons_self)
    · exact hparts part (List.mem_cons_of_mem first hmem)

theorem over_of_mem_itemParts {s : Text} (hs : Over p s) (quoted : Bool) :
    ∀ part ∈ itemParts quoted s, Over p part := by
  induction s generalizing quoted with
  | nil =>
    intro part hmem
    rw [List.mem_singleton.1 hmem]
    exact Text.over_nil
  | cons c s ih =>
    have htail := ih (hs.of_isSuffix (List.suffix_cons c s))
    rw [itemParts]
    split
    · intro part hmem
      rcases List.mem_cons.1 hmem with rfl | hmem
      · exact Text.over_nil
      · exact htail false part hmem
    · exact over_of_mem_consFirst (hs c List.mem_cons_self) (htail _)

/-- The body for an item is made of the body and the item. -/
theorem Loop.over_of_mem_instances {l : Loop} (hitems : Over p l.items) (hbody : Over p l.body)
    {text : Text} (h : text ∈ l.instances) : Over p text := by
  obtain ⟨item, hitem, rfl⟩ := List.mem_map.1 h
  have hitem : Over p item := over_of_mem_itemParts hitems false item (List.mem_filter.1 hitem).1
  have hbare : Over p ((Text.unquote? '"' item).getD item) := by
    cases hunquote : Text.unquote? '"' item with
    | none => exact hitem
    | some bare => exact hitem.unquote? hunquote
  have htrim : Over p (Text.trimEnd l.body) := hbody.of_isPrefix (Text.trimEnd_isPrefix _)
  refine Text.Over.replaceAll (Text.Over.replaceAll ?_ hbare _ _) hitem _ _
  split
  · exact htrim.of_isPrefix (dropClosing_isPrefix _)
  · exact htrim

/-- So is what a loop comes to for its items. -/
theorem Loop.over_of_mem_inner {l : Loop} (h : (Form.loop l).Over p) {form : Form}
    (hform : form ∈ l.inner) : form.Over p := by
  obtain ⟨text, htext, hwhole⟩ := List.mem_filterMap.1 hform
  have hread := readForm_over (l.over_of_mem_instances h.1 h.2 htext)
  rwa [wholeForm?_eq_some_iff.1 hwhole] at hread

/-- So the values that a form defines are in its alphabet, however deep its loops are. -/
theorem Form.definitions?_over {form : Form} (h : form.Over p) {ds : List (Text × Text)}
    (hds : form.definitions? = some ds) : ∀ definition ∈ ds, Text.Over p definition.2 := by
  refine definitions?.partial_correctness
    (fun form ds => form.Over p → ∀ definition ∈ ds, Text.Over p definition.2) ?_ form ds hds h
  intro definitions ih form ds hds h definition hmem
  cases form with
  | assignment name value =>
    cases hds
    rw [List.mem_singleton.1 hmem]
    exact h
  | command =>
    cases hds
    cases hmem
  | loop l =>
    obtain ⟨parts, hparts, hds⟩ := Option.bind_eq_some_iff.1 hds
    cases hds
    obtain ⟨part, hpart, hmem⟩ := List.mem_flatten.1 hmem
    obtain ⟨inner, hinner, hdefinitions⟩ := exists_of_mem_mapM hparts hpart
    exact ih inner part hdefinitions (l.over_of_mem_inner h hinner) definition hmem

theorem Form.definitions_kind_over {form : Form} (h : form.Over p) :
    ∀ definition ∈ form.kind.definitions, Text.Over p definition.2 := by
  cases hds : form.definitions? with
  | none =>
    rw [kind_eq_endless_iff.2 (definitions?_eq_none_iff.1 hds)]
    exact fun _ hmem => absurd hmem List.not_mem_nil
  | some ds =>
    rw [definitions_kind hds]
    exact definitions?_over h hds

/-! ## Statements -/

/-- The text of a statement and the values that it gives are in an alphabet. -/
structure Statement.Over (p : Char → Prop) (statement : Statement) : Prop where
  text : Text.Over p statement.text
  values : ∀ definition ∈ statement.kind.definitions, Text.Over p definition.2

/-- The statement at the head of a text is in its alphabet. -/
theorem first_over {s : Text} (hs : Over p s) : (Statement.first s).Over p := by
  refine ⟨hs.of_isPrefix ⟨_, text_first_append s⟩, ?_⟩
  rw [kind_first]
  exact Form.definitions_kind_over (readForm_over hs)

/-- So are all statements of a script. -/
theorem statements_over {s : Text} (hs : Over p s) :
    ∀ statement ∈ (read s).statements, statement.Over p := by
  intro statement hmem
  rw [statements_read] at hmem
  obtain ⟨t, ht, rfl⟩ := List.mem_map.1 hmem
  exact first_over (hs.of_isSuffix (isSuffix_of_mem_starts ht))

/-! ## Layout -/

theorem over_continueLine (hindent : Over p "  ".toList) (hgoes : Over p " &&".toList)
    {parts : List Text} (h : ∀ part ∈ parts, Over p part) :
    ∀ line ∈ continueLine parts, Over p line := by
  fun_induction continueLine parts with
  | case1 => exact fun _ hmem => absurd hmem List.not_mem_nil
  | case2 part =>
    intro line hmem
    rw [List.mem_singleton.1 hmem]
    exact hindent.append (h part List.mem_cons_self)
  | case3 part next parts ih =>
    intro line hmem
    rcases List.mem_cons.1 hmem with rfl | hmem
    · exact (hindent.append (h part List.mem_cons_self)).append hgoes
    · exact ih (fun part hp => h part (List.mem_cons_of_mem _ hp)) line hmem

section

variable (hindent : Over p "  ".toList) (hgoes : Over p " &&".toList)

include hindent hgoes

theorem over_wrapLine {line : Text} (hline : Over p line) (width : Nat) :
    ∀ piece ∈ wrapLine width line, Over p piece := by
  intro piece hpiece
  rcases wrapLine_cases width line with hwhole | ⟨first, next, parts, -, hjoin, hbroken⟩
  · rw [hwhole] at hpiece
    rw [List.mem_singleton.1 hpiece]
    exact hline
  · have hparts := Text.over_of_mem_parts (hjoin ▸ hline)
    rw [hbroken] at hpiece
    rcases List.mem_cons.1 hpiece with rfl | hpiece
    · exact (hparts first List.mem_cons_self).append hgoes
    · exact over_continueLine hindent hgoes
        (fun part hp => hparts part (List.mem_cons_of_mem _ hp)) piece hpiece

/-- Breaking lines puts in blanks, ampersands and line feeds only. -/
theorem over_wrap (hbreak : Over p ['\n']) {s : Text} (hs : Over p s) (width : Nat) :
    Over p (wrap width s) := by
  refine Text.over_join hbreak fun piece hpiece => ?_
  obtain ⟨line, hline, hpiece⟩ := List.mem_flatMap.1 hpiece
  have hline : Over p line := by
    rw [← Text.join_fields '\n' s] at hs
    exact Text.over_of_mem_parts hs line hline
  exact over_wrapLine hindent hgoes hline width piece hpiece

end

end Script

end Unmask
