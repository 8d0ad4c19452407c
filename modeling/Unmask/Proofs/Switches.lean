import Unmask.Proofs.Leads
import Unmask.Proofs.Parts
import Unmask.Proofs.Pieces
import Unmask.Proofs.ScriptAlphabets

/-!
# Switches for delayed expansion

Two readers look for the switch `/v` or `/v:on` in front of an assignment or a loop.  One cuts the
statement into words and goes on as long as a word is a switch or ends in the name of the command
interpreter.  The other one is the grammar of leads, whose items may stand close together.  They find
the same: each item of a lead is passed over by the words, or is a switch and a word of its own, and
the keyword behind the lead is a word that ends the search.

    first?_eq_some_iff              the grammar of one item
    isLead_iff                      the grammar of a lead
    holdsDelayedSwitch_append       what the words of a lead hold
    holdsDelayedSwitch_first_iff    what the words of a statement hold
-/

namespace Unmask

/-! ## Words -/

namespace Text

theorem words_space {c : Char} (hc : isSpace c = true) (s : Text) : words (c :: s) = words s := by
  unfold words
  rw [fields, if_pos hc]
  rfl

theorem words_append {word s : Text} (hne : word ≠ []) (hword : ∀ c ∈ word, isSpace c = false)
    (hs : ∀ c ∈ s.head?, isSpace c = true) : words (word ++ s) = word :: words s := by
  have hfields : fields isSpace word = [word] := fields_eq_singleton hword
  cases s with
  | nil =>
    unfold words
    rw [List.append_nil, hfields]
    simp [hne, fields]
  | cons c s =>
    have hc : isSpace c = true := hs c rfl
    rw [words_space hc]
    unfold words
    rw [fields_append_stop hc, hfields]
    simp [hne]

end Text

namespace Script

/-! ## The grammar of an item -/

namespace LeadItem

/-- How an item is written, and what has to follow it. -/
inductive Fits : LeadItem → (rest : Text) → Prop
  | mark {c : Char} (hc : Text.isBlank c = true ∨ c = '(' ∨ c = '@') (rest : Text) :
      Fits (.mark c) rest
  | switch {letter : Char} {rest : Text} (hletter : letter.isAlpha = true)
      (hrest : blankFollows rest = true) : Fits (.switch letter none) rest
  | valued {letter : Char} {value rest : Text} (hletter : letter.isAlpha = true) (hne : value ≠ [])
      (hvalue : ∀ c ∈ value, c.isAlphanum = true) (hrest : blankFollows rest = true) :
      Fits (.switch letter (some value)) rest
  | interpreter {directories : List Text} {name rest : Text}
      (hdirectories : ∀ d ∈ directories, d ≠ [] ∧ ∀ c ∈ d, isPathChar c = true)
      (hname : Text.asciiLower name ∈ interpreterNames) (hrest : blankFollows rest = true) :
      Fits (.interpreter (Text.join ['\\'] (directories ++ [name]))) rest

variable {item : LeadItem} {rest : Text}

theorem isPath_of_isAlphanum {c : Char} (h : c.isAlphanum = true) : isPath c = true := by
  rw [isPath, isPathChar, h]
  rfl

/-- A path holds no white space: its characters are printable and belong to ASCII. -/
theorem isSpace_of_isPath {c : Char} (h : isPath c = true) : Text.isSpace c = false := by
  have hclass : c.isAlphanum = true ∨ c ∈ ['_', '-', '.', ':', '\\'] := by
    simpa [isPath, isPathChar, or_assoc] using h
  rcases hclass with halnum | hmem
  · have hbounds := Text.isAlphanum_bounds halnum
    unfold Text.isSpace
    simp only [Bool.or_eq_false_iff, Bool.and_eq_false_iff, decide_eq_false_iff_not,
      beq_eq_false_iff_ne]
    omega
  · have hall : ['_', '-', '.', ':', '\\'].all (fun a => !Text.isSpace a) = true := by decide
    simpa using List.all_eq_true.1 hall c hmem

/-- A text whose lower-case form is made of path characters is made of them. -/
theorem isPathChar_of_asciiLower {s : Text} (h : ∀ c ∈ Text.asciiLower s, isPathChar c = true) :
    ∀ c ∈ s, isPathChar c = true := by
  intro c hc
  by_cases hupper : c.isUpper = true
  · have halnum : c.isAlphanum = true := by
      show (c.isUpper || c.isLower || c.isDigit) = true
      rw [hupper]
      rfl
    rw [isPathChar, halnum]
    rfl
  · have hsame : c.toLower = c := dif_neg fun h => hupper (decide_eq_true h)
    exact hsame ▸ h c.toLower (List.mem_map_of_mem hc)

theorem isPathChar_of_name {name : Text} (h : Text.asciiLower name ∈ interpreterNames) :
    name ≠ [] ∧ ∀ c ∈ name, isPathChar c = true := by
  have hnames : interpreterNames.all (fun s => !s.isEmpty && s.all isPathChar) = true := by decide
  have hname := List.all_eq_true.1 hnames _ h
  rw [Bool.and_eq_true, Bool.not_eq_true', List.isEmpty_eq_false_iff, List.all_eq_true] at hname
  exact ⟨fun hnil => hname.1 (by rw [hnil]; rfl), isPathChar_of_asciiLower hname.2⟩

theorem head_of_blankFollows {s : Text} (h : blankFollows s = true) :
    ∃ c t, s = c :: t ∧ Text.isBlank c = true := by
  cases s with
  | nil => cases h
  | cons c t => exact ⟨c, t, rfl, h⟩

theorem takeWhile_append_blank {p : Char → Bool} (hspace : p ' ' = false) (htab : p '\t' = false)
    {run rest : Text} (hrun : ∀ c ∈ run, p c = true) (hrest : blankFollows rest = true) :
    (run ++ rest).takeWhile p = run := by
  obtain ⟨c, t, rfl, hc⟩ := head_of_blankFollows hrest
  have hstop : p c = false := by
    simp only [Text.isBlank, Bool.or_eq_true, beq_iff_eq] at hc
    rcases hc with rfl | rfl <;> assumption
  rw [takeWhile_append_border fun a ha => Option.some.inj ha ▸ hstop]
  exact List.takeWhile_eq_self_iff.2 hrun

theorem exists_of_switch? {s : Text} (h : switch? s = some item) :
    ∃ letter value rest, item = .switch letter value ∧ '/' :: s = item.toText ++ rest ∧
      item.Fits rest := by
  cases s with
  | nil => cases h
  | cons letter s =>
    by_cases hcolon : ∃ t, s = ':' :: t
    · obtain ⟨t, rfl⟩ := hcolon
      rw [switch?_value] at h
      split at h
      · next hletter =>
        split at h
        · next hcond =>
          cases h
          rw [Bool.and_eq_true, Bool.not_eq_true', List.isEmpty_eq_false_iff] at hcond
          refine ⟨letter, _, t.drop (t.takeWhile Char.isAlphanum).length, rfl, ?_,
            .valued hletter hcond.1 (fun c hc => List.mem_takeWhile_imp hc) hcond.2⟩
          show '/' :: letter :: ':' :: t = '/' :: letter :: ':' :: (_ ++ _)
          rw [List.prefix_iff_eq_append.1 (List.takeWhile_prefix _)]
        · cases h
      · cases h
    · have hhead : s.head? ≠ some ':' := by
        intro hhead
        obtain ⟨t, rfl⟩ := List.head?_eq_some_iff.1 hhead
        exact hcolon ⟨t, rfl⟩
      rw [switch?_bare letter hhead] at h
      split at h
      · next hcond =>
        cases h
        rw [Bool.and_eq_true] at hcond
        exact ⟨letter, none, s, rfl, rfl, .switch hcond.1 hcond.2⟩
      · cases h

/-- The switch that is found is the one that the text spells. -/
theorem switch?_eq_some_iff {s : Text} :
    switch? s = some item ↔
      ∃ letter value rest, item = .switch letter value ∧ '/' :: s = item.toText ++ rest ∧
        item.Fits rest := by
  refine ⟨exists_of_switch?, ?_⟩
  rintro ⟨letter, value, rest, rfl, htext, hfits⟩
  cases hfits with
  | switch hletter hrest =>
    obtain rfl : s = letter :: rest := (List.cons.inj htext).2
    obtain ⟨c, t, rfl, hc⟩ := head_of_blankFollows hrest
    have hhead : (c :: t).head? ≠ some ':' := by
      intro hhead
      rw [Option.some.inj hhead] at hc
      cases hc
    rw [switch?_bare letter hhead, hletter, hrest]
    rfl
  | @valued letter value rest hletter hne hvalue hrest =>
    obtain rfl : s = letter :: ':' :: (value ++ rest) := (List.cons.inj htext).2
    rw [switch?_value, takeWhile_append_blank rfl rfl hvalue hrest, List.drop_left, hletter, hrest]
    simp [hne]

section

variable {directories : List Text} {name : Text}
  (hdirectories : ∀ d ∈ directories, d ≠ [] ∧ ∀ c ∈ d, isPathChar c = true)
  (hname : Text.asciiLower name ∈ interpreterNames)

include hdirectories hname

theorem over_parts : ∀ part ∈ directories ++ [name], Text.Over (isPathChar · = true) part := by
  intro part hpart
  rcases List.mem_append.1 hpart with hpart | hpart
  · exact (hdirectories part hpart).2
  · rw [List.mem_singleton.1 hpart]
    exact (isPathChar_of_name hname).2

theorem over_path : Text.Over (isPath · = true) (Text.join ['\\'] (directories ++ [name])) := by
  refine Text.over_join (fun c hc => ?_) fun part hpart c hc => ?_
  · rw [List.mem_singleton.1 hc]
    rfl
  · unfold isPath
    rw [over_parts hdirectories hname part hpart c hc, Bool.true_or]

end

/-- The command interpreter is called by a path that ends in its name. -/
theorem path_of_fits {path : Text} (h : (interpreter path).Fits rest) :
    path ≠ [] ∧ Text.Over (isPath · = true) path ∧
      (∃ name ∈ interpreterNames, name <:+ Text.asciiLower path) ∧ blankFollows rest = true := by
  cases h with
  | @interpreter directories name rest hdirectories hname hrest =>
    have hends : name <:+ Text.join ['\\'] (directories ++ [name]) := by
      by_cases hnil : directories = []
      · rw [hnil]
        exact List.suffix_rfl
      · rw [Text.join_append _ hnil (List.cons_ne_nil name [])]
        exact List.suffix_append _ _
    refine ⟨fun hpath => ?_, over_path hdirectories hname, ⟨_, hname, hends.map Char.toLower⟩, hrest⟩
    rw [hpath] at hends
    exact (isPathChar_of_name hname).1 (List.suffix_nil.1 hends)

theorem interpreter?_eq (s : Text) :
    interpreter? s =
      if (Text.fields (· == '\\') (s.takeWhile isPath)).dropLast.all (!·.isEmpty) &&
          ((Text.fields (· == '\\') (s.takeWhile isPath)).getLast?.any fun name =>
            interpreterNames.contains (Text.asciiLower name)) &&
          blankFollows (s.drop (s.takeWhile isPath).length) then
        some (.interpreter (s.takeWhile isPath))
      else none :=
  rfl

/-- The parts between the backslashes of the path are directories and a name. -/
theorem exists_of_interpreter? {s : Text} (h : interpreter? s = some item) :
    ∃ path rest, item = .interpreter path ∧ s = path ++ rest ∧ item.Fits rest := by
  rw [interpreter?_eq] at h
  split at h
  · next hcond =>
    cases h
    rw [Bool.and_eq_true, Bool.and_eq_true, Option.any_eq_true, List.all_eq_true] at hcond
    obtain ⟨⟨hdirectories, name, hlast, hname⟩, hrest⟩ := hcond
    obtain ⟨directories, hparts⟩ := List.getLast?_eq_some_iff.1 hlast
    have hjoin := Text.join_fields '\\' (s.takeWhile isPath)
    rw [hparts] at hjoin hdirectories
    rw [List.dropLast_concat] at hdirectories
    refine ⟨_, _, rfl, (List.prefix_iff_eq_append.1 (List.takeWhile_prefix isPath)).symm, ?_⟩
    rw [← hjoin]
    refine .interpreter (fun d hd => ⟨?_, fun c hc => ?_⟩) (List.contains_iff_mem.1 hname) ?_
    · simpa using hdirectories d hd
    · obtain ⟨hmem, hslash⟩ := Text.mem_of_mem_fields (hparts ▸ List.mem_append_left [name] hd) hc
      have hpath : isPath c = true := List.mem_takeWhile_imp hmem
      unfold isPath at hpath
      rwa [hslash, Bool.or_false] at hpath
    · rw [hjoin]
      exact hrest
  · cases h

theorem interpreter?_eq_some_iff {s : Text} :
    interpreter? s = some item ↔
      ∃ path rest, item = .interpreter path ∧ s = path ++ rest ∧ item.Fits rest := by
  refine ⟨exists_of_interpreter?, ?_⟩
  rintro ⟨path, rest, rfl, rfl, hfits⟩
  cases hfits with
  | @interpreter directories name rest hdirectories hname hrest =>
    have hfields : Text.fields (· == '\\') (Text.join ['\\'] (directories ++ [name])) =
        directories ++ [name] := by
      refine Text.fields_join (List.concat_ne_nil name directories) fun part hpart c hc => ?_
      rintro rfl
      cases over_parts hdirectories hname part hpart '\\' hc
    have hdirs : directories.all (fun d => !d.isEmpty) = true := by
      simp only [List.all_eq_true, Bool.not_eq_true', List.isEmpty_eq_false_iff]
      exact fun d hd => (hdirectories d hd).1
    rw [interpreter?_eq, takeWhile_append_blank rfl rfl (over_path hdirectories hname) hrest,
      hfields, List.drop_left, hrest, List.dropLast_concat, hdirs, List.getLast?_concat,
      Option.any_some, List.contains_iff_mem.2 hname]
    rfl

theorem first?_path {c : Char} (hc : isPath c = true) (s : Text) :
    first? c s = interpreter? (c :: s) := by
  have hother : ∀ a : Char, isPath a = false → c ≠ a := by
    rintro a ha rfl
    rw [hc] at ha
    cases ha
  have hmark : (Text.isBlank c || c == '(' || c == '@') = false := by
    simp only [Text.isBlank, Bool.or_eq_false_iff, beq_eq_false_iff_ne]
    exact ⟨⟨⟨hother ' ' rfl, hother '\t' rfl⟩, hother '(' rfl⟩, hother '@' rfl⟩
  unfold first?
  rw [hmark, if_neg Bool.false_ne_true, if_neg (hother '/' rfl)]

/-- The item at the head of a text is the one that the text spells. -/
theorem first?_eq_some_iff {c : Char} {s : Text} :
    first? c s = some item ↔ ∃ rest, c :: s = item.toText ++ rest ∧ item.Fits rest := by
  constructor
  · intro h
    unfold first? at h
    split at h
    · next hmark =>
      cases h
      simp only [Bool.or_eq_true, beq_iff_eq, or_assoc] at hmark
      exact ⟨s, rfl, .mark hmark s⟩
    · split at h
      · next hslash =>
        obtain ⟨letter, value, rest, -, htext, hfits⟩ := switch?_eq_some_iff.1 h
        exact ⟨rest, hslash ▸ htext, hfits⟩
      · obtain ⟨path, rest, rfl, htext, hfits⟩ := interpreter?_eq_some_iff.1 h
        exact ⟨rest, htext, hfits⟩
  · rintro ⟨rest, htext, hfits⟩
    cases item with
    | mark a =>
      obtain rfl : c = a := (List.cons.inj htext).1
      cases hfits with
      | mark ha =>
        refine if_pos ?_
        simp only [Bool.or_eq_true, beq_iff_eq, or_assoc]
        exact ha
    | switch letter value =>
      have hslash : '/' = c := by cases value <;> exact (List.cons.inj htext).1.symm
      subst hslash
      exact switch?_eq_some_iff.2 ⟨letter, value, rest, rfl, htext, hfits⟩
    | interpreter path =>
      obtain ⟨hne, hpath, -⟩ := path_of_fits hfits
      have hc : isPath c = true := by
        cases path with
        | nil => exact absurd rfl hne
        | cons a path =>
          obtain rfl : c = a := (List.cons.inj htext).1
          exact hpath c List.mem_cons_self
      rw [first?_path hc]
      exact interpreter?_eq_some_iff.2 ⟨path, rest, rfl, htext, hfits⟩

theorem toText_ne_nil_of_fits (h : item.Fits rest) : item.toText ≠ [] := by
  cases item with
  | mark c => exact List.cons_ne_nil _ _
  | switch letter value => cases value <;> exact List.cons_ne_nil _ _
  | interpreter path => exact (path_of_fits h).1

/-- A switch that turns delayed expansion on, in any letter case. -/
def isDelayedSwitch : LeadItem → Bool
  | item@(.switch _ _) => ["/v".toList, "/v:on".toList].contains (Text.asciiLower item.toText)
  | _ => false

end LeadItem

/-! ## Words in front of a keyword -/

theorem holdsDelayedSwitch_mark {c : Char} (hc : c = '(' ∨ c = '@') (word : Text)
    (words : List Text) :
    holdsDelayedSwitch ((c :: word) :: words) = holdsDelayedSwitch (word :: words) := by
  have hmark : (c == '(' || c == '@') = true := by
    rcases hc with rfl | rfl <;> rfl
  have hdrop : (c :: word).dropWhile (fun c => c == '(' || c == '@') =
      word.dropWhile fun c => c == '(' || c == '@' := List.dropWhile_cons_of_pos hmark
  unfold holdsDelayedSwitch
  rw [hdrop]

/-- A parenthesis or `@` does not count, whether it stands in front of a word or by itself. -/
theorem holdsDelayedSwitch_words_mark {c : Char} (hc : c = '(' ∨ c = '@') (s : Text) :
    holdsDelayedSwitch (Text.words (c :: s)) = holdsDelayedSwitch (Text.words s) := by
  have hspace : Text.isSpace c = false := by
    rcases hc with rfl | rfl <;> decide
  obtain ⟨word, parts, hs⟩ := List.exists_cons_of_ne_nil (Text.fields_ne_nil Text.isSpace s)
  have hmarked : Text.words (c :: s) = (c :: word) :: parts.filter (!·.isEmpty) := by
    unfold Text.words
    rw [Text.fields, if_neg (by simp [hspace]), hs]
    rfl
  rw [hmarked, holdsDelayedSwitch_mark hc]
  unfold Text.words
  rw [hs]
  by_cases hword : word = []
  · subst hword
    rfl
  · rw [List.filter_cons_of_pos (by simp [hword])]

theorem holdsDelayedSwitch_slash (switch : Text) (words : List Text) :
    holdsDelayedSwitch (('/' :: switch) :: words) =
      (["/v".toList, "/v:on".toList].contains (Text.asciiLower ('/' :: switch)) ||
        holdsDelayedSwitch words) := by
  have hdrop : ('/' :: switch).dropWhile (fun c => c == '(' || c == '@') = '/' :: switch := rfl
  have hlower : Text.asciiLower ('/' :: switch) = '/' :: Text.asciiLower switch := rfl
  rw [holdsDelayedSwitch, hdrop, hlower]
  generalize Text.asciiLower switch = t
  by_cases ht : t = "v".toList ∨ t = "v:on".toList
  · rcases ht with rfl | rfl <;> rfl
  · have hnot : ["/v".toList, "/v:on".toList].contains ('/' :: t) = false := by
      rw [not_or] at ht
      simpa using ht
    rw [hnot, Bool.false_or]
    split
    · rfl
    · exact if_neg ht

theorem dropWhile_mark {word : Text} (h : ∀ c ∈ word.head?, c ≠ '(' ∧ c ≠ '@') :
    word.dropWhile (fun c => c == '(' || c == '@') = word := by
  cases word with
  | nil => rfl
  | cons c word =>
    obtain ⟨hopen, hat⟩ := h c rfl
    exact List.dropWhile_cons_of_neg (by simp [hopen, hat])

theorem holdsDelayedSwitch_path {path : Text} (hpath : Text.Over (LeadItem.isPath · = true) path)
    (hname : ∃ name ∈ LeadItem.interpreterNames, name <:+ Text.asciiLower path)
    (words : List Text) : holdsDelayedSwitch (path :: words) = holdsDelayedSwitch words := by
  have hends : ("cmd".toList.isSuffixOf (Text.asciiLower path) ||
      "cmd.exe".toList.isSuffixOf (Text.asciiLower path)) = true := by
    rw [Bool.or_eq_true, List.isSuffixOf_iff_suffix, List.isSuffixOf_iff_suffix]
    obtain ⟨name, hname, hsuffix⟩ := hname
    simp only [LeadItem.interpreterNames, List.mem_cons, List.not_mem_nil, or_false] at hname
    rcases hname with rfl | rfl
    · exact Or.inl hsuffix
    · exact Or.inr hsuffix
  have hhead : ∀ c ∈ path.head?, c ≠ '(' ∧ c ≠ '@' := by
    intro c hc
    have hpath := hpath c (List.mem_of_mem_head? hc)
    constructor <;> rintro rfl <;> cases hpath
  rw [holdsDelayedSwitch, dropWhile_mark hhead, Bool.or_assoc, hends, Bool.or_true, if_pos rfl]

/-- The keyword of an assignment or a loop ends the search. -/
theorem holdsDelayedSwitch_keyword {keyword : Text}
    (h : Text.asciiLower keyword ∈ ["for".toList, "set".toList]) (words : List Text) :
    holdsDelayedSwitch (keyword :: words) = false := by
  have hhead : ∀ c ∈ keyword.head?, c ≠ '(' ∧ c ≠ '@' := by
    intro c hc
    obtain ⟨s, rfl⟩ := List.head?_eq_some_iff.1 hc
    constructor <;> rintro rfl <;> simp [Text.asciiLower] at h
  rw [holdsDelayedSwitch, dropWhile_mark hhead]
  generalize Text.asciiLower keyword = word at h
  simp only [List.mem_cons, List.not_mem_nil, or_false] at h
  rcases h with rfl | rfl <;> rfl

/-! ## The grammar of a lead -/

/-- The items at the head of a text, one after the other, up to where no item stands. -/
inductive IsLead : Text → List LeadItem → (rest : Text) → Prop
  | done {s : Text}
      (h : ∀ (item : LeadItem) (rest : Text), s = item.toText ++ rest → ¬ item.Fits rest) :
      IsLead s [] s
  | next {item : LeadItem} {items : List LeadItem} {s rest : Text} (hitem : item.Fits s)
      (h : IsLead s items rest) : IsLead (item.toText ++ s) (item :: items) rest

/-- The items that are read are the ones that stand at the head. -/
theorem IsLead.eq {s rest : Text} {items : List LeadItem} (h : IsLead s items rest) :
    items = lead s ∧ s = leadText items ++ rest := by
  induction h with
  | @done s h =>
    refine ⟨?_, rfl⟩
    cases s with
    | nil => rw [lead]
    | cons c s =>
      cases hfirst : LeadItem.first? c s with
      | none => rw [lead, hfirst]
      | some item =>
        obtain ⟨rest, htext, hfits⟩ := LeadItem.first?_eq_some_iff.1 hfirst
        exact absurd hfits (h item rest htext)
  | @next item items s rest hitem h ih =>
    have hne := LeadItem.toText_ne_nil_of_fits hitem
    refine ⟨?_, by rw [leadText, List.flatMap_cons, List.append_assoc]; exact congrArg _ ih.2⟩
    obtain ⟨c, t, hcons⟩ := List.exists_cons_of_ne_nil (List.append_ne_nil_of_left_ne_nil hne s)
    have hfirst : LeadItem.first? c t = some item :=
      LeadItem.first?_eq_some_iff.2 ⟨s, hcons.symm, hitem⟩
    rw [hcons, lead, hfirst]
    dsimp only
    rw [Text.drop_pred_length hne hcons, ← ih.1]

/-- What is read is a lead. -/
theorem isLead_lead {s rest : Text} (htext : s = leadText (lead s) ++ rest) :
    IsLead s (lead s) rest := by
  induction s using lead.induct with
  | case1 =>
    rw [lead] at htext ⊢
    rw [show rest = [] from htext.symm]
    exact .done fun item rest' hs hfits =>
      LeadItem.toText_ne_nil_of_fits hfits (List.append_eq_nil_iff.1 hs.symm).1
  | case2 c s hnone =>
    rw [lead, hnone] at htext ⊢
    rw [show rest = c :: s from htext.symm]
    refine .done fun item rest' hs hfits => ?_
    have hsome := LeadItem.first?_eq_some_iff.2 ⟨rest', hs, hfits⟩
    rw [hnone] at hsome
    cases hsome
  | case3 c s item hsome ih =>
    obtain ⟨rest', hs, hfits⟩ := LeadItem.first?_eq_some_iff.1 hsome
    have hdrop := Text.drop_pred_length (LeadItem.toText_ne_nil_of_fits hfits) hs.symm
    rw [lead, hsome] at htext ⊢
    dsimp only at htext ⊢
    rw [hdrop] at htext ih ⊢
    rw [hs] at htext ⊢
    rw [leadText, List.flatMap_cons, List.append_assoc] at htext
    exact .next hfits (ih (List.append_cancel_left htext))

theorem isLead_iff {s rest : Text} {items : List LeadItem} :
    IsLead s items rest ↔ items = lead s ∧ s = leadText items ++ rest := by
  refine ⟨IsLead.eq, ?_⟩
  rintro ⟨rfl, htext⟩
  exact isLead_lead htext

/-! ## What a lead holds -/

namespace LeadItem

section
variable {rest s : Text} (hrest : blankFollows rest = true)
  (hs : blankFollows rest = true → blankFollows s = true)

include hrest hs

theorem words_item {word : Text} (hne : word ≠ [])
    (hchars : ∀ c ∈ word, isPath c = true ∨ c = '/') :
    Text.words (word ++ s) = word :: Text.words s := by
  refine Text.words_append hne (fun c hc => ?_) fun c hc => ?_
  · rcases hchars c hc with hpath | rfl
    · exact isSpace_of_isPath hpath
    · rfl
  · obtain ⟨a, t, rfl, ha⟩ := head_of_blankFollows (hs hrest)
    exact Option.some.inj hc ▸ Text.isSpace_of_isBlank ha

theorem holdsDelayedSwitch_words_slash (switch : Text) (hchars : ∀ c ∈ switch, isPath c = true) :
    holdsDelayedSwitch (Text.words ('/' :: switch ++ s)) =
      (["/v".toList, "/v:on".toList].contains (Text.asciiLower ('/' :: switch)) ||
        holdsDelayedSwitch (Text.words s)) := by
  have hword : ∀ c ∈ '/' :: switch, isPath c = true ∨ c = '/' := by
    intro c hc
    rcases List.mem_cons.1 hc with rfl | hc
    · exact Or.inr rfl
    · exact Or.inl (hchars c hc)
  rw [words_item hrest hs (List.cons_ne_nil '/' switch) hword, holdsDelayedSwitch_slash]

end

/-- An item is passed over by the words, or is a switch and a word of its own. -/
theorem Fits.holdsDelayedSwitch_append {item : LeadItem} {rest : Text} (h : item.Fits rest)
    {s : Text} (hs : blankFollows rest = true → blankFollows s = true) :
    holdsDelayedSwitch (Text.words (item.toText ++ s)) =
      (item.isDelayedSwitch || holdsDelayedSwitch (Text.words s)) := by
  cases h with
  | @mark c hc =>
    show holdsDelayedSwitch (Text.words (c :: s)) = _
    rcases hc with hblank | hmark
    · rw [Text.words_space (Text.isSpace_of_isBlank hblank)]
      rfl
    · rw [holdsDelayedSwitch_words_mark hmark]
      rfl
  | @switch letter rest hletter hrest =>
    refine holdsDelayedSwitch_words_slash hrest hs [letter] fun c hc => ?_
    rw [List.mem_singleton.1 hc]
    exact isPath_of_isAlphanum (Bool.or_eq_true_iff.2 (Or.inl hletter))
  | @valued letter value rest hletter hne hvalue hrest =>
    refine holdsDelayedSwitch_words_slash hrest hs (letter :: ':' :: value) fun c hc => ?_
    rcases List.mem_cons.1 hc with rfl | hc
    · exact isPath_of_isAlphanum (Bool.or_eq_true_iff.2 (Or.inl hletter))
    · rcases List.mem_cons.1 hc with rfl | hc
      · rfl
      · exact isPath_of_isAlphanum (hvalue c hc)
  | @interpreter directories name rest hdirectories hname hrest =>
    obtain ⟨hne, hpath, hends, -⟩ := path_of_fits (.interpreter hdirectories hname hrest)
    show holdsDelayedSwitch (Text.words (Text.join _ _ ++ s)) = _
    rw [words_item hrest hs hne fun c hc => Or.inl (hpath c hc), holdsDelayedSwitch_path hpath hends]
    rfl

end LeadItem

variable {s rest : Text} {items : List LeadItem}

/-- Where a blank stands at the head of a text, it is the first item of the lead. -/
theorem IsLead.blankFollows_append (h : IsLead s items rest)
    (hs : LeadItem.blankFollows s = true) (t : Text) :
    LeadItem.blankFollows (leadText items ++ t) = true := by
  cases h with
  | done hnone =>
    obtain ⟨c, s, rfl, hc⟩ := LeadItem.head_of_blankFollows hs
    exact absurd (.mark (.inl hc) s) (hnone (.mark c) s rfl)
  | @next item items s rest hitem h =>
    obtain ⟨c, text, hitemText⟩ :=
      List.exists_cons_of_ne_nil (LeadItem.toText_ne_nil_of_fits hitem)
    rw [hitemText] at hs
    rw [leadText, List.flatMap_cons, hitemText]
    exact hs

/-- The words of a lead hold what its items say, whatever stands behind it. -/
theorem IsLead.holdsDelayedSwitch_append (h : IsLead s items rest) (t : Text) :
    holdsDelayedSwitch (Text.words (leadText items ++ t)) =
      (items.any LeadItem.isDelayedSwitch || holdsDelayedSwitch (Text.words t)) := by
  induction h with
  | done => rfl
  | @next item items s rest hitem h ih =>
    have hblank : LeadItem.blankFollows s = true →
        LeadItem.blankFollows (leadText items ++ t) = true := fun hs => h.blankFollows_append hs t
    rw [leadText, List.flatMap_cons, List.append_assoc]
    show holdsDelayedSwitch (Text.words (item.toText ++ (leadText items ++ t))) = _
    rw [hitem.holdsDelayedSwitch_append hblank, ih, List.any_cons, Bool.or_assoc]

/-! ## Statements -/

theorem text_first_of_found {word : String} {read? : Text → Option (Form × Text)}
    {found : Form × Text} (hword : word.toList ∈ ["for".toList, "set".toList])
    (hlower : Text.asciiLower word.toList = word.toList)
    (hread : ∀ {t rest : Text} {form : Form}, read? t = some (form, rest) → rest <:+ t)
    (hfound : ((dropKeyword? word (s.drop (leadText (lead s)).length)).bind dropBlanks?).bind read? =
      some found) (hform : readForm s = found) :
    ∃ keyword blank t, (Statement.first s).text = leadText (lead s) ++ (keyword ++ blank :: t) ∧
      Text.asciiLower keyword ∈ ["for".toList, "set".toList] ∧ Text.isBlank blank = true := by
  obtain ⟨form, rest⟩ := found
  obtain ⟨t, ht, hfound⟩ := Option.bind_eq_some_iff.1 hfound
  obtain ⟨u, hu, hblanks⟩ := Option.bind_eq_some_iff.1 ht
  obtain ⟨keyword, hdrop, hsame⟩ := dropKeyword?_eq_some hu
  obtain ⟨blank, blanks, rfl, hblank⟩ := dropBlanks?_eq_cons hblanks
  obtain ⟨start, rfl⟩ := hread hfound
  refine ⟨keyword, blank, blanks ++ start, ?_, ?_, hblank blank List.mem_cons_self⟩
  · have hs : leadText (lead s) ++ (keyword ++ (blank :: blanks ++ (start ++ rest))) = s := by
      rw [← hdrop]
      exact List.prefix_iff_eq_append.1 (leadText_isPrefix s).1
    have htext := (text_first_append s).trans hs.symm
    rw [hform] at htext
    refine List.append_cancel_right (htext.trans ?_)
    simp only [List.append_assoc, List.cons_append]
  · rw [hsame, hlower]
    exact hword

/-- Behind the lead of an assignment or a loop stand its keyword and a blank. -/
theorem text_first_of_readForm (h : (readForm s).1 ≠ .command) :
    ∃ keyword blank t, (Statement.first s).text = leadText (lead s) ++ (keyword ++ blank :: t) ∧
      Text.asciiLower keyword ∈ ["for".toList, "set".toList] ∧ Text.isBlank blank = true := by
  have hform := readForm.eq_1 s
  cases hfor : ((dropKeyword? "for" (s.drop (leadText (lead s)).length)).bind dropBlanks?).bind
      (readLoop? (isGrouped (lead s))) with
  | some found =>
    rw [hfor] at hform
    exact text_first_of_found (by decide) rfl (fun h => (readLoop?_rest h).1) hfor hform
  | none =>
    cases hset : ((dropKeyword? "set" (s.drop (leadText (lead s)).length)).bind dropBlanks?).bind
        (readAssignment? (isGrouped (lead s))) with
    | some found =>
      rw [hfor, hset] at hform
      exact text_first_of_found (by decide) rfl (fun h => (readAssignment?_rest h).1) hset hform
    | none =>
      rw [hfor, hset] at hform
      exact absurd (congrArg Prod.fst hform) h

/-- The keyword of an assignment or a loop ends the search for a switch. -/
theorem holdsDelayedSwitch_words_keyword {keyword : Text} {blank : Char}
    (hkeyword : Text.asciiLower keyword ∈ ["for".toList, "set".toList])
    (hblank : Text.isBlank blank = true) (t : Text) :
    holdsDelayedSwitch (Text.words (keyword ++ blank :: t)) = false := by
  have hwords : ["for".toList, "set".toList].all
      (fun word => !word.isEmpty && word.all LeadItem.isPathChar) = true := by decide
  have hword := List.all_eq_true.1 hwords _ hkeyword
  rw [Bool.and_eq_true, Bool.not_eq_true', List.isEmpty_eq_false_iff, List.all_eq_true] at hword
  obtain ⟨hne, hlower⟩ := hword
  have hchars : ∀ c ∈ keyword, Text.isSpace c = false := by
    intro c hc
    have hpath : LeadItem.isPath c = true := by
      rw [LeadItem.isPath, LeadItem.isPathChar_of_asciiLower hlower c hc, Bool.true_or]
    exact LeadItem.isSpace_of_isPath hpath
  have hspace : ∀ c ∈ (blank :: t).head?, Text.isSpace c = true := fun c hc =>
    Option.some.inj hc ▸ Text.isSpace_of_isBlank hblank
  rw [Text.words_append (fun hnil => hne (by rw [hnil]; rfl)) hchars hspace]
  exact holdsDelayedSwitch_keyword hkeyword _

/--
In front of an assignment or a loop the words find a switch for delayed expansion exactly if there is
one among the items of the lead.  What stands behind the lead does not count.
-/
theorem holdsDelayedSwitch_first_iff (h : (readForm s).1 ≠ .command) :
    (holdsDelayedSwitch (Text.words (Statement.first s).text) = true ↔
      ∃ items rest, IsLead s items rest ∧ ∃ item ∈ items, item.isDelayedSwitch = true) ∧
    holdsDelayedSwitch (Text.words (Statement.first s).text) =
      holdsDelayedSwitch (Text.words (leadText (lead s))) := by
  have hlead : IsLead s (lead s) (s.drop (leadText (lead s)).length) :=
    isLead_iff.2 ⟨rfl, (List.prefix_iff_eq_append.1 (leadText_isPrefix s).1).symm⟩
  obtain ⟨keyword, blank, t, htext, hkeyword, hblank⟩ := text_first_of_readForm h
  have hfirst : holdsDelayedSwitch (Text.words (Statement.first s).text) =
      (lead s).any LeadItem.isDelayedSwitch := by
    rw [htext, hlead.holdsDelayedSwitch_append,
      holdsDelayedSwitch_words_keyword hkeyword hblank, Bool.or_false]
  have halone : holdsDelayedSwitch (Text.words (leadText (lead s))) =
      (lead s).any LeadItem.isDelayedSwitch := by
    have hnil := hlead.holdsDelayedSwitch_append []
    rw [List.append_nil] at hnil
    exact hnil.trans (Bool.or_false _)
  refine ⟨?_, hfirst.trans halone.symm⟩
  rw [hfirst, List.any_eq_true]
  constructor
  · rintro ⟨item, hitem, hdelayed⟩
    exact ⟨lead s, _, hlead, item, hitem, hdelayed⟩
  · rintro ⟨items, rest, hitems, item, hitem, hdelayed⟩
    obtain ⟨rfl, -⟩ := isLead_iff.1 hitems
    exact ⟨item, hitem, hdelayed⟩

/-- Behind brackets the interpreter is called with the switch; the value holds another one. -/
theorem holdsDelayedSwitch_first_glued :
    let s := "@(C:\\x\\CMD.exe (/V:ON /c set a=/v:off".toList
    (readForm s).1 ≠ .command ∧ holdsDelayedSwitch (Text.words (Statement.first s).text) = true ∧
      ∃ items rest, IsLead s items rest ∧ ∃ item ∈ items, item.isDelayedSwitch = true := by
  intro s
  have hform : (readForm s).1 ≠ .command := by decide +kernel
  have hholds : holdsDelayedSwitch (Text.words (Statement.first s).text) = true := by
    decide +kernel
  exact ⟨hform, hholds, (holdsDelayedSwitch_first_iff hform).1.1 hholds⟩

end Script

end Unmask
