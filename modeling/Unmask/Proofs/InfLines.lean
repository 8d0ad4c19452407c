import Unmask.InfFile.Line
import Unmask.Proofs.Pieces

/-!
# Lines, headers and entries

A file is cut into lines at LF, CR LF and CR, and each of its lines is a header, an entry or text.
Here all of that is said of the text itself, without a reader.

    cut_iff               there is one way to cut a text into lines
    read_eq_header_iff    which lines open a section
    read_eq_entry_iff     which lines hold a key and a value
    unquotes_iff          what is left of a value
-/

namespace Unmask

namespace Text

/-! ## Lines -/

def IsLine (line : Text) : Prop :=
  Over (isBreak · = false) line

/-- The lines of a text; a carriage return in front of a line feed is one line break with it. -/
inductive Cut : Text → List Text → Prop
  | last {line : Text} (hline : IsLine line) : Cut line [line]
  | lineFeed {line rest : Text} {lines : List Text} (hline : IsLine line) (hrest : Cut rest lines) :
      Cut (line ++ '\n' :: rest) (line :: lines)
  | both {line rest : Text} {lines : List Text} (hline : IsLine line) (hrest : Cut rest lines) :
      Cut (line ++ '\r' :: '\n' :: rest) (line :: lines)
  | carriageReturn {line rest : Text} {lines : List Text} (hline : IsLine line)
      (hfeed : rest.head? ≠ some '\n') (hrest : Cut rest lines) :
      Cut (line ++ '\r' :: rest) (line :: lines)

theorem IsLine.cons {c : Char} {line : Text} (hc : isBreak c = false) (hline : IsLine line) :
    IsLine (c :: line) := by
  intro a ha
  rcases List.mem_cons.1 ha with rfl | ha
  · exact hc
  · exact hline a ha

theorem IsLine.head?_append_ne {line : Text} (hline : IsLine line) (hne : line ≠ []) (rest : Text) :
    (line ++ rest).head? ≠ some '\n' := by
  rw [List.head?_append_of_ne_nil _ hne]
  intro h
  exact absurd (hline '\n' (List.mem_of_mem_head? h)) (by decide)

theorem lines_cons {c : Char} (hc : isBreak c = false) (s : Text) :
    lines (c :: s) = consFirst c (lines s) := by
  have hreturn : ∀ t, c = '\r' → s = '\n' :: t → False := by
    rintro t rfl -
    exact absurd hc (by decide)
  rw [lines.eq_3 c s hreturn, if_neg (by simp [hc])]

theorem lines_break {c : Char} {s : Text} (hc : isBreak c = true)
    (hfeed : c = '\r' → s.head? ≠ some '\n') : lines (c :: s) = [] :: lines s := by
  have hreturn : ∀ t, c = '\r' → s = '\n' :: t → False := by
    rintro t hc rfl
    exact hfeed hc rfl
  rw [lines.eq_3 c s hreturn, if_pos hc]

/-- Behind the characters of a line stands a line break or nothing. -/
theorem lines_append {line s : Text} {tail : List Text} (hline : IsLine line)
    (hs : lines s = [] :: tail) : lines (line ++ s) = line :: tail := by
  induction line with
  | nil => exact hs
  | cons c line ih =>
    rw [List.cons_append, lines_cons (hline c List.mem_cons_self),
      ih fun a ha => hline a (List.mem_cons_of_mem c ha)]
    rfl

theorem Cut.cons {c : Char} {s : Text} {lines : List Text} (hc : isBreak c = false)
    (h : Cut s lines) : Cut (c :: s) (consFirst c lines) := by
  cases h with
  | last hline => exact .last (hline.cons hc)
  | lineFeed hline hrest => exact .lineFeed (hline.cons hc) hrest
  | both hline hrest => exact .both (hline.cons hc) hrest
  | carriageReturn hline hfeed hrest => exact .carriageReturn (hline.cons hc) hfeed hrest

theorem cut_lines (s : Text) : Cut s (lines s) := by
  fun_induction lines s with
  | case1 => exact .last over_nil
  | case2 s ih => exact .both over_nil ih
  | case3 c s hreturn hbreak ih =>
    simp only [isBreak, Bool.or_eq_true, beq_iff_eq] at hbreak
    rcases hbreak with rfl | rfl
    · exact .lineFeed over_nil ih
    · refine .carriageReturn over_nil (fun hfeed => ?_) ih
      cases s with
      | nil => cases hfeed
      | cons d s => exact hreturn s rfl (by rw [Option.some.inj hfeed])
  | case4 c s hreturn hbreak ih => exact ih.cons (by simpa using hbreak)

theorem cut_iff {s : Text} {parts : List Text} : Cut s parts ↔ parts = lines s := by
  constructor
  · intro h
    induction h with
    | @last line hline =>
      have hlines := lines_append hline (s := []) rfl
      rw [List.append_nil] at hlines
      exact hlines.symm
    | lineFeed hline hrest ih =>
      rw [lines_append hline (lines_break rfl fun h => absurd h (by decide)), ih]
    | both hline hrest ih =>
      rw [lines_append hline (by rw [lines]), ih]
    | carriageReturn hline hfeed hrest ih =>
      rw [lines_append hline (lines_break rfl fun _ => hfeed), ih]
  · rintro rfl
    exact cut_lines s

/-! ## Quotes -/

/-- `inner` is what is left when one pair of quotes around a text is taken off, if there is one. -/
inductive Unquotes : Text → Text → Prop
  | quoted {q : Char} (hq : q = '"' ∨ q = '\'') (inner : Text) :
      Unquotes (q :: inner ++ [q]) inner
  | bare {s : Text} (hs : ∀ q, q = '"' ∨ q = '\'' → ∀ inner, s ≠ q :: inner ++ [q]) :
      Unquotes s s

theorem stripLast?_eq_some_iff {c : Char} {s rest : Text} :
    stripLast? c s = some rest ↔ s = rest ++ [c] := by
  constructor
  · intro h
    unfold stripLast? at h
    split at h
    · cases h
    · next d r hreverse =>
      split at h
      · next hd =>
        cases h
        rw [← hd, ← List.reverse_cons, ← hreverse, List.reverse_reverse]
      · cases h
  · rintro rfl
    rw [stripLast?, List.reverse_concat]
    exact (if_pos rfl).trans (congrArg some (List.reverse_reverse rest))

theorem unquote?_eq_some_iff {mark : Char} {s inner : Text} :
    unquote? mark s = some inner ↔ s = mark :: inner ++ [mark] := by
  cases s with
  | nil => simp [unquote?]
  | cons c s =>
    rw [unquote?, List.cons_append, List.cons.injEq]
    by_cases hc : c = mark
    · rw [if_pos hc, stripLast?_eq_some_iff, and_iff_right hc]
    · rw [if_neg hc]
      exact ⟨(by cases ·), fun h => absurd h.1 hc⟩

end Text

namespace InfFile

/-- A value loses the white space and one pair of quotes around it. -/
theorem unquotes_iff {value bare : Text} :
    Text.Unquotes (Text.trim value) bare ↔ bare = bareValue value := by
  unfold bareValue
  generalize Text.trim value = s
  dsimp only
  constructor
  · intro h
    cases h with
    | @quoted q hq inner =>
      have hinner : Text.unquote? q (q :: bare ++ [q]) = some bare := Text.unquote?_eq_some_iff.2 rfl
      -- double quotes are tried first, and between single quotes they find nothing
      rcases hq with rfl | rfl
      · rw [hinner]
        rfl
      · have hdouble : Text.unquote? '"' ('\'' :: bare ++ ['\'']) = none := rfl
        rw [hdouble, hinner]
        rfl
    | bare hs =>
      have hnone : ∀ q, q = '"' ∨ q = '\'' → Text.unquote? q bare = none := fun q hq =>
        Option.eq_none_iff_forall_ne_some.2 fun inner hinner =>
          hs q hq inner (Text.unquote?_eq_some_iff.1 hinner)
      rw [hnone '"' (Or.inl rfl), hnone '\'' (Or.inr rfl)]
      rfl
  · rintro rfl
    cases hdouble : Text.unquote? '"' s with
    | some inner =>
      rw [Text.unquote?_eq_some_iff.1 hdouble]
      exact .quoted (Or.inl rfl) inner
    | none =>
      cases hsingle : Text.unquote? '\'' s with
      | some inner =>
        rw [Text.unquote?_eq_some_iff.1 hsingle]
        exact .quoted (Or.inr rfl) inner
      | none =>
        refine .bare fun q hq inner hs => ?_
        have hinner := Text.unquote?_eq_some_iff.2 hs
        rcases hq with rfl | rfl
        · cases hdouble.symm.trans hinner
        · cases hsingle.symm.trans hinner

/-- The blanks behind the equals sign do not count for the value. -/
theorem bareValue_dropWhile (value : Text) :
    bareValue (value.dropWhile Text.isBlank) = bareValue value := by
  have htrim : Text.trim (value.dropWhile Text.isBlank) = Text.trim value := by
    conv => rhs; rw [← List.takeWhile_append_dropWhile (p := Text.isBlank) (l := value)]
    exact (Text.trim_space_append
      (fun c hc => Text.isSpace_of_isBlank (List.mem_takeWhile_imp hc)) _).symm
  unfold bareValue
  rw [htrim]

/-! ## Headers and entries -/

/-- A header is blanks, a text in brackets, and anything; its name is the text, trimmed. -/
def IsHeader (line name : Text) : Prop :=
  ∃ blanks inner rest, line = blanks ++ '[' :: (inner ++ ']' :: rest) ∧
    (∀ c ∈ blanks, Text.isBlank c = true) ∧ ']' ∉ inner ∧ name = Text.trim inner

/-- An entry is blanks, a key of word characters, blanks, an equals sign, and the value. -/
def IsEntry (line key value : Text) : Prop :=
  ∃ before after, line = before ++ (key ++ (after ++ '=' :: value)) ∧
    (∀ c ∈ before ++ after, Text.isBlank c = true) ∧
    key ≠ [] ∧ ∀ c ∈ key, LineForm.isKeyChar c = true

namespace LineForm

open Template.Fragment (eq_of_dropWhile takeWhile_append_mark)

theorem isKeyChar_of_isBlank {c : Char} (h : Text.isBlank c = true) : isKeyChar c = false := by
  simp only [Text.isBlank, Bool.or_eq_true, beq_iff_eq] at h
  rcases h with rfl | rfl <;> rfl

/-- The first of several characters that are no blanks is what stands behind the blanks. -/
theorem dropWhile_isEntry {before after key value : Text}
    (hblanks : ∀ c ∈ before ++ after, Text.isBlank c = true) (hne : key ≠ [])
    (hkey : ∀ c ∈ key, isKeyChar c = true) :
    (before ++ (key ++ (after ++ '=' :: value))).dropWhile Text.isBlank =
      key ++ (after ++ '=' :: value) := by
  rw [List.dropWhile_append_of_pos fun c hc => hblanks c (List.mem_append_left after hc)]
  obtain ⟨c, key, rfl⟩ := List.exists_cons_of_ne_nil hne
  refine List.dropWhile_cons_of_neg fun hc => ?_
  exact Bool.false_ne_true
    ((isKeyChar_of_isBlank hc).symm.trans (hkey c List.mem_cons_self))

theorem header?_eq_some_iff {line : Text} {form : LineForm} :
    header? line = some form ↔ ∃ name, IsHeader line name ∧ form = .header name := by
  constructor
  · intro h
    unfold header? at h
    split at h
    · next s hs =>
      dsimp only at h
      split at h
      · next hlength =>
        cases h
        have hline : line.takeWhile Text.isBlank ++ '[' :: s = line := by
          rw [← hs, List.takeWhile_append_dropWhile]
        -- the name is shorter than what stands behind the bracket, so something ended it
        obtain ⟨d, rest, hrest⟩ : ∃ d rest, s.dropWhile (· != ']') = d :: rest := by
          refine List.exists_cons_of_ne_nil fun hnil => ?_
          have hs := List.takeWhile_append_dropWhile (p := (· != ']')) (l := s)
          rw [hnil, List.append_nil] at hs
          rw [hs] at hlength
          exact Nat.lt_irrefl _ hlength
        obtain rfl := eq_of_dropWhile hrest
        refine ⟨_, ⟨line.takeWhile Text.isBlank, s.takeWhile (· != ']'), rest, ?_,
          fun c hc => List.mem_takeWhile_imp hc, fun hmem => ?_, rfl⟩, rfl⟩
        · rw [← hrest, List.takeWhile_append_dropWhile, hline]
        · exact absurd (List.mem_takeWhile_imp hmem) (by decide)
      · cases h
    · cases h
  · rintro ⟨name, ⟨blanks, inner, rest, rfl, hblanks, hinner, rfl⟩, rfl⟩
    have hinner : ∀ c ∈ inner, (c != ']') = true := fun c hc => by
      rw [bne_iff_ne]
      rintro rfl
      exact hinner hc
    have hclosing : (']' != ']') = false := rfl
    have hname := (takeWhile_append_mark hinner hclosing rest).1
    have hlength : inner.length < (inner ++ ']' :: rest).length := by
      rw [List.length_append, List.length_cons]
      omega
    unfold header?
    rw [(takeWhile_append_mark hblanks (by decide : Text.isBlank '[' = false) _).2]
    simp only [hname, if_pos hlength]

theorem entry?_eq_some_iff {line : Text} {form : LineForm} :
    entry? line = some form ↔ ∃ key value, IsEntry line key value ∧
      form = .entry key (value.dropWhile Text.isBlank) := by
  constructor
  · intro h
    unfold entry? at h
    dsimp only at h
    generalize hs : line.dropWhile Text.isBlank = s at h
    have hline : line.takeWhile Text.isBlank ++ s = line := by
      rw [← hs, List.takeWhile_append_dropWhile]
    split at h
    · cases h
    · next hempty =>
      split at h
      · next value hvalue =>
        cases h
        generalize hafter : s.drop (s.takeWhile isKeyChar).length = after at hvalue
        have hkey : s.takeWhile isKeyChar ++ after = s := by
          rw [← hafter]
          exact List.prefix_iff_eq_append.1 (List.takeWhile_prefix isKeyChar)
        refine ⟨s.takeWhile isKeyChar, value, ⟨line.takeWhile Text.isBlank,
          after.takeWhile Text.isBlank, ?_, fun c hc => ?_, fun hnil => ?_,
          fun c hc => List.mem_takeWhile_imp hc⟩, rfl⟩
        · rw [← hvalue, List.takeWhile_append_dropWhile, hkey, hline]
        · exact (List.mem_append.1 hc).elim (fun hc => List.mem_takeWhile_imp hc)
            fun hc => List.mem_takeWhile_imp hc
        · rw [hnil] at hempty
          exact hempty rfl
      · cases h
  · rintro ⟨key, value, ⟨before, after, rfl, hblanks, hne, hkey⟩, rfl⟩
    have hafter : ∀ c ∈ after, Text.isBlank c = true := fun c hc =>
      hblanks c (List.mem_append_right before hc)
    -- the key ends at a blank or at the equals sign, whichever comes first
    have hborder : ∀ c ∈ (after ++ '=' :: value).head?, isKeyChar c = false := by
      intro c hc
      cases after with
      | nil =>
        obtain rfl := Option.some.inj hc
        decide
      | cons a after =>
        obtain rfl := Option.some.inj hc
        exact isKeyChar_of_isBlank (hafter _ List.mem_cons_self)
    have htake : (key ++ (after ++ '=' :: value)).takeWhile isKeyChar = key := by
      rw [Script.LeadItem.takeWhile_append_border hborder, List.takeWhile_eq_self_iff.2 hkey]
    have hvalue := (takeWhile_append_mark hafter (by decide : Text.isBlank '=' = false) value).2
    unfold entry?
    dsimp only
    rw [dropWhile_isEntry hblanks hne hkey, htake, List.drop_left, hvalue]
    simp only [List.isEmpty_iff, if_neg hne]

theorem header?_of_isEntry {line key value : Text} (h : IsEntry line key value) :
    header? line = none := by
  obtain ⟨before, after, rfl, hblanks, hne, hkey⟩ := h
  unfold header?
  rw [dropWhile_isEntry hblanks hne hkey]
  split
  · next s hs =>
    obtain ⟨c, key, rfl⟩ := List.exists_cons_of_ne_nil hne
    obtain rfl := (List.cons.inj hs).1
    exact absurd (hkey '[' List.mem_cons_self) (by decide)
  · rfl

/-- A line is read as a header, else as an entry, else as text. -/
theorem read_cases (line : Text) :
    (∃ name, IsHeader line name ∧ read line = .header name) ∨
      (∃ key written, IsEntry line key written ∧
        read line = .entry key (written.dropWhile Text.isBlank)) ∨ read line = .text := by
  unfold read
  cases hheader : header? line with
  | some form =>
    obtain ⟨name, hname, rfl⟩ := header?_eq_some_iff.1 hheader
    exact Or.inl ⟨name, hname, rfl⟩
  | none =>
    cases hentry : entry? line with
    | some form =>
      obtain ⟨key, written, hwritten, rfl⟩ := entry?_eq_some_iff.1 hentry
      exact Or.inr (Or.inl ⟨key, written, hwritten, rfl⟩)
    | none => exact Or.inr (Or.inr rfl)

theorem read_eq_header_iff {line name : Text} :
    read line = .header name ↔ IsHeader line name := by
  constructor
  · intro h
    rcases read_cases line with ⟨name', hname, h'⟩ | ⟨key, written, -, h'⟩ | h'
    · obtain rfl := LineForm.header.inj (h.symm.trans h')
      exact hname
    · cases h.symm.trans h'
    · cases h.symm.trans h'
  · intro h
    rw [read, header?_eq_some_iff.2 ⟨name, h, rfl⟩]
    rfl

theorem read_eq_entry_iff {line key value : Text} :
    read line = .entry key value ↔
      ∃ written, IsEntry line key written ∧ value = written.dropWhile Text.isBlank := by
  constructor
  · intro h
    rcases read_cases line with ⟨name, -, h'⟩ | ⟨key', written, hwritten, h'⟩ | h'
    · cases h.symm.trans h'
    · obtain ⟨rfl, rfl⟩ := LineForm.entry.inj (h.symm.trans h')
      exact ⟨written, hwritten, rfl⟩
    · cases h.symm.trans h'
  · rintro ⟨written, hwritten, rfl⟩
    rw [read, header?_of_isEntry hwritten, entry?_eq_some_iff.2 ⟨key, written, hwritten, rfl⟩]
    rfl

end LineForm

end InfFile

end Unmask
