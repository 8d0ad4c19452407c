import Unmask.Proofs.Cuts
import Unmask.Proofs.InfReference
import Unmask.Proofs.RoundTrip

/-!
# Defining a string and using it

A file uses a key and gives it a value in a strings section further down.  Whatever the value is, if
each percent sign in it is written twice and it fits on one line, the output is the line with the
value in it: of the quotes around the value one pair is taken off, and of each two percent signs one.

    readsAsLiterals_doubled      doubled percent signs read as literal text
    reveal_useLine_stringLine    the whole run
-/

namespace Unmask

/-! ## Percent signs -/

def doubled (value : Text) : Text :=
  Text.replaceMark '%' ['%', '%'] value

namespace Template

open Fragment (cut)

/-- A text reads as literal texts that make up a value. -/
def ReadsAsLiterals (d : Dialect) (s value : Text) : Prop :=
  ∃ template, read d s = .ok template ∧ Literals template value

theorem ReadsAsLiterals.cons {d : Dialect} {s s' token text value : Text} {fragment : Fragment}
    (hcut : cut d s = fragment :: cut d s') (hread : fragment.read = .ok ⟨token, .literal text⟩)
    (h : ReadsAsLiterals d s' value) : ReadsAsLiterals d s (text ++ value) := by
  obtain ⟨template, htemplate, hliterals⟩ := h
  refine ⟨⟨token, .literal text⟩ :: template, ?_, hliterals.cons token text⟩
  unfold read at htemplate ⊢
  rw [hcut, List.mapM_cons, hread]
  exact bind_eq_ok.2 ⟨_, rfl, bind_eq_ok.2 ⟨_, htemplate, rfl⟩⟩

/-- Text without marks in front of a mark is one more literal text. -/
theorem ReadsAsLiterals.plain_append {d : Dialect} {run s value : Text}
    (hrun : ∀ c ∈ run, isMark d c = false) (hs : ∀ c ∈ s.head?, isMark d c = true)
    (h : ReadsAsLiterals d s value) : ReadsAsLiterals d (run ++ s) (run ++ value) := by
  by_cases hne : run = []
  · rw [hne]
    exact h
  · exact h.cons (Fragment.cut_plain_append hne hrun hs) rfl

theorem cut_escape (s : Text) : cut .inf ('%' :: '%' :: s) = .escape :: cut .inf s := by
  rw [cut]
  rfl

/-- Doubled percent signs read as single ones, and what stands between them as it is. -/
theorem readsAsLiterals_doubled (value : Text) : ReadsAsLiterals .inf (doubled value) value := by
  -- with the plain text in front that has been passed over
  suffices h : ∀ run : Text, (∀ c ∈ run, isMark .inf c = false) →
      ReadsAsLiterals .inf (run ++ doubled value) (run ++ value) from
    h [] fun c hc => absurd hc List.not_mem_nil
  unfold doubled
  induction value with
  | nil =>
    intro run hrun
    refine ReadsAsLiterals.plain_append hrun (fun c hc => by cases hc) ⟨[], ?_, .nil⟩
    rw [read, Text.replaceMark, List.flatMap_nil, cut]
    rfl
  | cons c value ih =>
    intro run hrun
    by_cases hc : c = '%'
    · subst hc
      rw [Text.replaceMark_mark]
      have hbehind := ih [] fun c hc => absurd hc List.not_mem_nil
      exact .plain_append hrun (fun c hc => Option.some.inj hc ▸ rfl)
        (hbehind.cons (cut_escape _) rfl)
    · have hrun' : ∀ a ∈ run ++ [c], isMark .inf a = false := by
        intro a ha
        rcases List.mem_append.1 ha with ha | ha
        · exact hrun a ha
        · rw [List.mem_singleton.1 ha]
          exact beq_eq_false_iff_ne.2 hc
      rw [Text.replaceMark_cons hc, List.append_cons, List.append_cons run c value]
      exact ih _ hrun'

end Template

namespace InfFile

open Script (lineBreaks mem_lineBreaks)

/-! ## The four lines -/

def useLine (key : Text) : Text :=
  ['<'] ++ ('%' :: key ++ ['%']) ++ ['>']

/-- A line that gives a key a value in quotes. -/
def stringLine (key value : Text) : Text :=
  key ++ '=' :: ('"' :: value ++ ['"'])

/-- The file that uses a key and gives it a value, with the line breaks behind its lines. -/
def stringFile (key value first second third last : Text) : Text :=
  "[Run]".toList ++ (first ++ (useLine key ++ (second ++ ("[Strings]".toList ++
    (third ++ (stringLine key value ++ last))))))

/-- The keys of entries. -/
structure IsKey (key : Text) : Prop where
  ne_nil : key ≠ []
  isKeyChar : ∀ c ∈ key, LineForm.isKeyChar c = true

theorem nameChar_of_isKeyChar {c : Char} (h : LineForm.isKeyChar c = true) :
    Template.isKeyChar c = true := by
  unfold LineForm.isKeyChar at h
  unfold Template.isKeyChar
  rw [h]
  rfl

theorem lines_append_lineBreak {line lineBreak rest : Text} (hline : Text.IsLine line)
    (hbreak : lineBreak ∈ lineBreaks) (hrest : rest.head? ≠ some '\n') :
    Text.lines (line ++ (lineBreak ++ rest)) = line :: Text.lines rest := by
  refine (Text.cut_iff.1 ?_).symm
  rcases mem_lineBreaks hbreak with rfl | rfl | rfl
  · exact .lineFeed hline (Text.cut_lines rest)
  · exact .both hline (Text.cut_lines rest)
  · exact .carriageReturn hline hrest (Text.cut_lines rest)

namespace IsKey

variable {key value : Text}

theorem isNameChar (h : IsKey key) : ∀ c ∈ key, Template.isKeyChar c = true :=
  fun c hc => nameChar_of_isKeyChar (h.isKeyChar c hc)

theorem named (h : IsKey key) : Template.Fragment.Named .inf '%' key :=
  ⟨rfl, h.ne_nil, h.isNameChar⟩

theorem isLine (h : IsKey key) : Text.IsLine key := by
  intro c hc
  cases hbreak : Text.isBreak c with
  | false => rfl
  | true =>
    have hkey := h.isKeyChar c hc
    simp only [Text.isBreak, Bool.or_eq_true, beq_iff_eq] at hbreak
    rcases hbreak with rfl | rfl <;> cases hkey

theorem read_stringLine (h : IsKey key) (value : Text) :
    LineForm.read (stringLine key value) = .entry key ('"' :: value ++ ['"']) :=
  LineForm.read_eq_entry_iff.2 ⟨'"' :: value ++ ['"'],
    ⟨[], [], rfl, (fun _ hc => absurd hc List.not_mem_nil), h.ne_nil, h.isKeyChar⟩, rfl⟩

end IsKey

theorem read_useLine (key : Text) : LineForm.read (useLine key) = .text :=
  rfl

theorem bareValue_quoted (value : Text) : bareValue ('"' :: value ++ ['"']) = value := by
  have htrim : Text.trim ('"' :: value ++ ['"']) = '"' :: value ++ ['"'] := by
    refine Text.trim_eq_self (fun c hc => Option.some.inj hc ▸ rfl) fun c hc => ?_
    rw [List.cons_append, ← List.cons_append, List.getLast?_concat] at hc
    exact Option.some.inj hc ▸ rfl
  refine (unquotes_iff.1 ?_).symm
  rw [htrim]
  exact .quoted (Or.inl rfl) value

/-- The lines of the file; an empty line follows where the last one has a line break. -/
theorem readLines_useLine_stringLine {key value first second third last : Text} (hkey : IsKey key)
    (hvalue : Text.IsLine value) (hfirst : first ∈ lineBreaks) (hsecond : second ∈ lineBreaks)
    (hthird : third ∈ lineBreaks) (hlast : last = [] ∨ last ∈ lineBreaks) :
    ∃ rest, (rest = [] ∨ rest = [⟨[], .text⟩]) ∧
      readLines (stringFile key value first second third last) =
        ⟨"[Run]".toList, .header "Run".toList⟩ :: ⟨useLine key, .text⟩ ::
          ⟨"[Strings]".toList, .header "Strings".toList⟩ ::
          ⟨stringLine key value, .entry key ('"' :: value ++ ['"'])⟩ :: rest := by
  have huse : Text.IsLine (useLine key) :=
    .append (.append (Text.over_of_all (by decide)) (.append (hkey.isLine.cons (by decide))
      (Text.over_of_all (by decide)))) (Text.over_of_all (by decide))
  have hstring : Text.IsLine (stringLine key value) :=
    hkey.isLine.append ((Text.IsLine.cons (by decide)
      (hvalue.append (Text.over_of_all (by decide)))).cons (by decide))
  have hrun : Text.IsLine "[Run]".toList := Text.over_of_all (by decide)
  have hstrings : Text.IsLine "[Strings]".toList := Text.over_of_all (by decide)
  have hlast : ∃ rest, (rest = [] ∨ rest = [[]]) ∧
      Text.lines (stringLine key value ++ last) = stringLine key value :: rest := by
    rcases hlast with rfl | hlast
    · exact ⟨[], Or.inl rfl, Text.lines_append hstring (s := []) rfl⟩
    · refine ⟨[[]], Or.inr rfl, ?_⟩
      rw [← List.append_nil last, lines_append_lineBreak hstring hlast (by decide)]
      rfl
  obtain ⟨rest, hrest, hlines⟩ := hlast
  have hfile : Text.lines (stringFile key value first second third last) =
      "[Run]".toList :: useLine key :: "[Strings]".toList :: stringLine key value :: rest := by
    refine (lines_append_lineBreak hrun hfirst (huse.head?_append_ne (List.cons_ne_nil _ _) _)).trans
      (congrArg _ ?_)
    rw [lines_append_lineBreak huse hsecond (hstrings.head?_append_ne (by decide) _),
      lines_append_lineBreak hstrings hthird
        (hstring.head?_append_ne (List.append_ne_nil_of_left_ne_nil hkey.ne_nil _) _), hlines]
  refine ⟨rest.map Line.read, ?_, ?_⟩
  · rcases hrest with rfl | rfl
    · exact Or.inl rfl
    · exact Or.inr rfl
  · rw [readLines, hfile]
    simp only [List.map_cons, Line.read, hkey.read_stringLine, read_useLine]
    rfl

theorem expand_header (scope : Expansion.Scope) (hinf : scope.dialect = .inf)
    (memory : Expansion.Memory) :
    scope.expand "[Run]".toList memory = .ok (⟨"[Run]".toList, false⟩, memory) := by
  have hread : Template.read scope.dialect "[Run]".toList =
      .ok [⟨"[Run]".toList, .literal "[Run]".toList⟩] := by
    rw [hinf]
    exact Template.read_plain (by decide) (Text.over_of_all (by decide))
  have hsize : Text.byteLength "[Run]".toList ≤ Expansion.limit := by decide
  simp only [Expansion.Scope.expand, Expansion.Scope.expandTemplate, hread, bind, Except.bind]
  rw [Expansion.Scope.expandPiecesWith_plain hsize]
  rfl

/-- The site on the second line becomes the value that the key was given last. -/
theorem expand_useLine {known : Expansion.Scope} {start : Definitions} {key value : Text}
    (hkey : IsKey key) (hinf : known.dialect = .inf)
    (hdefinitions : known.definitions = start.insert key (doubled value))
    (hsize : Text.byteLength (['<'] ++ value ++ ['>']) ≤ Expansion.limit) :
    ∃ memory, known.expand (useLine key) .empty = .ok (⟨['<'] ++ value ++ ['>'], false⟩, memory) ∧
      memory.diagnostics = [] := by
  have hvalues : known.definitions.valuesOf (Definitions.key key) =
      start.valuesOf (Definitions.key key) ++ [doubled value] := by
    rw [hdefinitions, Definitions.valuesOf_insert, if_pos rfl]
  have htotal : known.definitions.total = start.total + 1 := by
    rw [hdefinitions, Definitions.total_insert]
  have hfind : known.find [] key = .value ⟨Definitions.key key,
      (start.valuesOf (Definitions.key key)).length⟩ (doubled value) false :=
    Expansion.Scope.find_newest rfl
      (by rw [hvalues, List.length_append, List.length_singleton])
      (by rw [hvalues, List.getElem?_concat_length])
  have hvalue : Text.byteLength value ≤ Expansion.limit := by
    rw [Text.byteLength_append, Text.byteLength_append] at hsize
    omega
  have hdescend : ∀ chain, known.descend known.definitions.total chain (doubled value) .empty =
      .ok (.literal value, .empty) := by
    intro chain
    obtain ⟨template, hread, hliterals⟩ := Template.readsAsLiterals_doubled value
    rw [← hinf] at hread
    have hpieces := known.expandPiecesWith_literals (known.descend start.total) chain hliterals
      Expansion.limit .empty
    rw [Text.takeBytes_eq_self hvalue] at hpieces
    rw [htotal]
    exact bind_eq_ok.2 ⟨template, hread, hpieces⟩
  let site : Expansion.Link known.dialect := ⟨'%', key, hinf ▸ hkey.named⟩
  have hsite := Expansion.Scope.resolveWith_enter site.token .empty hfind rfl (hdescend _)
  have hplain : ∀ c ∈ ['<'] ++ ['>'], Template.isMark known.dialect c = false := by
    rw [hinf]
    exact Text.over_of_all (by decide)
  exact ⟨_, Expansion.Scope.expand_around site hsite (List.cons_ne_nil _ _) (List.cons_ne_nil _ _)
    hplain hsize, rfl⟩

/-- What the lines define, and which of them are rendered. -/
theorem passes_useLine_stringLine (settings : Settings) (key value : Text) {rest : List Line}
    (hrest : rest = [] ∨ rest = [⟨[], .text⟩]) :
    let lines := ⟨"[Run]".toList, .header "Run".toList⟩ :: ⟨useLine key, .text⟩ ::
      ⟨"[Strings]".toList, .header "Strings".toList⟩ ::
      ⟨stringLine key value, .entry key ('"' :: value ++ ['"'])⟩ :: rest
    assignments settings lines = [⟨key, value, 0⟩] ∧
      keptFrom settings false lines = ["[Run]".toList, useLine key] := by
  intro lines
  have hassignments : assignments settings lines =
      [⟨key, bareValue ('"' :: value ++ ['"']), 0⟩] := by
    rcases hrest with rfl | rfl <;> rfl
  have hkept : keptFrom settings false lines = ["[Run]".toList, useLine key] := by
    rcases hrest with rfl | rfl <;> rfl
  rw [bareValue_quoted] at hassignments
  exact ⟨hassignments, hkept⟩

/--
A value with doubled percent signs, given to a key in a strings section, is put in for the key as it
is, with all quotes, blanks and percent signs, and nothing is reported.
-/
theorem reveal_useLine_stringLine (settings : Settings) (key value first second third last : Text)
    (hkey : IsKey key) (hvalue : Text.IsLine value) (hfirst : first ∈ lineBreaks)
    (hsecond : second ∈ lineBreaks) (hthird : third ∈ lineBreaks)
    (hlast : last = [] ∨ last ∈ lineBreaks)
    (hsize : Text.byteLength (['<'] ++ value ++ ['>']) ≤ Expansion.limit) :
    reveal settings (stringFile key (doubled value) first second third last) =
      .ok ⟨"[Run]\n<".toList ++ value ++ ['>'], [⟨key, doubled value, 0⟩], [], false⟩ := by
  have hwritten : Text.IsLine (doubled value) := hvalue.replaceMark (Text.over_of_all (by decide))
  obtain ⟨rest, hrest, hlines⟩ :=
    readLines_useLine_stringLine hkey hwritten hfirst hsecond hthird hlast
  obtain ⟨hassignments, hkept⟩ := passes_useLine_stringLine settings key (doubled value) hrest
  have hdefinitions : (scope settings [⟨key, doubled value, 0⟩]).definitions =
    (if settings.wellKnown then Definitions.stock .inf else .empty).insert key (doubled value) := rfl
  obtain ⟨memory, hexpand, hdiagnostics⟩ := expand_useLine hkey rfl hdefinitions hsize
  have hall : expandAll (scope settings [⟨key, doubled value, 0⟩]) ["[Run]".toList, useLine key]
      .empty = .ok ((["[Run]".toList, ['<'] ++ value ++ ['>']], false), memory) :=
    bind_eq_ok.2 ⟨_, expand_header _ rfl .empty, bind_eq_ok.2 ⟨_, bind_eq_ok.2 ⟨_, hexpand, rfl⟩, rfl⟩⟩
  have houtput : Text.trimEnd (Text.join ['\n'] ["[Run]".toList, ['<'] ++ value ++ ['>']]) =
      "[Run]\n<".toList ++ value ++ ['>'] :=
    Text.trimEnd_concat rfl ("[Run]\n<".toList ++ value)
  rw [reveal, hlines]
  dsimp only
  rw [hassignments, hkept]
  refine bind_eq_ok.2 ⟨_, hall, ?_⟩
  dsimp only
  rw [houtput, hdiagnostics]
  rfl

/-- A key that a host defines, and a value of quotes, blanks and runs of percent signs. -/
theorem reveal_useLine_stringLine_percent :
    let settings : Settings := { wellKnown := true, infStringsOnly := false, unknownNames := .keep }
    let key := "11".toList
    let value := "\t\"%11%\" %%%A%\\'".toList
    IsKey key ∧ Text.IsLine value ∧ "\r".toList ∈ lineBreaks ∧ "\r\n".toList ∈ lineBreaks ∧
      "\n".toList ∈ lineBreaks ∧ ("\r\n".toList = [] ∨ "\r\n".toList ∈ lineBreaks) ∧
      Text.byteLength (['<'] ++ value ++ ['>']) ≤ Expansion.limit ∧
      reveal settings (stringFile key (doubled value) "\r".toList "\r\n".toList "\n".toList
          "\r\n".toList) =
        .ok ⟨"[Run]\n<".toList ++ value ++ ['>'], [⟨key, doubled value, 0⟩], [], false⟩ := by
  intro settings key value
  have hkey : IsKey key := by
    have hchars : key.all LineForm.isKeyChar = true := by decide
    exact ⟨by decide, List.all_eq_true.1 hchars⟩
  have hvalue : Text.IsLine value := Text.over_of_all (by decide)
  exact ⟨hkey, hvalue, by decide, by decide, by decide, Or.inr (by decide), by decide,
    reveal_useLine_stringLine settings key value _ _ _ _ hkey hvalue (by decide) (by decide)
      (by decide) (Or.inr (by decide)) (by decide)⟩

end InfFile

end Unmask
