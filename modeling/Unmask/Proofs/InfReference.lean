import Mathlib.Data.List.Forall2
import Mathlib.Data.List.Sort
import Unmask.Proofs.Faults
import Unmask.Proofs.InfLines

/-!
# INF files by the line

What an INF file says can be told line by line.  A line lies in a strings section if the latest
header at or above it opens one.  The entries there are recorded, and the lines elsewhere are
rendered; where every section defines strings, the entries elsewhere are recorded instead.

    definitionsFrom_eq, keptFrom_eq
                             the two passes over the lines
    getElem?_markSections    what they know of each line
    recorded_iff_not_rendered    an entry is recorded or else rendered
    reveal_eq_reference      a file says what its lines say
-/

namespace Unmask.InfFile

/-! ## What the lines say -/

/-- A section of this name defines strings; the letter case does not count. -/
def IsStrings (name : Text) : Prop :=
  Text.asciiLower name = "strings".toList ∨ "strings.".toList <+: Text.asciiLower name

/-- The latest header among the lines opens a strings section. -/
def InStrings (lines : List Text) : Prop :=
  ∃ above line name below, lines = above ++ line :: below ∧ IsHeader line name ∧ IsStrings name ∧
    ∀ other ∈ below, ∀ name', ¬ IsHeader other name'

def IsEntryAt (lines : List Text) (place : Nat) : Prop :=
  ∃ line key value, lines[place]? = some line ∧ IsEntry line key value

/-- The entries of the strings sections are recorded, or those of all sections. -/
def IsRecorded (settings : Settings) (lines : List Text) (place : Nat) : Prop :=
  IsEntryAt lines place ∧ (settings.infStringsOnly = true → InStrings (lines.take (place + 1)))

/-- The lines outside of the strings sections are rendered, without entries that are recorded. -/
def IsRendered (settings : Settings) (lines : List Text) (place : Nat) : Prop :=
  place < lines.length ∧ ¬ InStrings (lines.take (place + 1)) ∧
    (settings.infStringsOnly = false → ¬ IsEntryAt lines place)

/-- The places with some property, from the first to the last. -/
structure Places (P : Nat → Prop) (places : List Nat) : Prop where
  ordered : places.Pairwise (· < ·)
  mem_iff : ∀ place, place ∈ places ↔ P place

/-- The key of the entry at a place, and its value, trimmed and without quotes. -/
def Defines (lines : List Text) (place : Nat) (definition : Text × Text) : Prop :=
  ∃ line value, lines[place]? = some line ∧ IsEntry line definition.1 value ∧
    Text.Unquotes (Text.trim value) definition.2

def expandEach (scope : Expansion.Scope) (texts : List Text) :
    StateT Expansion.Memory (Except Fault) (List Resolution) :=
  texts.mapM scope.expand

/-- What is known in an INF file: what a host defines, if that counts, and all assignments. -/
def scope (settings : Settings) (assignments : List Assignment) : Expansion.Scope where
  definitions := assignments.foldl (fun ds a => ds.define a)
    (if settings.wellKnown then Definitions.stock .inf else .empty)
  dialect := .inf
  unknownNames := settings.unknownNames

structure Reading (settings : Settings) (lines : List Text) (r : Revealed) : Prop where
  recorded : ∃ places definitions, Places (IsRecorded settings lines) places ∧
    List.Forall₂ (Defines lines) places definitions ∧
    r.assignments = definitions.mapIdx fun order d => ⟨d.1, d.2, order⟩
  rendered : ∃ places texts resolutions memory, Places (IsRendered settings lines) places ∧
    List.Forall₂ (fun place text => lines[place]? = some text) places texts ∧
    expandEach (scope settings r.assignments) texts .empty = .ok (resolutions, memory) ∧
    r.output = Text.trimEnd (Text.join ['\n'] (resolutions.map Resolution.value)) ∧
    r.diagnostics = memory.diagnostics ∧ r.cyclic = resolutions.any Resolution.cyclic

/-- An entry is recorded or else rendered. -/
theorem recorded_iff_not_rendered (settings : Settings) {lines : List Text} {place : Nat}
    (h : IsEntryAt lines place) :
    IsRecorded settings lines place ↔ ¬ IsRendered settings lines place := by
  have hplace : place < lines.length := by
    obtain ⟨line, key, value, hline, -⟩ := h
    exact (List.getElem?_eq_some_iff.1 hline).1
  unfold IsRecorded IsRendered
  cases settings.infStringsOnly with
  | true => simp [h, hplace]
  | false => simp [h]

/-! ## One reading -/

theorem Places.unique {P : Nat → Prop} {places places' : List Nat} (h : Places P places)
    (h' : Places P places') : places = places' :=
  h.ordered.eq_of_mem_iff h'.ordered fun place => (h.mem_iff place).trans (h'.mem_iff place).symm

theorem defines_unique (lines : List Text) : Relator.RightUnique (Defines lines) := by
  rintro place ⟨key, bare⟩ ⟨key', bare'⟩ ⟨line, value, hline, hentry, hbare⟩
    ⟨line', value', hline', hentry', hbare'⟩
  obtain rfl := Option.some.inj (hline.symm.trans hline')
  have hread := LineForm.read_eq_entry_iff.2 ⟨value, hentry, rfl⟩
  have hread' := LineForm.read_eq_entry_iff.2 ⟨value', hentry', rfl⟩
  obtain ⟨hkey, hvalue⟩ := LineForm.entry.inj (hread.symm.trans hread')
  have hboth : bareValue value = bareValue value' := by
    rw [← bareValue_dropWhile, hvalue, bareValue_dropWhile]
  have hbare'' : bare = bare' := (unquotes_iff.1 hbare).trans (hboth.trans (unquotes_iff.1 hbare').symm)
  exact Prod.ext hkey hbare''

theorem Reading.unique {settings : Settings} {lines : List Text} {r r' : Revealed}
    (h : Reading settings lines r) (h' : Reading settings lines r') : r = r' := by
  obtain ⟨places, definitions, hplaces, hdefines, hassignments⟩ := h.recorded
  obtain ⟨places', definitions', hplaces', hdefines', hassignments'⟩ := h'.recorded
  obtain rfl := hplaces.unique hplaces'
  obtain rfl := List.right_unique_forall₂' (defines_unique lines) hdefines hdefines'
  obtain ⟨kept, texts, resolutions, memory, hkept, htexts, hexpand, houtput, hdiagnostics, hcyclic⟩ :=
    h.rendered
  obtain ⟨kept', texts', resolutions', memory', hkept', htexts', hexpand', houtput', hdiagnostics',
    hcyclic'⟩ := h'.rendered
  obtain rfl := hkept.unique hkept'
  have hplace : Relator.RightUnique fun (place : Nat) (text : Text) => lines[place]? = some text :=
    fun place text text' htext htext' => Option.some.inj (htext.symm.trans htext')
  obtain rfl := List.right_unique_forall₂' hplace htexts htexts'
  rw [hassignments] at hexpand
  rw [hassignments', hexpand] at hexpand'
  cases hexpand'
  cases r
  cases r'
  simp only at hassignments hassignments' houtput houtput' hdiagnostics hdiagnostics' hcyclic hcyclic'
  rw [hassignments, hassignments', houtput, houtput', hdiagnostics, hdiagnostics', hcyclic, hcyclic']

/-! ## Sections -/

theorem isStringsName_iff {name : Text} : LineForm.isStringsName name = true ↔ IsStrings name := by
  unfold LineForm.isStringsName IsStrings
  simp only [Bool.or_eq_true, beq_iff_eq, List.isPrefixOf_iff_prefix]

/-- Whether a line lies in a strings section, if the line in front of it does or does not. -/
def sectionBehind (inStrings : Bool) : LineForm → Bool
  | .header name => LineForm.isStringsName name
  | _ => inStrings

/-- The latest header opens a strings section, or there is none and one is open already. -/
def InStringsFrom (inStrings : Bool) (lines : List Text) : Prop :=
  InStrings lines ∨ inStrings = true ∧ ∀ line ∈ lines, ∀ name, ¬ IsHeader line name

theorem inStringsFrom_false {lines : List Text} : InStringsFrom false lines ↔ InStrings lines := by
  unfold InStringsFrom
  simp

theorem inStringsFrom_nil {inStrings : Bool} : InStringsFrom inStrings [] ↔ inStrings = true := by
  have hnil : ¬ InStrings [] := by
    rintro ⟨above, line, name, below, heq, -⟩
    exact absurd heq.symm (List.append_ne_nil_of_right_ne_nil above (List.cons_ne_nil _ _))
  simp [InStringsFrom, hnil]

theorem inStrings_cons {line : Text} {lines : List Text} :
    InStrings (line :: lines) ↔ InStrings lines ∨ (∃ name, IsHeader line name ∧ IsStrings name) ∧
      ∀ other ∈ lines, ∀ name', ¬ IsHeader other name' := by
  constructor
  · rintro ⟨above, line', name, below, heq, hheader, hstrings, hbelow⟩
    cases above with
    | nil =>
      obtain ⟨rfl, rfl⟩ := List.cons.inj heq
      exact Or.inr ⟨⟨name, hheader, hstrings⟩, hbelow⟩
    | cons a above =>
      exact Or.inl ⟨above, line', name, below, (List.cons.inj heq).2, hheader, hstrings, hbelow⟩
  · rintro (⟨above, line', name, below, rfl, h⟩ | ⟨⟨name, hheader, hstrings⟩, hbelow⟩)
    · exact ⟨line :: above, line', name, below, rfl, h⟩
    · exact ⟨[], line, name, lines, rfl, hheader, hstrings, hbelow⟩

/-- One line takes a run into a strings section or out of it. -/
theorem inStringsFrom_cons {inStrings : Bool} {line : Text} {lines : List Text} :
    InStringsFrom inStrings (line :: lines) ↔
      InStringsFrom (sectionBehind inStrings (LineForm.read line)) lines := by
  unfold InStringsFrom
  rw [inStrings_cons, List.forall_mem_cons]
  -- what was open before counts only while no header has been met
  by_cases hheader : ∃ name, IsHeader line name
  · obtain ⟨name, hname⟩ := hheader
    have hread := LineForm.read_eq_header_iff.2 hname
    have hstrings : (∃ name', IsHeader line name' ∧ IsStrings name') ↔ IsStrings name := by
      constructor
      · rintro ⟨name', hname', hstrings⟩
        rw [LineForm.header.inj (hread.symm.trans (LineForm.read_eq_header_iff.2 hname'))]
        exact hstrings
      · exact fun hstrings => ⟨name, hname, hstrings⟩
    have hsome : ¬ ∀ name', ¬ IsHeader line name' := fun hnone => hnone name hname
    rw [hread, sectionBehind, hstrings, isStringsName_iff]
    simp only [hsome, false_and, and_false, or_false]
  · have hnone : ∀ name, ¬ IsHeader line name := fun name hname => hheader ⟨name, hname⟩
    have hstrings : ¬ ∃ name, IsHeader line name ∧ IsStrings name := fun ⟨name, hname, _⟩ =>
      hnone name hname
    have hstays : sectionBehind inStrings (LineForm.read line) = inStrings := by
      rcases LineForm.read_cases line with ⟨name, hname, -⟩ | ⟨key, value, -, hread⟩ | hread
      · exact absurd hname (hnone name)
      · rw [hread, sectionBehind]
        exact fun name h => by cases h
      · rw [hread, sectionBehind]
        exact fun name h => by cases h
    rw [hstays]
    simp only [hstrings, false_and, or_false]
    simp only [hnone, not_false_eq_true, implies_true, true_and]

/-! ## The passes over the lines -/

/-- Says of each line whether it is part of a strings section. -/
def markSections : (inStrings : Bool) → List Line → List (Bool × Line)
  | _, [] => []
  | inStrings, line :: lines =>
    (sectionBehind inStrings line.form, line) ::
      markSections (sectionBehind inStrings line.form) lines

/-- The key and the value of a line that defines a name. -/
def definition? (settings : Settings) (line : Bool × Line) : Option (Text × Text) :=
  match line.2.form with
  | .entry key value =>
    if line.1 || !settings.infStringsOnly then some (key, bareValue value) else none
  | _ => none

/-- Whether a line is part of the output. -/
def isKept (settings : Settings) (line : Bool × Line) : Bool :=
  !line.1 &&
    match line.2.form with
    | .entry _ _ => settings.infStringsOnly
    | _ => true

/-- Both passes know the same of each line: the first one collects definitions, … -/
theorem definitionsFrom_eq (settings : Settings) (inStrings : Bool) (lines : List Line) :
    definitionsFrom settings inStrings lines =
      (markSections inStrings lines).filterMap (definition? settings) := by
  induction lines generalizing inStrings with
  | nil => rfl
  | cons line lines ih =>
    obtain ⟨text, form⟩ := line
    rw [markSections, List.filterMap_cons]
    cases form with
    | header name => exact ih _
    | text => exact ih _
    | entry key value =>
      dsimp only [definitionsFrom, definition?, sectionBehind]
      split <;> rw [ih]

/-- … and the second one renders lines. -/
theorem keptFrom_eq (settings : Settings) (inStrings : Bool) (lines : List Line) :
    keptFrom settings inStrings lines =
      ((markSections inStrings lines).filter (isKept settings)).map fun line => line.2.text := by
  induction lines generalizing inStrings with
  | nil => rfl
  | cons line lines ih =>
    obtain ⟨text, form⟩ := line
    rw [markSections, List.filter_cons]
    cases form with
    | header name =>
      cases hname : LineForm.isStringsName name <;>
        simp [keptFrom, isKept, sectionBehind, hname, ih]
    | text => cases inStrings <;> simp [keptFrom, isKept, sectionBehind, ih]
    | entry key value =>
      cases inStrings <;> cases hall : settings.infStringsOnly <;>
        simp [keptFrom, isKept, sectionBehind, hall, ih]

/-- What a pass over the lines knows of each line. -/
theorem getElem?_markSections {lines : List Text} {inStrings : Bool} {place : Nat}
    {item : Bool × Line} :
    (markSections inStrings (lines.map Line.read))[place]? = some item ↔
      ∃ line, lines[place]? = some line ∧ item.2 = Line.read line ∧
        (item.1 = true ↔ InStringsFrom inStrings (lines.take (place + 1))) := by
  induction lines generalizing inStrings place with
  | nil => simp [markSections]
  | cons line lines ih =>
    rw [List.map_cons, markSections, Line.form_read]
    cases place with
    | zero =>
      rw [List.getElem?_cons_zero, List.getElem?_cons_zero, List.take_succ_cons, List.take_zero]
      simp only [inStringsFrom_cons, inStringsFrom_nil, Option.some.injEq]
      constructor
      · rintro rfl
        exact ⟨line, rfl, rfl, Iff.rfl⟩
      · rintro ⟨line', rfl, hline, hflag⟩
        exact Prod.ext (Bool.eq_iff_iff.2 hflag.symm) hline.symm
    | succ place =>
      rw [List.getElem?_cons_succ, ih, List.getElem?_cons_succ, List.take_succ_cons]
      simp only [inStringsFrom_cons]

/-! ## What is recorded and what is rendered -/

/-- The results of a filter stand at the places of what it keeps. -/
theorem exists_places {α β : Type} (f : α → Option β) (items : List α) :
    ∃ places, Places (fun place => ∃ item, items[place]? = some item ∧ (f item).isSome = true)
        places ∧
      List.Forall₂ (fun place result => ∃ item, items[place]? = some item ∧ f item = some result)
        places (items.filterMap f) := by
  induction items with
  | nil => exact ⟨[], ⟨List.Pairwise.nil, by simp⟩, List.Forall₂.nil⟩
  | cons item items ih =>
    obtain ⟨places, ⟨hordered, hmem⟩, hresults⟩ := ih
    -- an item in front moves all places on by one
    have hbehind : List.Forall₂
        (fun place result => ∃ item', (item :: items)[place]? = some item' ∧ f item' = some result)
        (places.map Nat.succ) (items.filterMap f) := by
      rw [List.forall₂_map_left_iff]
      exact hresults.imp fun place result h => h
    have hordered' : (places.map Nat.succ).Pairwise (· < ·) :=
      List.pairwise_map.2 (hordered.imp Nat.succ_lt_succ)
    cases hitem : f item with
    | none =>
      rw [List.filterMap_cons_none hitem]
      refine ⟨places.map Nat.succ, ⟨hordered', fun place => ?_⟩, hbehind⟩
      cases place with
      | zero => simp [hitem]
      | succ place => simp [hmem]
    | some result =>
      rw [List.filterMap_cons_some hitem]
      refine ⟨0 :: places.map Nat.succ, ⟨List.pairwise_cons.2 ⟨?_, hordered'⟩, fun place => ?_⟩,
        .cons ⟨item, rfl, hitem⟩ hbehind⟩
      · simp
      · cases place with
        | zero => simp [hitem]
        | succ place => simp [hmem]

variable {settings : Settings} {lines : List Text}

/-- The lines of a file with what a pass over them knows of each. -/
def marked (lines : List Text) : List (Bool × Line) :=
  markSections false (lines.map Line.read)

theorem getElem?_marked {place : Nat} {item : Bool × Line} :
    (marked lines)[place]? = some item ↔
      ∃ line, lines[place]? = some line ∧ item.2 = Line.read line ∧
        (item.1 = true ↔ InStrings (lines.take (place + 1))) := by
  simp only [marked, getElem?_markSections, inStringsFrom_false]

theorem exists_marked {place : Nat} {line : Text} (h : lines[place]? = some line) :
    ∃ inStrings, (marked lines)[place]? = some (inStrings, Line.read line) := by
  by_cases hin : InStrings (lines.take (place + 1))
  · exact ⟨true, getElem?_marked.2 ⟨line, h, rfl, iff_of_true rfl hin⟩⟩
  · exact ⟨false, getElem?_marked.2 ⟨line, h, rfl, iff_of_false Bool.false_ne_true hin⟩⟩

theorem definition?_eq_some_iff {inStrings : Bool} {line : Text} {definition : Text × Text} :
    definition? settings (inStrings, Line.read line) = some definition ↔
      (∃ value, IsEntry line definition.1 value ∧
        Text.Unquotes (Text.trim value) definition.2) ∧
      (settings.infStringsOnly = true → inStrings = true) := by
  unfold definition?
  constructor
  · intro h
    split at h
    · next key value hread =>
      obtain ⟨written, hwritten, rfl⟩ := LineForm.read_eq_entry_iff.1 hread
      split at h
      · next hcounts =>
        cases h
        refine ⟨⟨written, hwritten, unquotes_iff.2 (bareValue_dropWhile written)⟩, fun honly => ?_⟩
        simpa [honly] using hcounts
      · cases h
    · cases h
  · rintro ⟨⟨value, hentry, hbare⟩, hcounts⟩
    have hcounts : (inStrings || !settings.infStringsOnly) = true := by
      cases honly : settings.infStringsOnly with
      | false => exact Bool.or_true _
      | true => rw [hcounts honly]; rfl
    have hread := LineForm.read_eq_entry_iff.2 ⟨value, hentry, rfl⟩
    simp only [Line.form_read, hread, if_pos hcounts, bareValue_dropWhile, ← unquotes_iff.1 hbare]

theorem isKept_iff {inStrings : Bool} {line : Text} :
    isKept settings (inStrings, Line.read line) = true ↔ ¬ inStrings = true ∧
      (settings.infStringsOnly = false → ¬ ∃ key value, IsEntry line key value) := by
  unfold isKept
  rw [Bool.and_eq_true, Bool.not_eq_true', Bool.not_eq_true]
  refine and_congr_right fun _ => ?_
  dsimp only
  by_cases hentry : ∃ key value, IsEntry line key value
  · obtain ⟨key, value, hvalue⟩ := hentry
    have hread := LineForm.read_eq_entry_iff.2 ⟨value, hvalue, rfl⟩
    have hexists : ∃ key value, IsEntry line key value := ⟨key, value, hvalue⟩
    simp [hread, hexists]
  · refine iff_of_true ?_ fun _ => hentry
    split
    · next key value hread =>
      obtain ⟨written, hwritten, -⟩ := LineForm.read_eq_entry_iff.1 hread
      exact absurd ⟨key, written, hwritten⟩ hentry
    · rfl

theorem exists_recorded (settings : Settings) (lines : List Text) :
    ∃ places, Places (IsRecorded settings lines) places ∧
      List.Forall₂ (Defines lines) places (definitionsFrom settings false (lines.map Line.read)) := by
  rw [definitionsFrom_eq]
  obtain ⟨places, ⟨hordered, hmem⟩, hresults⟩ := exists_places (definition? settings) (marked lines)
  refine ⟨places, ⟨hordered, fun place => (hmem place).trans ?_⟩, hresults.imp ?_⟩
  · constructor
    · rintro ⟨⟨inStrings, form⟩, hitem, hsome⟩
      obtain ⟨line, hline, rfl, hflag⟩ := getElem?_marked.1 hitem
      obtain ⟨definition, hdefinition⟩ := Option.isSome_iff_exists.1 hsome
      obtain ⟨⟨value, hentry, -⟩, hcounts⟩ := definition?_eq_some_iff.1 hdefinition
      exact ⟨⟨line, definition.1, value, hline, hentry⟩, fun honly => hflag.1 (hcounts honly)⟩
    · rintro ⟨⟨line, key, value, hline, hentry⟩, hcounts⟩
      obtain ⟨inStrings, hitem⟩ := exists_marked hline
      obtain ⟨-, -, -, hflag⟩ := getElem?_marked.1 hitem
      have hdefinition : definition? settings (inStrings, Line.read line) =
          some (key, bareValue value) :=
        definition?_eq_some_iff.2 ⟨⟨value, hentry, unquotes_iff.2 rfl⟩,
          fun honly => hflag.2 (hcounts honly)⟩
      exact ⟨_, hitem, Option.isSome_iff_exists.2 ⟨_, hdefinition⟩⟩
  · rintro place definition ⟨⟨inStrings, form⟩, hitem, hdefinition⟩
    obtain ⟨line, hline, rfl, -⟩ := getElem?_marked.1 hitem
    obtain ⟨⟨value, hentry, hbare⟩, -⟩ := definition?_eq_some_iff.1 hdefinition
    exact ⟨line, value, hline, hentry, hbare⟩

theorem exists_rendered (settings : Settings) (lines : List Text) :
    ∃ places, Places (IsRendered settings lines) places ∧
      List.Forall₂ (fun place text => lines[place]? = some text) places
        (keptFrom settings false (lines.map Line.read)) := by
  rw [keptFrom_eq, ← List.filterMap_eq_filter, List.map_filterMap]
  obtain ⟨places, ⟨hordered, hmem⟩, hresults⟩ := exists_places
    (fun line => (Option.guard (isKept settings) line).map fun line => line.2.text) (marked lines)
  refine ⟨places, ⟨hordered, fun place => (hmem place).trans ?_⟩, hresults.imp ?_⟩
  · simp only [Option.isSome_map, Option.isSome_guard]
    constructor
    · rintro ⟨⟨inStrings, form⟩, hitem, hkept⟩
      obtain ⟨line, hline, rfl, hflag⟩ := getElem?_marked.1 hitem
      obtain ⟨houtside, hentry⟩ := isKept_iff.1 hkept
      refine ⟨(List.getElem?_eq_some_iff.1 hline).1, fun hin => houtside (hflag.2 hin),
        fun hall ⟨line', key, value, hline', hvalue⟩ => hentry hall ?_⟩
      obtain rfl := Option.some.inj (hline.symm.trans hline')
      exact ⟨key, value, hvalue⟩
    · rintro ⟨hlength, houtside, hentry⟩
      obtain ⟨inStrings, hitem⟩ := exists_marked (List.getElem?_eq_getElem hlength)
      obtain ⟨-, -, -, hflag⟩ := getElem?_marked.1 hitem
      refine ⟨_, hitem, isKept_iff.2 ⟨fun hin => houtside (hflag.1 hin),
        fun hall ⟨key, value, hvalue⟩ => hentry hall ?_⟩⟩
      exact ⟨_, key, value, List.getElem?_eq_getElem hlength, hvalue⟩
  · rintro place text ⟨⟨inStrings, form⟩, hitem, htext⟩
    obtain ⟨line, hline, rfl, -⟩ := getElem?_marked.1 hitem
    obtain ⟨item, hguard, rfl⟩ := Option.map_eq_some_iff.1 htext
    obtain ⟨rfl, -⟩ := Option.guard_eq_some_iff.1 hguard
    exact hline

theorem expandAll_eq (scope : Expansion.Scope) (texts : List Text) (memory : Expansion.Memory) :
    expandAll scope texts memory = (fun result =>
      ((result.1.map Resolution.value, result.1.any Resolution.cyclic), result.2)) <$>
        expandEach scope texts memory := by
  induction texts generalizing memory with
  | nil => rfl
  | cons text texts ih =>
    have hcons : expandEach scope (text :: texts) memory =
        scope.expand text memory >>= fun head =>
          expandEach scope texts head.2 >>= fun tail => .ok (head.1 :: tail.1, tail.2) := by
      unfold expandEach
      rw [List.mapM_cons]
      rfl
    rw [hcons, expandAll]
    cases scope.expand text memory with
    | error fault => rfl
    | ok head =>
      obtain ⟨head, memory'⟩ := head
      change expandAll scope texts memory' >>= _ = _
      rw [ih]
      change _ = _ <$> (expandEach scope texts memory' >>= _)
      cases expandEach scope texts memory' <;> rfl

theorem reading_of_reveal {s : Text} {r : Revealed} (h : reveal settings s = .ok r) :
    Reading settings (Text.lines s) r := by
  obtain ⟨places, hplaces, hdefines⟩ := exists_recorded settings (Text.lines s)
  obtain ⟨kept, hkept, htexts⟩ := exists_rendered settings (Text.lines s)
  obtain ⟨⟨⟨values, cyclic⟩, memory⟩, hexpand, h⟩ := bind_eq_ok.1 h
  rw [expandAll_eq] at hexpand
  change _ <$> expandEach (scope settings (assignments settings (readLines s)))
    (keptFrom settings false (readLines s)) .empty = _ at hexpand
  rw [map_eq_pure_bind] at hexpand
  obtain ⟨⟨resolutions, memory'⟩, hresolutions, hvalues⟩ := bind_eq_ok.1 hexpand
  cases hvalues
  cases h
  refine ⟨⟨places, _, hplaces, hdefines, ?_⟩,
    ⟨kept, _, resolutions, _, hkept, htexts, hresolutions, rfl, rfl, rfl⟩⟩
  rw [List.mapIdx_eq_zipIdx_map]
  rfl

/--
A file always says something, and that is what its lines say; an entry is recorded or else rendered.
-/
theorem reveal_eq_reference (settings : Settings) (s : Text) :
    ∃ lines r, (∀ parts, Text.Cut s parts ↔ parts = lines) ∧ reveal settings s = .ok r ∧
      (∀ r', Reading settings lines r' ↔ r' = r) ∧
      ∀ place, IsEntryAt lines place →
        (IsRecorded settings lines place ↔ ¬ IsRendered settings lines place) := by
  obtain ⟨r, hreveal⟩ := reveal_ok settings s
  have hreading := reading_of_reveal hreveal
  refine ⟨Text.lines s, r, fun parts => Text.cut_iff, hreveal, fun r' => ⟨fun h => ?_, ?_⟩,
    fun place => recorded_iff_not_rendered settings⟩
  · exact h.unique hreading
  · rintro rfl
    exact hreading

end Unmask.InfFile
