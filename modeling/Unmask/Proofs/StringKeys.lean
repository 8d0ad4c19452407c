import Unmask.Proofs.Diagnostics
import Unmask.Proofs.InfReference
import Unmask.Proofs.InfRoundTrip

/-!
# Keys of strings

The name between two percent signs and the key of an entry are read by classes of their own: a name
may hold dots and hyphens, and a key is made of word characters.  So a name of word characters is
defined by its line in a strings section, and then no reference to it is noted as unresolved; a name
with a dot or a hyphen can be used, and no file defines it.

    expandAll_truthful     only names without values are noted as unresolved
    definitionsFrom_append    the definitions behind some lines
    reveal_stringKey       which names a strings section can define
-/

namespace Unmask

/-! ## Names that are noted as unresolved -/

namespace Expansion

/-- Only names without values are noted as unresolved. -/
def Memory.Truthful (scope : Scope) (memory : Memory) : Prop :=
  ∀ name, .unresolvedReference name ∈ memory.diagnostics →
    scope.definitions.valuesOf (Definitions.key name) = []

namespace Scope

variable {scope : Scope} {chain : Chain} {memory memory' : Memory}

/-- Under the chains of an expansion a name is unknown only if it has no value. -/
theorem valuesOf_of_find {name : Text} (hchain : scope.Orderly chain)
    (h : scope.find chain name = .unknown) :
    scope.definitions.valuesOf (Definitions.key name) = [] := by
  by_contra hne
  cases hcurrent : chain.current? (Definitions.key name) with
  | none =>
    obtain ⟨n, hn⟩ := Nat.exists_eq_add_one.2 (List.length_pos_iff.2 hne)
    have hvalue := List.getElem?_eq_getElem
      (l := scope.definitions.valuesOf (Definitions.key name)) (i := n) (by omega)
    cases h.symm.trans (find_newest hcurrent hn hvalue)
  | some index =>
    cases index with
    | zero => cases h.symm.trans (find_exhausted hcurrent)
    | succ index =>
      -- the generation in progress was given, so the one before it was too
      obtain ⟨g, hg, hkey, hindex⟩ : ∃ g ∈ chain, g.key = Definitions.key name ∧
          g.index = index + 1 := by
        obtain ⟨g, hg, hindex⟩ := Option.map_eq_some_iff.1 hcurrent
        exact ⟨g, List.mem_of_find?_eq_some hg, by simpa using List.find?_some hg, hindex⟩
      have hlt := hchain.defined g hg
      rw [hkey, hindex] at hlt
      have hvalue := List.getElem?_eq_getElem
        (l := scope.definitions.valuesOf (Definitions.key name)) (i := index) (by omega)
      cases h.symm.trans (find_older hcurrent hvalue)

theorem missing_truthful {token : Text} {r : Reference} {o : Outcome}
    (hundefined : scope.definitions.valuesOf (Definitions.key r.name) = [])
    (hmemory : memory.Truthful scope) (h : scope.missing token r memory = (o, memory')) :
    memory'.Truthful scope := by
  unfold missing at h
  split at h
  · cases h
    exact hmemory
  · cases h
    intro name hname
    rcases Diagnostic.mem_add.1 hname with hname | hname
    · exact hmemory name hname
    · rw [Diagnostic.unresolvedReference.inj hname]
      exact hundefined

section Descent

variable {descend : Descent}
  (hdescend : ∀ chain text memory o memory', scope.Orderly chain → memory.Truthful scope →
    descend chain text memory = .ok (o, memory') → memory'.Truthful scope)
  (hchain : scope.Orderly chain)

include hdescend hchain

theorem resolveWith_truthful {token : Text} {r : Reference} {o : Outcome}
    (hmemory : memory.Truthful scope)
    (h : scope.resolveWith descend chain token r memory = .ok (o, memory')) :
    memory'.Truthful scope := by
  unfold resolveWith at h
  cases hfind : scope.find chain r.name with
  | unknown =>
    rw [hfind] at h
    exact missing_truthful (valuesOf_of_find hchain hfind) hmemory (Except.ok.inj h)
  | exhausted key =>
    rw [hfind] at h
    cases h
    intro name hname
    rcases Diagnostic.mem_add.1 hname with hname | hname
    · exact hmemory name hname
    · cases hname
  | value g text hit =>
    simp only [hfind] at h
    cases hknown : memory.known? g with
    | some known =>
      rw [hknown] at h
      cases h
      exact hmemory
    | none =>
      rw [hknown] at h
      obtain ⟨⟨inner, memory₁⟩, hinner, h⟩ := bind_eq_ok.1 h
      have hinner := hdescend _ _ _ _ _ (hchain.cons hfind) hmemory hinner
      cases h
      dsimp only
      split
      · exact hinner
      · exact hinner

theorem expandPiecesWith_truthful {budget : Nat} {template : Template} {o : Outcome}
    (hmemory : memory.Truthful scope)
    (h : scope.expandPiecesWith descend chain budget template memory = .ok (o, memory')) :
    memory'.Truthful scope := by
  induction template generalizing budget memory memory' o with
  | nil =>
    cases h
    exact hmemory
  | cons piece pieces ih =>
    rw [expandPiecesWith] at h
    obtain ⟨⟨head, memory₁⟩, hhead, h⟩ := bind_eq_ok.1 h
    have hfirst : memory₁.Truthful scope := by
      unfold expandPieceWith at hhead
      split at hhead
      · cases hhead
        exact hmemory
      · exact resolveWith_truthful hdescend hchain hmemory hhead
    dsimp only at h
    split at h
    · cases h
      exact hfirst
    · obtain ⟨⟨tail, memory₂⟩, htail, h⟩ := bind_eq_ok.1 h
      have hrest := ih hfirst htail
      cases h
      exact hrest

end Descent

theorem descend_truthful (depth : Nat) (chain : Chain) (text : Text) (memory : Memory) (o : Outcome)
    (memory' : Memory) (hchain : scope.Orderly chain) (hmemory : memory.Truthful scope)
    (h : scope.descend depth chain text memory = .ok (o, memory')) : memory'.Truthful scope := by
  induction depth generalizing chain text memory o memory' with
  | zero =>
    cases h
    exact hmemory
  | succ depth ih =>
    obtain ⟨template, -, h⟩ := bind_eq_ok.1 h
    exact expandPiecesWith_truthful ih hchain hmemory h

theorem expand_truthful {text : Text} {r : Resolution} (hmemory : memory.Truthful scope)
    (h : scope.expand text memory = .ok (r, memory')) : memory'.Truthful scope := by
  obtain ⟨template, -, h⟩ := bind_eq_ok.1 h
  obtain ⟨⟨o, memory₁⟩, hpieces, h⟩ := bind_eq_ok.1 h
  have hrest := expandPiecesWith_truthful (descend_truthful scope.definitions.total)
    scope.orderly_nil hmemory hpieces
  cases h
  exact hrest

end Scope

/-- Whatever is expanded, only names without values are noted as unresolved. -/
theorem expandAll_truthful {scope : Scope} {texts values : List Text} {cyclic : Bool}
    {memory memory' : Memory} (hmemory : memory.Truthful scope)
    (h : InfFile.expandAll scope texts memory = .ok ((values, cyclic), memory')) :
    memory'.Truthful scope := by
  induction texts generalizing memory memory' values cyclic with
  | nil =>
    cases h
    exact hmemory
  | cons text texts ih =>
    obtain ⟨⟨head, memory₁⟩, hhead, h⟩ := bind_eq_ok.1 h
    obtain ⟨⟨⟨tail, cyclic'⟩, memory₂⟩, htail, h⟩ := bind_eq_ok.1 h
    have hrest := ih (Scope.expand_truthful hmemory hhead) htail
    cases h
    exact hrest

end Expansion

/-! ## Names and keys -/

theorem Template.toNat_lt_of_isKeyChar {c : Char} (h : isKeyChar c = true) : c.toNat < 0x80 := by
  have hclass : c.isAlphanum = true ∨ c ∈ ['_', '.', '-'] := by
    simpa [isKeyChar, or_assoc] using h
  rcases hclass with halnum | hmem
  · have := (Text.isAlphanum_bounds halnum).2
    omega
  · have hall : ['_', '.', '-'].all (fun a => decide (a.toNat < 0x80)) = true := by decide
    exact of_decide_eq_true (List.all_eq_true.1 hall c hmem)

theorem Text.lowercase_eq_asciiLower {s : Text} (h : ∀ c ∈ s, c.toNat < 0x80) :
    Text.lowercase s = Text.asciiLower s := by
  suffices hfrom : ∀ before, Text.lowerFrom before s = Text.asciiLower s from hfrom []
  induction s with
  | nil => exact fun before => rfl
  | cons c s ih =>
    intro before
    have hc : c.toNat < 0x80 := h c List.mem_cons_self
    have hsigma : c ≠ 'Σ' := by
      rintro rfl
      revert hc
      decide
    have hlower : Text.lowerChar c = [c.toLower] := if_pos hc
    rw [Text.lowerFrom, if_neg hsigma, hlower, ih fun a ha => h a (List.mem_cons_of_mem c ha)]
    rfl

namespace InfFile

theorem isKeyChar_toLower {c : Char} (h : LineForm.isKeyChar c = true) :
    LineForm.isKeyChar c.toLower = true := by
  have hall : ∀ n < 0x80, LineForm.isKeyChar (Char.ofNat n) = true →
      LineForm.isKeyChar (Char.ofNat n).toLower = true := by decide +kernel
  have hc := hall c.toNat (Template.toNat_lt_of_isKeyChar (nameChar_of_isKeyChar h))
  rw [Char.ofNat_toNat] at hc
  exact hc h

/-- An entry is never known by a name with a character that keys cannot have. -/
theorem key_ne_of_mem {key name : Text} (hkey : ∀ c ∈ key, LineForm.isKeyChar c = true)
    (hname : ∀ c ∈ name, Template.isKeyChar c = true) {a : Char} (ha : a ∈ name)
    (hother : LineForm.isKeyChar a = false) : Definitions.key key ≠ Definitions.key name := by
  have hmark : a = '.' ∨ a = '-' := by
    have hchar := hname a ha
    unfold Template.isKeyChar at hchar
    unfold LineForm.isKeyChar at hother
    rw [hother] at hchar
    simpa using hchar
  unfold Definitions.key
  rw [Text.lowercase_eq_asciiLower fun c hc => 
      Template.toNat_lt_of_isKeyChar (nameChar_of_isKeyChar (hkey c hc)),
    Text.lowercase_eq_asciiLower fun c hc => Template.toNat_lt_of_isKeyChar (hname c hc)]
  intro he
  have hmem : a.toLower ∈ Text.asciiLower key := by
    rw [he]
    exact List.mem_map_of_mem ha
  obtain ⟨c, hc, hlower⟩ := List.mem_map.1 hmem
  have hsame : a.toLower = a := by
    rcases hmark with rfl | rfl <;> rfl
  rw [hsame] at hlower
  have hchar := isKeyChar_toLower (hkey c hc)
  rw [hlower, hother] at hchar
  cases hchar

/-! ## The lines of a strings section -/

variable {settings : Settings}

/-- Behind some lines the definitions go on as in a strings section if they end in one. -/
theorem definitionsFrom_append (settings : Settings) (inStrings : Bool) (lines : List Text) :
    ∃ behind, (behind = true ↔ InStringsFrom inStrings lines) ∧
      ∀ rest, definitionsFrom settings inStrings ((lines ++ rest).map Line.read) =
        definitionsFrom settings inStrings (lines.map Line.read) ++
          definitionsFrom settings behind (rest.map Line.read) := by
  induction lines generalizing inStrings with
  | nil => exact ⟨inStrings, inStringsFrom_nil.symm, fun rest => rfl⟩
  | cons line lines ih =>
    obtain ⟨behind, hbehind, hrest⟩ := ih (sectionBehind inStrings (LineForm.read line))
    refine ⟨behind, hbehind.trans inStringsFrom_cons.symm, fun rest => ?_⟩
    simp only [definitionsFrom_eq] at hrest ⊢
    rw [List.cons_append, List.map_cons, List.map_cons, markSections, markSections,
      Line.form_read, List.filterMap_cons, List.filterMap_cons, hrest rest]
    split <;> rfl

theorem isKey_of_mem_assignments {lines : List Text} {a : Assignment}
    (h : a ∈ assignments settings (lines.map Line.read)) : IsKey a.name := by
  obtain ⟨⟨⟨key, value⟩, order⟩, hmem, rfl⟩ := List.mem_map.1 h
  rw [definitionsFrom_eq] at hmem
  obtain ⟨⟨inStrings, line⟩, hline, hdefinition⟩ :=
    List.mem_filterMap.1 (List.fst_mem_of_mem_zipIdx hmem)
  obtain ⟨place, hplace⟩ := List.mem_iff_getElem?.1 hline
  obtain ⟨text, -, hform, -⟩ := getElem?_marked.1 hplace
  obtain rfl : line = Line.read text := hform
  obtain ⟨⟨written, hentry, -⟩, -⟩ := definition?_eq_some_iff.1 hdefinition
  obtain ⟨before, after, -, -, hne, hkey⟩ := hentry
  exact ⟨hne, hkey⟩

theorem assignments_stringLine (settings : Settings) {lines above below : List Text}
    {key value : Text} (hkey : IsKey key) (hlines : lines = above ++ (key ++ '=' :: value) :: below)
    (habove : InStrings above) :
    ∃ later, assignments settings (lines.map Line.read) =
      assignments settings (above.map Line.read) ++
        ⟨key, bareValue value, (assignments settings (above.map Line.read)).length⟩ :: later := by
  obtain ⟨behind, hbehind, hrest⟩ := definitionsFrom_append settings false above
  rw [inStringsFrom_false] at hbehind
  obtain rfl : behind = true := hbehind.2 habove
  have hread : (Line.read (key ++ '=' :: value)).form = .entry key (value.dropWhile Text.isBlank) :=
    LineForm.read_eq_entry_iff.2 ⟨value, ⟨[], [], rfl, (fun _ hc => absurd hc List.not_mem_nil),
      hkey.ne_nil, hkey.isKeyChar⟩, rfl⟩
  have hline : definitionsFrom settings true (((key ++ '=' :: value) :: below).map Line.read) =
      (key, bareValue value) :: definitionsFrom settings true (below.map Line.read) := by
    rw [List.map_cons, definitionsFrom, hread, ← bareValue_dropWhile]
    rfl
  unfold assignments
  rw [hlines, hrest, hline, List.zipIdx_append, List.map_append, List.length_map,
    List.length_zipIdx, Nat.zero_add, List.zipIdx_cons, List.map_cons]
  exact ⟨_, rfl⟩

/--
Of the names that a reference can have, a strings section defines those of word characters: such a
line is recorded under the name, and no reference to it is noted as unresolved.  No line of any file
is recorded under another one.
-/
theorem reveal_stringKey {name : Text}
    (hname : Template.read .inf ('%' :: name ++ ['%']) =
      .ok [⟨'%' :: name ++ ['%'], .reference ⟨name, .whole⟩⟩]) :
    ((∀ c ∈ name, LineForm.isKeyChar c = true) →
      ∀ (settings : Settings) (s : Text) (above below : List Text) (value : Text),
        Text.lines s = above ++ (name ++ '=' :: value) :: below → InStrings above →
        ∃ r later, reveal settings s = .ok r ∧
          r.assignments = assignments settings (above.map Line.read) ++
            ⟨name, bareValue value, (assignments settings (above.map Line.read)).length⟩ :: later ∧
          .unresolvedReference name ∉ r.diagnostics) ∧
    ((∃ c ∈ name, LineForm.isKeyChar c = false) →
      ∀ (settings : Settings) (s : Text), ∃ r, reveal settings s = .ok r ∧
        ∀ a ∈ r.assignments, Definitions.key a.name ≠ Definitions.key name) := by
  have hmem : (⟨name, .whole⟩ : Reference) ∈
      Template.references [⟨'%' :: name ++ ['%'], .reference ⟨name, .whole⟩⟩] :=
    List.mem_cons_self
  obtain ⟨mark, body, hsite, -⟩ := Template.site_of_mem_read hname hmem
  obtain ⟨-, hne, hchars⟩ := Template.Fragment.named_of_mem_cut hsite
  constructor
  · intro hword settings s above below value hlines habove
    obtain ⟨later, hassignments⟩ :=
      assignments_stringLine settings ⟨hne, hword⟩ hlines habove
    obtain ⟨r, hreveal⟩ := reveal_ok settings s
    obtain ⟨⟨⟨values, cyclic⟩, memory⟩, hexpand, h⟩ := bind_eq_ok.1 hreveal
    have htruthful := Expansion.expandAll_truthful (fun name' hnone => by cases hnone) hexpand
    cases h
    refine ⟨_, later, hreveal, hassignments, fun hnoted => ?_⟩
    have hdefined : ((assignments settings ((Text.lines s).map Line.read)).foldl
        (fun ds a => ds.define a)
        (if settings.wellKnown then Definitions.stock .inf else .empty)).contains name = true := by
      rw [Definitions.contains_foldl_define, hassignments]
      exact Or.inr ⟨_, List.mem_append_right _ List.mem_cons_self, rfl⟩
    exact (Definitions.contains_iff _ name).1 hdefined (htruthful name hnoted)
  · rintro ⟨a, ha, hother⟩ settings s
    obtain ⟨r, hreveal⟩ := reveal_ok settings s
    obtain ⟨⟨⟨values, cyclic⟩, memory⟩, hexpand, h⟩ := bind_eq_ok.1 hreveal
    cases h
    refine ⟨_, hreveal, fun assignment hassignment => ?_⟩
    exact key_ne_of_mem (isKey_of_mem_assignments hassignment).isKeyChar hchars ha hother

/-- A name that was given a value before, in another letter case. -/
theorem reveal_stringKey_again :
    let s := "%A_1%\r\n[strings.0409]\na_1=v1\nA_1= 'two' \n".toList
    let above := ["%A_1%".toList, "[strings.0409]".toList, "a_1=v1".toList]
    Text.lines s = above ++ ("A_1".toList ++ '=' :: " 'two' ".toList) :: [[]] ∧ InStrings above ∧
      assignments {} (above.map Line.read) = [⟨"a_1".toList, "v1".toList, 0⟩] ∧
      ∃ r later, reveal {} s = .ok r ∧
        r.assignments = assignments {} (above.map Line.read) ++ ⟨"A_1".toList, "two".toList, 1⟩ :: later ∧
        .unresolvedReference "A_1".toList ∉ r.diagnostics := by
  intro s above
  have hread : Template.read .inf ('%' :: "A_1".toList ++ ['%']) =
      .ok [⟨'%' :: "A_1".toList ++ ['%'], .reference ⟨"A_1".toList, .whole⟩⟩] := by decide +kernel
  have hlines : Text.lines s = above ++ ("A_1".toList ++ '=' :: " 'two' ".toList) :: [[]] := by
    decide +kernel
  have habove : InStrings above := by
    refine ⟨["%A_1%".toList], "[strings.0409]".toList, "strings.0409".toList, ["a_1=v1".toList], rfl,
      LineForm.read_eq_header_iff.1 (by decide +kernel), Or.inr (by decide),
      fun other hother name' hheader => ?_⟩
    rw [List.mem_singleton.1 hother] at hheader
    cases LineForm.read_eq_header_iff.2 hheader
  have hassignments : assignments {} (above.map Line.read) = [⟨"a_1".toList, "v1".toList, 0⟩] := by
    decide +kernel
  obtain ⟨r, later, hreveal, hrecorded, hnone⟩ :=
    (reveal_stringKey hread).1 (List.all_eq_true.1 (by decide)) {} s above [[]] _ hlines habove
  rw [hassignments] at hrecorded ⊢
  exact ⟨hlines, habove, rfl, r, later, hreveal, hrecorded, hnone⟩

/-- A name with a dot can be used, and the line that would define it is no entry. -/
theorem reveal_stringKey_dotted :
    let s := "[Run]\n%a.b%\n[Strings]\na.b=x".toList
    let above := ["[Run]".toList, "%a.b%".toList, "[Strings]".toList]
    Template.read .inf "%a.b%".toList =
        .ok [⟨"%a.b%".toList, .reference ⟨"a.b".toList, .whole⟩⟩] ∧
      Text.lines s = above ++ ("a.b".toList ++ '=' :: "x".toList) :: [] ∧ InStrings above ∧
      reveal {} s = .ok ⟨"[Run]".toList, [], [.unresolvedReference "a.b".toList], false⟩ := by
  refine ⟨by decide +kernel, by decide +kernel, ?_, by decide +kernel⟩
  exact ⟨["[Run]".toList, "%a.b%".toList], "[Strings]".toList, "Strings".toList, [], rfl,
    LineForm.read_eq_header_iff.1 (by decide +kernel), Or.inl (by decide),
    fun other hother => absurd hother List.not_mem_nil⟩

end InfFile

end Unmask
