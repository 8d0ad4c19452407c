import Unmask.Proofs.Rests

/-!
# Loops that come to an end

What a loop comes to for an item may be a loop again, and so on.  A form has definitions if that stops
somewhere, whichever of the instances is followed, and it is endless if not.

    exists_definitions_iff     the forms that have definitions
    definitions?_kind          what a statement defines is what its form does
    kind_eq_endless_iff        the statements that go on for ever
    scan_eq_ok_iff             the texts that are read as scripts, loops included
-/

namespace Unmask.Script

variable {α β : Type}

theorem exists_mapM_iff {f : α → Option β} {l : List α} :
    (∃ r, l.mapM f = some r) ↔ ∀ a ∈ l, ∃ b, f a = some b := by
  induction l with
  | nil => simp
  | cons a l ih =>
    rw [List.mapM_cons, List.forall_mem_cons, ← ih]
    constructor
    · rintro ⟨r, h⟩
      obtain ⟨b, hb, h⟩ := Option.bind_eq_some_iff.1 h
      obtain ⟨bs, hbs, -⟩ := Option.bind_eq_some_iff.1 h
      exact ⟨⟨b, hb⟩, bs, hbs⟩
    · rintro ⟨⟨b, hb⟩, bs, hbs⟩
      exact ⟨b :: bs, by rw [hb, hbs]; rfl⟩

theorem exists_of_mem_mapM {f : α → Option β} {l : List α} {r : List β} (h : l.mapM f = some r)
    {b : β} (hb : b ∈ r) : ∃ a ∈ l, f a = some b := by
  induction l generalizing r with
  | nil =>
    cases h
    cases hb
  | cons a l ih =>
    rw [List.mapM_cons] at h
    obtain ⟨b', hb', h⟩ := Option.bind_eq_some_iff.1 h
    obtain ⟨bs, hbs, h⟩ := Option.bind_eq_some_iff.1 h
    cases h
    rcases List.mem_cons.1 hb with rfl | hmem
    · exact ⟨a, List.mem_cons_self, hb'⟩
    · obtain ⟨a', ha', hfa'⟩ := ih hbs hmem
      exact ⟨a', List.mem_cons_of_mem a ha', hfa'⟩

/-- Where each result of one computation is a result of another, so are those of a list. -/
theorem mapM_eq_some_of_imp {f g : α → Option β} (h : ∀ a b, f a = some b → g a = some b)
    {l : List α} {r : List β} (hr : l.mapM f = some r) : l.mapM g = some r := by
  induction l generalizing r with
  | nil => exact hr
  | cons a l ih =>
    rw [List.mapM_cons] at hr ⊢
    obtain ⟨b, hb, hr⟩ := Option.bind_eq_some_iff.1 hr
    obtain ⟨bs, hbs, hr⟩ := Option.bind_eq_some_iff.1 hr
    rw [h a b hb, ih hbs]
    exact hr

theorem wholeForm?_eq_some_iff {s : Text} {form : Form} :
    wholeForm? s = some form ↔ readForm s = (form, []) := by
  unfold wholeForm?
  split
  · next form' h => rw [h, Option.some.injEq, Prod.mk.injEq, and_iff_left rfl]
  · next h => rw [h, Prod.mk.injEq, and_comm]; exact ⟨(by cases ·), fun hnil => by cases hnil.1⟩

namespace Form

variable {form inner : Form} {l : Loop} {ds : List (Text × Text)}

theorem definitions?_assignment (name value : Text) :
    (assignment name value).definitions? = some [(name, value)] := by
  rw [definitions?]

theorem definitions?_command : command.definitions? = some [] := by
  rw [definitions?]

theorem definitions?_loop (l : Loop) :
    (loop l).definitions? = (l.inner.mapM definitions?).map List.flatten := by
  rw [definitions?]
  cases l.inner.mapM definitions? <;> rfl

/-! ## Coming to an end -/

/-- One form is what a loop, which is the other form, comes to for one of its items. -/
def Inner (inner outer : Form) : Prop :=
  ∃ l, outer = loop l ∧ inner ∈ l.inner

/-- From a form no chain of loops goes on for ever, each of them an instance of the one before. -/
def Ends (form : Form) : Prop :=
  Acc Inner form

theorem ends_assignment (name value : Text) : (assignment name value).Ends :=
  ⟨_, fun _ ⟨_, h, _⟩ => by cases h⟩

theorem ends_command : command.Ends :=
  ⟨_, fun _ ⟨_, h, _⟩ => by cases h⟩

theorem ends_loop_iff : (loop l).Ends ↔ ∀ inner ∈ l.inner, inner.Ends := by
  constructor
  · intro h inner hinner
    exact h.inv ⟨l, rfl, hinner⟩
  · intro h
    refine ⟨_, ?_⟩
    rintro inner ⟨_, hl, hinner⟩
    cases hl
    exact h inner hinner

/-- What has an instance that is like it has no end. -/
theorem not_ends_of_inner {P : Form → Prop} (h : ∀ form, P form → ∃ inner, Inner inner form ∧ P inner)
    (hform : P form) : ¬form.Ends := by
  intro hends
  induction hends with
  | intro form _ ih =>
    obtain ⟨inner, hinner, hp⟩ := h form hform
    exact ih inner hinner hp

/-- A form has definitions exactly if it comes to an end. -/
theorem exists_definitions_iff : (∃ ds, form.definitions? = some ds) ↔ form.Ends := by
  constructor
  · rintro ⟨ds, h⟩
    refine definitions?.partial_correctness (fun form _ => form.Ends) ?_ form ds h
    intro definitions ih form ds h
    cases form with
    | assignment name value => exact ends_assignment name value
    | command => exact ends_command
    | loop l =>
      obtain ⟨parts, hparts, -⟩ := Option.bind_eq_some_iff.1 h
      refine ends_loop_iff.2 fun inner hinner => ?_
      obtain ⟨part, hpart⟩ := exists_mapM_iff.1 ⟨parts, hparts⟩ inner hinner
      exact ih inner part hpart
  · intro h
    induction h with
    | intro form _ ih =>
      cases form with
      | assignment name value => exact ⟨_, definitions?_assignment name value⟩
      | command => exact ⟨_, definitions?_command⟩
      | loop l =>
        obtain ⟨parts, hparts⟩ := exists_mapM_iff.2 fun inner hinner => ih inner ⟨l, rfl, hinner⟩
        exact ⟨parts.flatten, by rw [definitions?_loop, hparts]; rfl⟩

theorem definitions?_eq_none_iff : form.definitions? = none ↔ ¬form.Ends := by
  rw [← exists_definitions_iff, Option.eq_none_iff_forall_ne_some, not_exists]

/-! ## What statements do -/

/-- A statement goes on for ever exactly if its form does not come to an end. -/
theorem kind_eq_endless_iff : form.kind = .endless ↔ ¬form.Ends := by
  cases form with
  | assignment name value =>
    exact ⟨(by cases ·), fun h => absurd (ends_assignment name value) h⟩
  | command => exact ⟨(by cases ·), fun h => absurd ends_command h⟩
  | loop l =>
    rw [← definitions?_eq_none_iff, kind]
    cases (loop l).definitions? with
    | none => exact ⟨fun _ => rfl, fun _ => rfl⟩
    | some ds => cases ds <;> exact ⟨(by cases ·), (by cases ·)⟩

theorem definitions_kind (h : form.definitions? = some ds) : form.kind.definitions = ds := by
  cases form with
  | assignment name value =>
    rw [definitions?_assignment] at h
    exact Option.some.inj h
  | command =>
    rw [definitions?_command] at h
    exact Option.some.inj h
  | loop l =>
    rw [kind, h]
    cases ds <;> rfl

/-! ## Loops of a known depth -/

/-- The definitions of a form, if no more than `depth` loops stand in one another in it. -/
def definitionsWithin : (depth : Nat) → Form → Option (List (Text × Text))
  | _, assignment name value => some [(name, value)]
  | _, command => some []
  | 0, loop _ => none
  | depth + 1, loop l => (l.inner.mapM (definitionsWithin depth)).map List.flatten

theorem definitions?_of_within {depth : Nat} (h : definitionsWithin depth form = some ds) :
    form.definitions? = some ds := by
  induction depth generalizing form ds with
  | zero =>
    cases form with
    | assignment name value => exact (definitions?_assignment name value).trans h
    | command => exact definitions?_command.trans h
    | loop l => cases h
  | succ depth ih =>
    cases form with
    | assignment name value => exact (definitions?_assignment name value).trans h
    | command => exact definitions?_command.trans h
    | loop l =>
      obtain ⟨parts, hparts, rfl⟩ := Option.map_eq_some_iff.1 h
      rw [definitions?_loop, mapM_eq_some_of_imp (fun _ _ => ih) hparts, Option.map_some]

/-- What a statement of a form does, if no more than `depth` loops stand in one another in it. -/
def kindWithin (depth : Nat) : Form → Option Kind
  | assignment name value => some (.assignment name value)
  | command => some .command
  | loop l => (definitionsWithin depth (loop l)).map fun ds =>
    if ds = [] then .command else .loop ds

theorem kind_of_within {depth : Nat} {kind : Kind} (h : form.kindWithin depth = some kind) :
    form.kind = kind := by
  cases form with
  | assignment name value => exact Option.some.inj h
  | command => exact Option.some.inj h
  | loop l =>
    obtain ⟨ds, hds, rfl⟩ := Option.map_eq_some_iff.1 h
    rw [Form.kind, definitions?_of_within hds]
    cases ds <;> rfl

end Form

/-- What a statement defines, which an endless one never comes to. -/
def Kind.definitions? : Kind → Option (List (Text × Text))
  | endless => none
  | kind => some kind.definitions

theorem Form.definitions?_kind (form : Form) : form.kind.definitions? = form.definitions? := by
  cases h : form.definitions? with
  | none => rw [kind_eq_endless_iff.2 (definitions?_eq_none_iff.1 h), Kind.definitions?]
  | some ds =>
    have hkind : form.kind ≠ .endless := fun he =>
      kind_eq_endless_iff.1 he (exists_definitions_iff.1 ⟨ds, h⟩)
    rw [Kind.definitions? , definitions_kind h]
    exact hkind

/-! ## Scripts -/

/-- The statement at the head of a text, if no more than `depth` loops stand in one another. -/
def Statement.firstWithin (depth : Nat) (s : Text) : Option Statement :=
  ((readForm s).1.kindWithin depth).map fun kind => ⟨firstText s, kind⟩

/-- Reads a text as a script, if no more than `depth` loops stand in one another. -/
def readWithin (depth : Nat) (s : Text) : Option Script := do
  let head ← Statement.firstWithin depth s
  let tail ← (separators firstText s).mapM fun next =>
    (Statement.firstWithin depth next.2).map fun statement => (next.1, statement)
  return ⟨head, tail⟩

theorem first_of_within {depth : Nat} {s : Text} {statement : Statement}
    (h : Statement.firstWithin depth s = some statement) : Statement.first s = statement := by
  obtain ⟨kind, hkind, rfl⟩ := Option.map_eq_some_iff.1 h
  rw [← Form.kind_of_within hkind]
  rfl

theorem read_of_within {depth : Nat} {s : Text} {script : Script}
    (h : readWithin depth s = some script) : read s = script := by
  obtain ⟨head, hhead, h⟩ := Option.bind_eq_some_iff.1 h
  obtain ⟨tail, htail, h⟩ := Option.bind_eq_some_iff.1 h
  cases h
  have hmap := mapM_eq_some_of_imp (g := fun next => pure (next.1, Statement.first next.2))
    (fun next found hfound => ?_) htail
  · rw [List.mapM_pure] at hmap
    rw [read_eq_separators, first_of_within hhead, Option.some.inj hmap]
  · obtain ⟨statement, hstatement, rfl⟩ := Option.map_eq_some_iff.1 hfound
    exact congrArg (fun statement => some (next.1, statement)) (first_of_within hstatement)

/-- No statement of a text goes on for ever. -/
def LoopsEnd (s : Text) : Prop :=
  ∀ t ∈ starts firstText s, (readForm t).1.Ends

/-- A text goes on for ever if what stands behind its first separator does. -/
theorem not_loopsEnd_of_behind {s t : Text} {c : Char} {separator : Separator} {width : Nat}
    (h : (readForm s).2 = c :: t) (hfirst : Separator.first? c t = some (separator, width))
    (hbehind : ¬LoopsEnd (t.drop width)) : ¬LoopsEnd s := by
  refine fun hends => hbehind fun u hu => hends u ?_
  rw [starts_next h hfirst]
  exact List.mem_cons_of_mem s hu

theorem ends_iff {script : Script} :
    script.ends = true ↔ ∀ statement ∈ script.statements, statement.kind ≠ .endless := by
  simp only [ends, statements, Bool.and_eq_true, bne_iff_ne, List.all_eq_true, List.forall_mem_cons,
    List.forall_mem_map]

theorem ends_of_append {script : Script} {rest : List (Separator × Statement)}
    (h : ends ⟨script.head, script.tail ++ rest⟩ = true) : script.ends = true := by
  simp only [ends, List.all_append, Bool.and_eq_true] at h ⊢
  exact ⟨h.1, h.2.1⟩

theorem ends_tail {statement : Statement} {next : Separator × Statement}
    {rest : List (Separator × Statement)} (h : ends ⟨statement, next :: rest⟩ = true) :
    ends ⟨next.2, rest⟩ = true := by
  rw [ends_iff] at h ⊢
  exact fun statement hmem => h statement (List.mem_cons_of_mem _ hmem)

theorem ends_read_iff {s : Text} : (read s).ends = true ↔ LoopsEnd s := by
  rw [ends_iff, statements_read, List.forall_mem_map]
  refine forall₂_congr fun t _ => ?_
  rw [kind_first, ne_eq, Form.kind_eq_endless_iff, not_not]

theorem scan_eq_ok_iff {s : Text} {script : Script} :
    scan s = .ok script ↔ LoopsEnd s ∧ read s = script := by
  rw [← ends_read_iff, scan]
  split
  · next hends => exact ⟨fun h => ⟨hends, Except.ok.inj h⟩, fun h => congrArg Except.ok h.2⟩
  · next hends => exact ⟨(by cases ·), fun h => absurd h.1 hends⟩

theorem scan_eq_error_iff {s : Text} {fault : Fault} :
    scan s = .error fault ↔ ¬LoopsEnd s ∧ fault = .endlessLoop := by
  rw [← ends_read_iff, scan]
  split
  · next hends => exact ⟨(by cases ·), fun h => absurd hends h.1⟩
  · next hends =>
    exact ⟨fun h => ⟨hends, (Except.error.inj h).symm⟩, fun h => congrArg Except.error h.2.symm⟩

end Unmask.Script
