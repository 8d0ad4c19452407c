import Unmask.CommandLine.Arguments
import Mathlib.Data.List.Nodup

/-!
# Options as they are written

An option is written with its long name or with its letter.  Letters can stand together.  A value
stands behind the name, behind `=`, or in the next argument.  Whatever way was chosen, the
arguments are read as the options that are written in them, one after the other, and refused if
these do not go together.

    foldlM_take_written    a written option is read as the options that it stands for
    takeFlags_eq           options are taken as long as they go together
    read_batchArguments    a call of `batch` with options only
    read_fileOption        and with a file among them
-/

namespace Unmask.CommandLine

/-! ## Writing -/

/-- A name of an option that takes a value, or of one that takes none. -/
structure OptionName {α : Type} [BEq α] (names : List (α × Flag)) (valued : Bool) where
  name : α
  flag : Flag
  named : names.lookup name = some flag
  takesValue : flag.takesValue = valued

abbrev LongName (valued : Bool) := OptionName Flag.longNames valued

abbrev ShortName (valued : Bool) := OptionName Flag.shortNames valued

inductive WrittenOption where
  /-- A long name, as in `--raw`. -/
  | long (o : LongName false)
  /-- A long name with a value, as in `--config=FILE`. -/
  | longWith (o : LongName true) (value : Text)
  /-- A long name in front of a value, as in `--config FILE`. -/
  | longThen (o : LongName true) (value : Text)
  /-- Letters, as in `-vv`. -/
  | letters (first : ShortName false) (more : List (ShortName false))
  /-- Letters with a value, as in `-cFILE` or `-vc=FILE`. -/
  | lettersWith (more : List (ShortName false)) (o : ShortName true) (value : Text) (h : value ≠ [])
  /-- Letters in front of a value, as in `-vc FILE`. -/
  | lettersThen (more : List (ShortName false)) (o : ShortName true) (value : Text)

namespace WrittenOption

/-- The value that stands behind a letter, with `=` or without. -/
def attached : Text → Text
  | '=' :: value => value
  | value => value

/-- Whether an argument looks like an option. -/
def looksLikeOption : Text → Bool
  | '-' :: _ :: _ => true
  | _ => false

/-- The value in an argument of its own.  What looks like an option is refused as if it were empty. -/
def separate (value : Text) : Text :=
  if looksLikeOption value then [] else value

def written : WrittenOption → List Text
  | long o => ['-' :: '-' :: o.name.toList]
  | longWith o value => ['-' :: '-' :: (o.name.toList ++ '=' :: value)]
  | longThen o value => ['-' :: '-' :: o.name.toList, value]
  | letters first more => ['-' :: (first :: more).map OptionName.name]
  | lettersWith more o value _ => ['-' :: (more.map OptionName.name ++ o.name :: value)]
  | lettersThen more o value => ['-' :: (more.map OptionName.name ++ [o.name]), value]

def switches (os : List (ShortName false)) : List (Flag × Option Text) :=
  os.map fun o => (o.flag, none)

def flags : WrittenOption → List (Flag × Option Text)
  | long o => [(o.flag, none)]
  | longWith o value => [(o.flag, some value)]
  | longThen o value => [(o.flag, some (separate value))]
  | letters first more => switches (first :: more)
  | lettersWith more o value _ => switches more ++ [(o.flag, some (attached value))]
  | lettersThen more o value => switches more ++ [(o.flag, some (separate value))]

def arguments (os : List WrittenOption) : List Text :=
  os.flatMap written

def meaning (os : List WrittenOption) : List (Flag × Option Text) :=
  os.flatMap flags

end WrittenOption

/-! ## Options that go together -/

/-- An option that a command knows, and that asks neither for help nor for the version. -/
def Flag.IsSetting (command : Option Command) (flag : Flag) : Prop :=
  flag.isKnown command = true ∧ flag ≠ .help ∧ flag ≠ .version

section
variable {flag : Flag} {flags : List (Flag × Option Text)} {value : Option Text}

/-- No value is empty, and only `verbose` is given twice. -/
def GoTogether (flags : List (Flag × Option Text)) : Prop :=
  (∀ option ∈ flags, option.2 ≠ some []) ∧
    ((flags.map Prod.fst).filter (· ≠ .verbose)).Nodup

instance : DecidablePred GoTogether :=
  fun _ => inferInstanceAs (Decidable (_ ∧ _))

theorem goTogether_nil : GoTogether [] :=
  ⟨by simp, List.nodup_nil⟩

/-- An option goes with others unless its value is empty or it is given again. -/
theorem goTogether_cons_iff : GoTogether ((flag, value) :: flags) ↔
    ¬(value = some [] ∨ flag ≠ .verbose ∧ flag ∈ flags.map Prod.fst) ∧ GoTogether flags := by
  unfold GoTogether
  rw [List.forall_mem_cons, List.map_cons]
  by_cases hverbose : flag = .verbose
  · rw [List.filter_cons_of_neg (by simpa using hverbose)]
    tauto
  · rw [List.filter_cons_of_pos (by simpa using hverbose), List.nodup_cons, List.mem_filter,
      decide_eq_true_iff]
    tauto

theorem goTogether_perm {flags' : List (Flag × Option Text)} (h : flags.Perm flags') :
    GoTogether flags ↔ GoTogether flags' := by
  unfold GoTogether
  rw [((h.map Prod.fst).filter _).nodup_iff]
  simp only [h.mem_iff]

/-- An option goes with others wherever it stands among them. -/
theorem goTogether_insert_iff (front behind : List (Flag × Option Text)) :
    GoTogether (front ++ (flag, value) :: behind) ↔
      ¬(value = some [] ∨ flag ≠ .verbose ∧ flag ∈ (front ++ behind).map Prod.fst) ∧
        GoTogether (front ++ behind) :=
  (goTogether_perm List.perm_middle).trans goTogether_cons_iff

theorem GoTogether.of_append {more : List (Flag × Option Text)} (h : GoTogether (flags ++ more)) :
    GoTogether flags := by
  refine ⟨fun option hmem => h.1 option (List.mem_append_left _ hmem), ?_⟩
  have hnodup := h.2
  rw [List.map_append, List.filter_append] at hnodup
  exact hnodup.of_append_left

theorem Seen.has_iff (seen : Seen) : seen.has flag = true ↔ flag ∈ seen.flags.map Prod.fst := by
  unfold Seen.has
  rw [List.lookup_isSome_iff, List.mem_map]
  constructor
  · rintro ⟨option, hmem, hflag⟩
    exact ⟨option, hmem, (eq_of_beq hflag).symm⟩
  · rintro ⟨option, hmem, rfl⟩
    exact ⟨option, hmem, beq_self_eq_true _⟩

end

namespace Reading

def takeFlags (flags : List (Flag × Option Text)) (r : Reading) : Except Invocation Reading :=
  flags.foldlM (fun r option => r.takeFlag option.1 option.2) r

def add (flags : List (Flag × Option Text)) (r : Reading) : Reading :=
  { r with current := { r.current with flags := r.current.flags ++ flags } }

structure IsOpen (r : Reading) : Prop where
  notPlain : r.plain = false
  notPending : r.pending = none
  notHelp : r.command ≠ some .help

variable {r r' : Reading} {flag : Flag} {flags : List (Flag × Option Text)} {value : Option Text}

/-! ## Taking options -/

theorem takeFlags_cons (option : Flag × Option Text) :
    takeFlags (option :: flags) r = r.takeFlag option.1 option.2 >>= takeFlags flags :=
  List.foldlM_cons

theorem takeFlags_singleton : takeFlags [(flag, value)] r = r.takeFlag flag value :=
  (takeFlags_cons _).trans (bind_pure _)

theorem takeFlags_append (more : List (Flag × Option Text)) :
    takeFlags (flags ++ more) r = takeFlags flags r >>= takeFlags more :=
  List.foldlM_append

theorem add_nil (r : Reading) : r.add [] = r := by
  unfold add
  rw [List.append_nil]

theorem add_add (r : Reading) (flags more : List (Flag × Option Text)) :
    (r.add flags).add more = r.add (flags ++ more) := by
  unfold add
  simp only [List.append_assoc]

theorem IsOpen.add (hr : r.IsOpen) (flags : List (Flag × Option Text)) : (r.add flags).IsOpen :=
  ⟨hr.notPlain, hr.notPending, hr.notHelp⟩

theorem eq_add_of_takeFlag (hr : r.IsOpen) (h : r.takeFlag flag value = .ok r') :
    r' = r.add [(flag, value)] := by
  unfold takeFlag at h
  split at h
  · cases h
  · split at h
    · cases h
    · split at h
      · cases h
      · cases h
        unfold Reading.add
        rw [← hr.notPending]

theorem eq_add_of_takeFlags (hr : r.IsOpen) (h : takeFlags flags r = .ok r') : r' = r.add flags := by
  induction flags generalizing r with
  | nil =>
    cases h
    exact (add_nil _).symm
  | cons option flags ih =>
    rw [takeFlags_cons] at h
    cases htake : r.takeFlag option.1 option.2 with
    | error e =>
      rw [htake] at h
      cases h
    | ok s =>
      rw [htake] at h
      have hs := eq_add_of_takeFlag hr htake
      subst hs
      rw [ih (hr.add _) h, add_add]
      rfl

/-- What follows some options depends on the reading behind them only. -/
theorem bind_takeFlags_congr (hr : r.IsOpen) {f g : Reading → Except Invocation Reading}
    (h : f (r.add flags) = g (r.add flags)) :
    takeFlags flags r >>= f = takeFlags flags r >>= g := by
  cases htake : takeFlags flags r with
  | error e => rfl
  | ok s =>
    have hs := eq_add_of_takeFlags hr htake
    subst hs
    exact h

theorem takeFlag_empty (h : flag.takesValue = true) :
    r.takeFlag flag (some []) = .error .refused := by
  have hhelp : flag ≠ .help := fun e => by cases e ▸ h
  have hversion : flag ≠ .version := fun e => by cases e ▸ h
  rw [takeFlag, if_neg hhelp, if_neg hversion, if_pos (Or.inl rfl)]

theorem takeNamed_switch (hknown : flag.isKnown r.command = true) (h : flag.takesValue = false) :
    r.takeNamed (some flag) none = r.takeFlag flag none := by
  unfold takeNamed
  rw [Option.filter_some, if_pos hknown]
  dsimp only
  rw [h]

theorem takeNamed_valued (hknown : flag.isKnown r.command = true) (h : flag.takesValue = true)
    (value : Text) : r.takeNamed (some flag) (some value) = r.takeFlag flag (some value) := by
  unfold takeNamed
  rw [Option.filter_some, if_pos hknown]
  dsimp only
  rw [h]

theorem takeNamed_pending (hknown : flag.isKnown r.command = true) (h : flag.takesValue = true) :
    r.takeNamed (some flag) none = .ok { r with pending := some flag } := by
  unfold takeNamed
  rw [Option.filter_some, if_pos hknown]
  dsimp only
  rw [h]

/-! ## Reading what is written -/

open WrittenOption (written arguments meaning switches separate attached looksLikeOption)

theorem mem_of_lookup {α : Type} [BEq α] [LawfulBEq α] {names : List (α × Flag)} {name : α}
    (h : names.lookup name = some flag) : (name, flag) ∈ names := by
  obtain ⟨front, behind, rfl, -⟩ := List.lookup_eq_some_iff.1 h
  exact List.mem_append_right _ List.mem_cons_self

theorem longName_ne {valued : Bool} (o : LongName valued) :
    o.name.toList ≠ [] ∧ ∀ c ∈ o.name.toList, (c != '=') = true := by
  have hall : Flag.longNames.all
      (fun p => !p.1.toList.isEmpty && p.1.toList.all (· != '=')) = true := by decide
  have hname := List.all_eq_true.1 hall _ (mem_of_lookup o.named)
  rw [Bool.and_eq_true, Bool.not_eq_true', List.isEmpty_eq_false_iff, List.all_eq_true] at hname
  exact hname

theorem shortName_ne {valued : Bool} (o : ShortName valued) : o.name ≠ '-' := by
  have hall : ∀ p ∈ Flag.shortNames, p.1 ≠ '-' := by decide
  exact hall _ (mem_of_lookup o.named)

theorem takeLong_name {valued : Bool} (o : LongName valued) :
    r.takeLong o.name.toList = r.takeNamed (some o.flag) none := by
  have hwhile : o.name.toList.takeWhile (· != '=') = o.name.toList := by
    rw [← List.append_nil o.name.toList, List.takeWhile_append_of_pos (longName_ne o).2]
    rfl
  unfold takeLong
  simp only [hwhile, List.drop_length, String.ofList_toList, o.named]

theorem takeLong_value {valued : Bool} (o : LongName valued) (value : Text) :
    r.takeLong (o.name.toList ++ '=' :: value) = r.takeNamed (some o.flag) (some value) := by
  have hwhile : (o.name.toList ++ '=' :: value).takeWhile (· != '=') = o.name.toList := by
    rw [List.takeWhile_append_of_pos (longName_ne o).2]
    exact List.append_nil _
  unfold takeLong
  simp only [hwhile, List.drop_left, String.ofList_toList, o.named]

theorem any_takesValue {valued : Bool} (o : ShortName valued) :
    (some o.flag).any Flag.takesValue = valued :=
  o.takesValue

theorem takeShort_switch (o : ShortName false) (hknown : o.flag.isKnown r.command = true)
    (letters : Text) :
    takeShort (o.name :: letters) r = r.takeFlag o.flag none >>= takeShort letters := by
  have hnotValued : ¬(some o.flag).any Flag.takesValue = true := by
    rw [any_takesValue]
    exact Bool.false_ne_true
  unfold takeShort
  simp only [o.named]
  rw [if_neg hnotValued, takeNamed_switch hknown o.takesValue]

/-- Letters without a value are taken one by one. -/
theorem takeShort_append (hr : r.IsOpen) (os : List (ShortName false)) (behind : Text)
    (hknown : ∀ o ∈ os, o.flag.isKnown r.command = true) :
    takeShort (os.map OptionName.name ++ behind) r =
      takeFlags (switches os) r >>= takeShort behind := by
  induction os generalizing r with
  | nil => rfl
  | cons o os ih =>
    show takeShort (o.name :: (os.map OptionName.name ++ behind)) r =
      takeFlags ((o.flag, none) :: switches os) r >>= takeShort behind
    rw [takeShort_switch o (hknown o List.mem_cons_self), takeFlags_cons, ← takeFlags_singleton,
      bind_assoc]
    exact bind_takeFlags_congr hr
      (ih (hr.add _) fun o ho => hknown o (List.mem_cons_of_mem _ ho))

theorem takeShort_value (o : ShortName true) {value : Text} (hvalue : value ≠ []) :
    takeShort (o.name :: value) r = r.takeNamed (some o.flag) (some (attached value)) := by
  unfold takeShort attached
  simp only [o.named]
  rw [if_pos (any_takesValue o)]
  split
  · exact absurd rfl hvalue
  · rfl
  · split
    · next hequals => exact absurd rfl (hequals _)
    · rfl

theorem takeShort_last (o : ShortName true) :
    takeShort [o.name] r = r.takeNamed (some o.flag) none := by
  unfold takeShort
  simp only [o.named]
  rw [if_pos (any_takesValue o)]

theorem IsOpen.not_plain (hr : r.IsOpen) : ¬(r.plain || r.command = some .help) = true := by
  rw [hr.notPlain, decide_eq_false hr.notHelp]
  exact Bool.false_ne_true

theorem take_long (hr : r.IsOpen) {s : Text} (hs : s ≠ []) :
    r.take ('-' :: '-' :: s) = r.takeLong s := by
  unfold take
  rw [if_neg hr.not_plain, hr.notPending]
  cases s with
  | nil => exact absurd rfl hs
  | cons c s => rfl

theorem take_letters (hr : r.IsOpen) {c : Char} (hc : c ≠ '-') (letters : Text) :
    r.take ('-' :: c :: letters) = r.takeShort (c :: letters) := by
  unfold take
  rw [if_neg hr.not_plain, hr.notPending]
  split
  · contradiction
  · contradiction
  · next h => exact absurd (List.cons.inj (List.cons.inj h).2).1 hc
  · next h => exact absurd (List.cons.inj (List.cons.inj h).2).1 hc
  · next h =>
    cases h
    rfl
  · next h => exact absurd rfl (h _ _)

theorem looksLikeOption_eq_false {value : Text} (h : ∀ c s, value = '-' :: c :: s → False) :
    looksLikeOption value = false := by
  unfold looksLikeOption
  split
  · exact (h _ _ rfl).elim
  · rfl

theorem take_separate (hr : r.IsOpen) (hvalued : flag.takesValue = true) (value : Text) :
    take { r with pending := some flag } value = r.takeFlag flag (some (separate value)) := by
  unfold take separate
  dsimp only
  rw [if_neg hr.not_plain]
  split
  · exact (takeFlag_empty hvalued).symm
  · next hflag hshape =>
    cases hflag
    rw [looksLikeOption_eq_false hshape]
    rfl
  all_goals contradiction

theorem take_group (hr : r.IsOpen) (os : List (ShortName false)) (o : ShortName true)
    (behind : Text) (hknown : ∀ o ∈ os, o.flag.isKnown r.command = true) :
    r.take ('-' :: (os.map OptionName.name ++ o.name :: behind)) =
      takeFlags (switches os) r >>= takeShort (o.name :: behind) := by
  rw [← takeShort_append hr os _ hknown]
  cases os with
  | nil => exact take_letters hr (shortName_ne o) _
  | cons first os => exact take_letters hr (shortName_ne first) _

theorem foldlM_take_one (argument : Text) : [argument].foldlM take r = r.take argument :=
  List.foldlM_cons.trans (bind_pure _)

theorem foldlM_take_two (argument next : Text) :
    [argument, next].foldlM take r = r.take argument >>= fun s => s.take next :=
  List.foldlM_cons.trans (bind_congr fun _ => foldlM_take_one next)

theorem foldlM_take_written (hr : r.IsOpen) (o : WrittenOption)
    (hknown : ∀ option ∈ o.flags, option.1.isKnown r.command = true) :
    o.written.foldlM take r = takeFlags o.flags r := by
  cases o with
  | long o =>
    have ho : o.flag.isKnown r.command = true := hknown _ List.mem_cons_self
    rw [written, WrittenOption.flags, foldlM_take_one, takeFlags_singleton,
      take_long hr (longName_ne o).1, takeLong_name, takeNamed_switch ho o.takesValue]
  | longWith o value =>
    have ho : o.flag.isKnown r.command = true := hknown _ List.mem_cons_self
    rw [written, WrittenOption.flags, foldlM_take_one, takeFlags_singleton,
      take_long hr (by simp), takeLong_value, takeNamed_valued ho o.takesValue]
  | longThen o value =>
    have ho : o.flag.isKnown r.command = true := hknown _ List.mem_cons_self
    rw [written, WrittenOption.flags, foldlM_take_two, takeFlags_singleton,
      take_long hr (longName_ne o).1, takeLong_name, takeNamed_pending ho o.takesValue]
    exact take_separate hr o.takesValue value
  | letters first more =>
    have hswitches : ∀ o ∈ first :: more, o.flag.isKnown r.command = true :=
      fun o ho => hknown _ (List.mem_map_of_mem ho)
    have htaken := takeShort_append hr (first :: more) [] hswitches
    rw [List.append_nil] at htaken
    rw [written, foldlM_take_one, List.map_cons, take_letters hr (shortName_ne first)]
    exact htaken.trans (bind_pure _)
  | lettersWith more o value h =>
    have hswitches : ∀ o ∈ more, o.flag.isKnown r.command = true :=
      fun o ho => hknown _ (List.mem_append_left _ (List.mem_map_of_mem ho))
    have ho : o.flag.isKnown (r.add (switches more)).command = true :=
      hknown _ (List.mem_append_right _ List.mem_cons_self)
    rw [written, WrittenOption.flags, foldlM_take_one, take_group hr more o value hswitches,
      takeFlags_append]
    apply bind_takeFlags_congr hr
    rw [takeShort_value o h, takeNamed_valued ho o.takesValue, takeFlags_singleton]
  | lettersThen more o value =>
    have hswitches : ∀ o ∈ more, o.flag.isKnown r.command = true :=
      fun o ho => hknown _ (List.mem_append_left _ (List.mem_map_of_mem ho))
    have ho : o.flag.isKnown (r.add (switches more)).command = true :=
      hknown _ (List.mem_append_right _ List.mem_cons_self)
    rw [written, WrittenOption.flags, foldlM_take_two, take_group hr more o [] hswitches,
      takeFlags_append, bind_assoc]
    apply bind_takeFlags_congr hr
    rw [takeShort_last o, takeNamed_pending ho o.takesValue, takeFlags_singleton]
    exact take_separate (hr.add _) o.takesValue value

theorem foldlM_take_options (hr : r.IsOpen) (os : List WrittenOption)
    (hknown : ∀ option ∈ meaning os, option.1.isKnown r.command = true) :
    (arguments os).foldlM take r = takeFlags (meaning os) r := by
  induction os generalizing r with
  | nil => rfl
  | cons o os ih =>
    rw [meaning, List.flatMap_cons, List.forall_mem_append] at hknown
    rw [arguments, meaning, List.flatMap_cons, List.flatMap_cons, List.foldlM_append, takeFlags_append,
      foldlM_take_written hr o hknown.1]
    -- behind the first option the command is the same, so the others are known there, too
    exact bind_takeFlags_congr hr (ih (hr.add _) hknown.2)

/-! ## Taking what goes together -/

/-- An option that asks neither for help nor for the version is taken if it goes with the others. -/
theorem takeFlag_eq (hr : r.IsOpen) (hhelp : flag ≠ .help) (hversion : flag ≠ .version)
    (hflags : GoTogether r.current.flags) :
    r.takeFlag flag value =
      if GoTogether (r.current.flags ++ [(flag, value)]) then .ok (r.add [(flag, value)])
      else .error .refused := by
  rw [takeFlag, if_neg hhelp, if_neg hversion]
  simp only [goTogether_insert_iff, List.append_nil, hflags, and_true, ← Seen.has_iff]
  rw [ite_not]
  show (if _ then _ else Except.ok _) = if _ then _ else Except.ok _
  unfold add
  rw [← hr.notPending]

theorem takeFlags_eq (hr : r.IsOpen) (hset : ∀ option ∈ flags, option.1 ≠ .help ∧ option.1 ≠ .version)
    (hflags : GoTogether r.current.flags) :
    takeFlags flags r =
      if GoTogether (r.current.flags ++ flags) then .ok (r.add flags) else .error .refused := by
  induction flags generalizing r with
  | nil =>
    rw [List.append_nil, if_pos hflags, add_nil]
    rfl
  | cons option flags ih =>
    obtain ⟨hfirst, hrest⟩ := List.forall_mem_cons.1 hset
    have hassoc : r.current.flags ++ option :: flags = (r.add [option]).current.flags ++ flags :=
      (List.append_assoc _ [option] flags).symm
    rw [takeFlags_cons, takeFlag_eq hr hfirst.1 hfirst.2 hflags, hassoc]
    by_cases h : GoTogether (r.current.flags ++ [option])
    · rw [if_pos h]
      show takeFlags flags (r.add [option]) = _
      rw [ih (hr.add _) hrest h, add_add]
      rfl
    · rw [if_neg h, if_neg fun hall => h hall.of_append]
      rfl

theorem foldlM_take_settings (hr : r.IsOpen) (hflags : GoTogether r.current.flags)
    {os : List WrittenOption} (hos : ∀ option ∈ meaning os, option.1.IsSetting r.command) :
    (arguments os).foldlM take r =
      if GoTogether (r.current.flags ++ meaning os) then .ok (r.add (meaning os))
      else .error .refused := by
  rw [foldlM_take_options hr os fun option ho => (hos option ho).1]
  exact takeFlags_eq hr (fun option ho => (hos option ho).2) hflags

end Reading

/-! ## Calls of `batch` -/

open WrittenOption (arguments meaning)

/-- The arguments of a call of `batch` with options in front of the name and behind it. -/
def batchArguments (front behind : List WrittenOption) : List Text :=
  arguments front ++ "batch".toList :: arguments behind

section
variable (front behind : List (Flag × Option Text))

def batchReading : Reading :=
  ⟨⟨front, []⟩, some .batch, ⟨behind, []⟩, none, false⟩

def batchRequest : Request where
  config := Seen.value? ⟨behind, []⟩ .config <|> Seen.value? ⟨front, []⟩ .config
  raw := Seen.has ⟨front, []⟩ .raw || Seen.has ⟨behind, []⟩ .raw
  keepVars := Seen.has ⟨front, []⟩ .keepVars || Seen.has ⟨behind, []⟩ .keepVars
  wellKnown := Seen.has ⟨front, []⟩ .wellKnown || Seen.has ⟨behind, []⟩ .wellKnown
  keepUndefined := Seen.has ⟨front, []⟩ .keepUndefined || Seen.has ⟨behind, []⟩ .keepUndefined
  task := .batch none (Seen.value? ⟨behind, []⟩ .file)

theorem finish_batchReading : (batchReading front behind).finish = .run (batchRequest front behind) :=
  rfl

end

def readFrom (r : Reading) (rest : List Text) : Invocation :=
  match rest.foldlM Reading.take r with
  | .ok r => r.finish
  | .error invocation => invocation

theorem readFrom_append {r r' : Reading} {words : List Text}
    (h : words.foldlM Reading.take r = .ok r') (more : List Text) :
    readFrom r (words ++ more) = readFrom r' more := by
  unfold readFrom
  rw [List.foldlM_append, h]
  rfl

theorem readFrom_append_error {r : Reading} {words : List Text} {invocation : Invocation}
    (h : words.foldlM Reading.take r = .error invocation) (more : List Text) :
    readFrom r (words ++ more) = invocation := by
  unfold readFrom
  rw [List.foldlM_append, h]
  rfl

/-- A call of `batch` with options only makes sense if the options on each side go together. -/
theorem read_batchArguments {front behind : List WrittenOption}
    (hfront : ∀ option ∈ meaning front, option.1.IsSetting none)
    (hbehind : ∀ option ∈ meaning behind, option.1.IsSetting (some .batch)) :
    read (batchArguments front behind) =
      if GoTogether (meaning front) ∧ GoTogether (meaning behind) then
        .run (batchRequest (meaning front) (meaning behind))
      else .refused := by
  have hstart : Reading.start.IsOpen := ⟨rfl, rfl, nofun⟩
  have hname : (batchReading (meaning front) []).IsOpen := ⟨rfl, rfl, nofun⟩
  have htakeFront : (arguments front).foldlM Reading.take Reading.start =
      if GoTogether (meaning front) then .ok (Reading.start.add (meaning front))
      else .error .refused := Reading.foldlM_take_settings hstart goTogether_nil hfront
  have htakeName : (Reading.start.add (meaning front)).take "batch".toList =
      .ok (batchReading (meaning front) []) := rfl
  have htakeBehind :
      (arguments behind).foldlM Reading.take (batchReading (meaning front) []) =
        if GoTogether (meaning behind) then .ok (batchReading (meaning front) (meaning behind))
        else .error .refused := Reading.foldlM_take_settings hname goTogether_nil hbehind
  show readFrom Reading.start (_ ++ _) = _
  by_cases hgoFront : GoTogether (meaning front)
  · rw [if_pos hgoFront] at htakeFront
    rw [readFrom_append htakeFront]
    show readFrom _ (["batch".toList] ++ arguments behind) = _
    rw [readFrom_append ((Reading.foldlM_take_one _).trans htakeName), readFrom, htakeBehind]
    by_cases hgoBehind : GoTogether (meaning behind)
    · rw [if_pos hgoBehind, if_pos ⟨hgoFront, hgoBehind⟩]
      exact finish_batchReading _ _
    · rw [if_neg hgoBehind, if_neg fun h => hgoBehind h.2]
  · rw [if_neg hgoFront] at htakeFront
    rw [readFrom_append_error htakeFront, if_neg fun h => hgoFront h.1]

/-! ## A file among the options -/

def fileOption (path : Text) : WrittenOption :=
  .lettersThen [] ⟨'f', .file, rfl, rfl⟩ path

example (path : Text) : (fileOption path).written = ["-f".toList, path] :=
  rfl

/-- An option that every command knows, help apart. -/
def Flag.IsGlobal (flag : Flag) : Prop :=
  flag ≠ .help ∧ ∀ command, flag.isKnown command = true

theorem Flag.isGlobal_iff (flag : Flag) :
    flag.IsGlobal ↔ flag ∈ [config, verbose, raw, keepVars, wellKnown, keepUndefined] := by
  constructor
  · rintro ⟨hhelp, hknown⟩
    have hfront := hknown none
    have hbatch := hknown (some .batch)
    cases flag with
    | config | verbose | raw | keepVars | wellKnown | keepUndefined => decide
    | file | output => cases hfront
    | version => cases hbatch
    | help => exact absurd rfl hhelp
  · intro h
    cases flag with
    | config | verbose | raw | keepVars | wellKnown | keepUndefined => exact ⟨nofun, fun _ => rfl⟩
    | file | output | version | help => simp at h

instance : DecidablePred Flag.IsGlobal :=
  fun flag => decidable_of_iff _ flag.isGlobal_iff.symm

theorem Flag.IsGlobal.isSetting {flag : Flag} (h : flag.IsGlobal) (command : Option Command) :
    flag.IsSetting command := by
  refine ⟨h.2 command, h.1, ?_⟩
  rintro rfl
  cases h.2 (some .batch)

theorem Flag.IsGlobal.ne_file {flag : Flag} (h : flag.IsGlobal) : flag ≠ .file := by
  rintro rfl
  cases h.2 none

section
variable {flag other : Flag} {value : Option Text} {front behind : List (Flag × Option Text)}

theorem lookup_eq_none {flags : List (Flag × Option Text)} (h : flag ∉ flags.map Prod.fst) :
    flags.lookup flag = none :=
  List.lookup_eq_none_iff.2 fun _ hmem => bne_iff_ne.2 fun e => h (e ▸ List.mem_map_of_mem hmem)

theorem lookup_insert_of_ne (h : other ≠ flag) :
    (front ++ (flag, value) :: behind).lookup other = (front ++ behind).lookup other := by
  rw [List.lookup_append, List.lookup_append, List.lookup_cons, beq_false_of_ne h]

theorem lookup_insert_self (h : flag ∉ front.map Prod.fst) :
    (front ++ (flag, value) :: behind).lookup flag = some value := by
  rw [List.lookup_append, lookup_eq_none h, List.lookup_cons_self]
  rfl

end

theorem file_notMem {flags : List (Flag × Option Text)}
    (hglobal : ∀ option ∈ flags, option.1.IsGlobal) : .file ∉ flags.map Prod.fst := by
  intro hmem
  obtain ⟨option, ho, heq⟩ := List.mem_map.1 hmem
  exact (hglobal option ho).ne_file heq

/-- A file goes with global options as it is not given by one of them. -/
theorem goTogether_file_iff {between after : List (Flag × Option Text)} {path : Text}
    (hglobal : ∀ option ∈ between ++ after, option.1.IsGlobal) (hne : path ≠ []) :
    GoTogether (between ++ (.file, some path) :: after) ↔ GoTogether (between ++ after) := by
  rw [goTogether_insert_iff]
  refine and_iff_right ?_
  rintro (hempty | ⟨-, hmem⟩)
  · exact hne (Option.some.inj hempty)
  · exact file_notMem hglobal hmem

theorem task_batchRequest (front : List (Flag × Option Text)) {behind : List (Flag × Option Text)}
    (h : .file ∉ behind.map Prod.fst) : (batchRequest front behind).task = .batch none none := by
  unfold batchRequest Seen.value?
  dsimp only
  rw [lookup_eq_none h]
  rfl

theorem batchRequest_insert (front : List (Flag × Option Text))
    {between after : List (Flag × Option Text)} {path : Text} (h : .file ∉ between.map Prod.fst) :
    batchRequest front (between ++ (.file, some path) :: after) =
      { batchRequest front (between ++ after) with task := .batch none (some path) } := by
  unfold batchRequest Seen.has Seen.value?
  simp only [lookup_insert_self h, lookup_insert_of_ne (by decide : Flag.config ≠ .file),
    lookup_insert_of_ne (by decide : Flag.raw ≠ .file),
    lookup_insert_of_ne (by decide : Flag.keepVars ≠ .file),
    lookup_insert_of_ne (by decide : Flag.wellKnown ≠ .file),
    lookup_insert_of_ne (by decide : Flag.keepUndefined ≠ .file)]
  rfl

theorem meaning_append (os more : List WrittenOption) :
    meaning (os ++ more) = meaning os ++ meaning more :=
  List.flatMap_append

theorem meaning_fileOption {path : Text} (hpath : WrittenOption.looksLikeOption path = false)
    (os : List WrittenOption) : meaning (fileOption path :: os) = (.file, some path) :: meaning os := by
  show (Flag.file, some (WrittenOption.separate path)) :: meaning os = _
  unfold WrittenOption.separate
  rw [hpath]
  rfl

/-- With a file the same is asked for as without, of the file instead of the standard input. -/
theorem read_fileOption {before between after : List WrittenOption} {path : Text}
    (hglobal : ∀ option ∈ meaning before ++ (meaning between ++ meaning after), option.1.IsGlobal)
    (hpath : WrittenOption.looksLikeOption path = false) (hne : path ≠ []) :
    (read (batchArguments before (between ++ fileOption path :: after)) = .refused ∧
      read (batchArguments before (between ++ after)) = .refused) ∨
    ∃ request : Request, request.task = .batch none none ∧
      read (batchArguments before (between ++ fileOption path :: after)) =
        .run { request with task := .batch none (some path) } ∧
      read (batchArguments before (between ++ after)) = .run request := by
  obtain ⟨hbefore, hbehind⟩ := List.forall_mem_append.1 hglobal
  obtain ⟨hbetween, hafter⟩ := List.forall_mem_append.1 hbehind
  have hfront : ∀ option ∈ meaning before, option.1.IsSetting none :=
    fun option ho => (hbefore option ho).isSetting none
  have hinput : ∀ option ∈ meaning between ++ meaning after, option.1.IsSetting (some .batch) :=
    fun option ho => (hbehind option ho).isSetting _
  have hfile : ∀ option ∈ meaning between ++ (.file, some path) :: meaning after,
      option.1.IsSetting (some .batch) :=
    List.forall_mem_append.2 ⟨fun option ho => (hbetween option ho).isSetting _,
      List.forall_mem_cons.2 ⟨⟨rfl, nofun, nofun⟩, fun option ho => (hafter option ho).isSetting _⟩⟩
  have hgo := goTogether_file_iff hbehind hne
  rw [← meaning_append] at hinput
  rw [← meaning_fileOption hpath, ← meaning_append] at hfile
  rw [read_batchArguments hfront hfile, read_batchArguments hfront hinput, meaning_append,
    meaning_append, meaning_fileOption hpath, batchRequest_insert _ (file_notMem hbetween)]
  by_cases h : GoTogether (meaning before) ∧ GoTogether (meaning between ++ meaning after)
  · rw [if_pos h, if_pos ⟨h.1, hgo.2 h.2⟩]
    exact Or.inr ⟨_, task_batchRequest _ (file_notMem hbehind), rfl, rfl⟩
  · rw [if_neg h, if_neg fun h' => h ⟨h'.1, hgo.1 h'.2⟩]
    exact Or.inl ⟨rfl, rfl⟩

end Unmask.CommandLine
