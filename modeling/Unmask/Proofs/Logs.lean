import Mathlib.Data.Finset.Card
import Mathlib.Data.List.Induction
import Unmask.Proofs.Histories

/-!
# Definitions as a log

Whatever was recorded, in order, is a log.  A table of definitions keeps no log, only a history for
each key, and yet everything that can be asked of it is told by the log: the histories are the log
sorted by keys.  So one more recording adds a generation to the names of its own key and leaves all
else as it was.

    Logged.apply      a recording done to a table is a recording added to its log
    logged_replay     a table that was filled from nothing goes with its whole log
    replay_readsOff   what the readers of such a table say
-/

namespace Unmask

/-- Something done to a table of definitions. -/
inductive Recording where
  /-- A name is given a value. -/
  | insert (name value : Text)
  /-- An assignment is recorded. -/
  | define (assignment : Assignment)
deriving DecidableEq, Repr

namespace Recording

def key : Recording → Text
  | insert name _ => Definitions.key name
  | define a => Definitions.key a.name

def value : Recording → Text
  | insert _ value => value
  | define a => a.value

def apply : Recording → Definitions → Definitions
  | insert name value, ds => ds.insert name value
  | define a, ds => ds.define a

end Recording

namespace Definitions

/-- The table after the recordings of a log, made in order from nothing. -/
def replay (log : List Recording) : Definitions :=
  log.foldl (fun ds r => r.apply ds) empty

/-- The part of a log that is about a name: what was recorded under its key, oldest first. -/
def entriesOf (log : List Recording) (name : Text) : List Recording :=
  log.filter (·.key = key name)

/-- Every reader of a table says what the log says. -/
structure ReadsOff (ds : Definitions) (log : List Recording) : Prop where
  generations : ∀ name, ds.generations name = (entriesOf log name).length
  definition? : ∀ name generation,
    ds.definition? name generation = (entriesOf log name)[generation]?.map Recording.value
  lookup? : ∀ name, ds.lookup? name = (entriesOf log name).getLast?.map Recording.value
  contains : ∀ name, ds.contains name = true ↔ ∃ r ∈ log, r.key = key name
  size : ds.size = (log.map Recording.key).toFinset.card

/-- A recording leaves other names and older generations alone. -/
structure LeavesRest (r : Recording) (ds : Definitions) : Prop where
  others : ∀ name, key name ≠ r.key → (r.apply ds).history name = ds.history name
  older : ∀ name generation, generation < ds.generations name →
    (r.apply ds).definition? name generation = ds.definition? name generation

/-- The histories of a table are a log sorted by keys. -/
structure Logged (ds : Definitions) (log : List Recording) : Prop where
  valuesOf : ∀ k, ds.valuesOf k = (log.filter (·.key = k)).map Recording.value
  keys : ∀ k, k ∈ ds.histories.map History.key ↔ k ∈ log.map Recording.key

variable {ds : Definitions} {log : List Recording}

/-! ## One recording -/

theorem valuesOf_apply (r : Recording) (ds : Definitions) (k : Text) :
    (r.apply ds).valuesOf k = if k = r.key then ds.valuesOf k ++ [r.value] else ds.valuesOf k := by
  cases r with
  | insert name value => exact valuesOf_insert ds name value k
  | define a => exact valuesOf_insert ds a.name a.value k

theorem mem_keys_apply (r : Recording) (ds : Definitions) (k : Text) :
    k ∈ (r.apply ds).histories.map History.key ↔ k = r.key ∨ k ∈ ds.histories.map History.key := by
  cases r with
  | insert name value => exact History.mem_keys_record
  | define a => exact History.mem_keys_record

theorem leavesRest (r : Recording) (ds : Definitions) : LeavesRest r ds where
  others name hname := by
    unfold history
    rw [valuesOf_apply, if_neg hname]
  older name generation holder := by
    unfold generations history at holder
    unfold definition? history
    rw [valuesOf_apply]
    split
    · exact List.getElem?_append_left holder
    · rfl

/-! ## Whole logs -/

theorem logged_empty : Logged empty [] where
  valuesOf k := valuesOf_empty k
  keys _ := Iff.rfl

theorem Logged.apply (h : Logged ds log) (r : Recording) : Logged (r.apply ds) (log ++ [r]) where
  valuesOf k := by
    rw [valuesOf_apply, h.valuesOf, List.filter_append, List.map_append]
    by_cases hk : k = r.key
    · rw [if_pos hk, List.filter_cons_of_pos (by simp [hk]), List.filter_nil, List.map_singleton]
    · rw [if_neg hk, List.filter_cons_of_neg (by simpa using Ne.symm hk), List.filter_nil,
        List.map_nil, List.append_nil]
  keys k := by
    rw [mem_keys_apply, h.keys, List.map_append, List.map_singleton, List.mem_append,
      List.mem_singleton, or_comm]

theorem logged_replay (log : List Recording) : Logged (replay log) log := by
  induction log using List.reverseRecOn with
  | nil => exact logged_empty
  | append_singleton log r ih =>
    have hstep : replay (log ++ [r]) = r.apply (replay log) := by
      simp only [replay, List.foldl_append, List.foldl_cons, List.foldl_nil]
    rw [hstep]
    exact ih.apply r

/-! ## The readers -/

theorem Logged.history_eq (h : Logged ds log) (name : Text) :
    ds.history name = (entriesOf log name).map Recording.value :=
  h.valuesOf (key name)

theorem Logged.contains_iff (h : Logged ds log) (name : Text) :
    ds.contains name = true ↔ ∃ r ∈ log, r.key = key name := by
  rw [Definitions.contains_iff, h.valuesOf, ne_eq, List.map_eq_nil_iff, List.filter_eq_nil_iff]
  simp

/-- A table has no key twice, so its size is the number of different keys in the log. -/
theorem Logged.size_eq (h : Logged ds log) : ds.size = (log.map Recording.key).toFinset.card := by
  have hsame : (ds.histories.map History.key).toFinset = (log.map Recording.key).toFinset := by
    ext k
    rw [List.mem_toFinset, List.mem_toFinset]
    exact h.keys k
  rw [← hsame, List.toFinset_card_of_nodup ds.nodup, List.length_map]
  rfl

theorem Logged.readsOff (h : Logged ds log) : ReadsOff ds log where
  generations name := by
    rw [Definitions.generations, h.history_eq, List.length_map]
  definition? name generation := by
    rw [Definitions.definition?, h.history_eq, List.getElem?_map]
  lookup? name := by
    rw [Definitions.lookup?, h.history_eq, List.getLast?_map]
  contains := h.contains_iff
  size := h.size_eq

/--
However a table was filled, its readers say what the log of the recordings says, and one more
recording changes neither the history of another name nor a generation that is there already.
-/
theorem replay_readsOff (log : List Recording) :
    ReadsOff (replay log) log ∧ ∀ r, LeavesRest r (replay log) :=
  ⟨(logged_replay log).readsOff, fun r => leavesRest r (replay log)⟩

/-- Both spellings are one name, which has kept its older value. -/
example :
    let ds := replay [.define ⟨['A'], ['1'], 0⟩, .insert ['B'] ['x'], .define ⟨['a'], ['2'], 1⟩]
    ds.lookup? ['A'] = some ['2'] ∧ ds.generations ['a'] = 2 ∧ ds.definition? ['a'] 0 = some ['1'] ∧
      ds.definition? ['A'] 2 = none ∧ ds.size = 2 := by
  decide +kernel

end Definitions

end Unmask
