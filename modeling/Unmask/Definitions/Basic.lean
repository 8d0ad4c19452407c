import Unmask.Text.LetterCase

/-!
# Definitions

What is known of variables: for each name every value it was given, oldest first.  Names that
have the same lower-case form are one name.  Values are kept as written; references in them are
not followed here.

Main statement: no name has two histories (`keys_record_nodup`).
-/

namespace Unmask

/-- The `order`-th definition met in an input. -/
structure Assignment where
  name : Text
  value : Text
  order : Nat
deriving DecidableEq, Repr

def Assignment.toText (a : Assignment) : Text :=
  a.name ++ '=' :: a.value

/-- The values given to one name, oldest first. -/
structure History where
  key : Text
  values : List Text
deriving DecidableEq, Repr

namespace History

def record (key value : Text) : List History → List History
  | [] => [⟨key, [value]⟩]
  | h :: rest =>
    if h.key = key then ⟨h.key, h.values ++ [value]⟩ :: rest else h :: record key value rest

theorem mem_keys_record {key value x : Text} {hs : List History} :
    x ∈ (record key value hs).map History.key ↔ x = key ∨ x ∈ hs.map History.key := by
  induction hs with
  | nil => simp [record]
  | cons h rest ih =>
    by_cases hk : h.key = key
    · simp only [record, hk, if_true, List.map_cons, List.mem_cons]
      grind
    · simp only [record, hk, if_false, List.map_cons, List.mem_cons, ih]
      grind

theorem keys_record_nodup {hs : List History} (key value : Text)
    (nodup : (hs.map History.key).Nodup) : ((record key value hs).map History.key).Nodup := by
  induction hs with
  | nil => simp [record]
  | cons h rest ih =>
    rw [List.map_cons, List.nodup_cons] at nodup
    by_cases hk : h.key = key
    · rw [record, if_pos hk, List.map_cons, List.nodup_cons]
      exact nodup
    · rw [record, if_neg hk, List.map_cons, List.nodup_cons]
      refine ⟨fun hmem => ?_, ih nodup.2⟩
      rcases mem_keys_record.1 hmem with heq | hin
      · exact hk heq
      · exact nodup.1 hin

end History

/-- The histories of all names met so far, one for each key. -/
structure Definitions where
  histories : List History
  nodup : (histories.map History.key).Nodup
deriving DecidableEq, Repr

namespace Definitions

def empty : Definitions :=
  ⟨[], List.nodup_nil⟩

/-- The form under which a name is kept. -/
def key (name : Text) : Text :=
  Text.lowercase name

def insert (name value : Text) (ds : Definitions) : Definitions :=
  ⟨History.record (key name) value ds.histories, History.keys_record_nodup _ _ ds.nodup⟩

/-- Records an assignment. -/
def define (a : Assignment) (ds : Definitions) : Definitions :=
  ds.insert a.name a.value

def ofList (pairs : List (Text × Text)) : Definitions :=
  pairs.foldl (fun ds (name, value) => ds.insert name value) empty

def valuesOf (ds : Definitions) (key : Text) : List Text :=
  match ds.histories.find? (·.key = key) with
  | some h => h.values
  | none => []

def history (ds : Definitions) (name : Text) : List Text :=
  ds.valuesOf (key name)

/-- The newest value of a name. -/
def lookup? (ds : Definitions) (name : Text) : Option Text :=
  (ds.history name).getLast?

def contains (ds : Definitions) (name : Text) : Bool :=
  (ds.lookup? name).isSome

/-- How many values a name was given. -/
def generations (ds : Definitions) (name : Text) : Nat :=
  (ds.history name).length

/-- The value of a name that is counted as `generation`, the oldest being 0. -/
def definition? (ds : Definitions) (name : Text) (generation : Nat) : Option Text :=
  (ds.history name)[generation]?

def size (ds : Definitions) : Nat :=
  ds.histories.length

/-- The number of definitions of all names together. -/
def total (ds : Definitions) : Nat :=
  ds.histories.foldr (fun h n => h.values.length + n) 0

end Definitions

end Unmask
