import Mathlib.Data.List.Nodup
import Unmask.Definitions.Basic

/-!
# Histories as logs

What the values kept under a key are after a name was given one more value, and after names were
given values in order: a definition adds to the history of its own key and to no other.

    (ds.insert name value).valuesOf k = ds.valuesOf k ++ [value] or ds.valuesOf k   (valuesOf_insert)
    (ofList pairs).valuesOf k = the values whose names have key k, in order         (valuesOf_ofList)
    (ofList pairs).total = pairs.length                                             (total_ofList)
-/

namespace Unmask

namespace History

theorem find?_record_self (key value : Text) (hs : List History) :
    (record key value hs).find? (·.key = key) =
      some ⟨key, ((hs.find? (·.key = key)).elim [] History.values) ++ [value]⟩ := by
  induction hs with
  | nil => simp [record]
  | cons h rest ih =>
    by_cases hk : h.key = key
    · subst hk
      simp [record]
    · rw [record, if_neg hk, List.find?_cons_of_neg (by simpa using hk), ih,
        List.find?_cons_of_neg (by simpa using hk)]

theorem find?_record_of_ne {key k : Text} (hne : k ≠ key) (value : Text) (hs : List History) :
    (record key value hs).find? (·.key = k) = hs.find? (·.key = k) := by
  induction hs with
  | nil => simp [record, Ne.symm hne]
  | cons h rest ih =>
    by_cases hk : h.key = key
    · have hk' : ¬ h.key = k := fun e => hne (e.symm.trans hk)
      rw [record, if_pos hk, List.find?_cons_of_neg (by simpa using hk'),
        List.find?_cons_of_neg (by simpa using hk')]
    · rw [record, if_neg hk]
      by_cases hk' : h.key = k
      · rw [List.find?_cons_of_pos (by simpa using hk'), List.find?_cons_of_pos (by simpa using hk')]
      · rw [List.find?_cons_of_neg (by simpa using hk'), List.find?_cons_of_neg (by simpa using hk'),
          ih]

end History

namespace Definitions

theorem valuesOf_eq_elim (ds : Definitions) (k : Text) :
    ds.valuesOf k = (ds.histories.find? (·.key = k)).elim [] History.values := by
  unfold valuesOf
  cases ds.histories.find? (·.key = k) <;> rfl

theorem valuesOf_empty (k : Text) : empty.valuesOf k = [] := rfl

/-- A definition adds to the history of its own key and to no other. -/
theorem valuesOf_insert (ds : Definitions) (name value k : Text) :
    (ds.insert name value).valuesOf k =
      if k = key name then ds.valuesOf k ++ [value] else ds.valuesOf k := by
  simp only [valuesOf_eq_elim, insert]
  split
  · next hk => rw [hk, History.find?_record_self, Option.elim_some]
  · next hk => rw [History.find?_record_of_ne hk]

theorem valuesOf_foldl (pairs : List (Text × Text)) (ds : Definitions) (k : Text) :
    (pairs.foldl (fun ds (name, value) => ds.insert name value) ds).valuesOf k =
      ds.valuesOf k ++ (pairs.filter fun pair => key pair.1 = k).map Prod.snd := by
  induction pairs generalizing ds with
  | nil => simp
  | cons pair pairs ih =>
    rw [List.foldl_cons, ih, valuesOf_insert]
    by_cases hk : key pair.1 = k
    · rw [if_pos hk.symm, List.filter_cons_of_pos (by simpa using hk), List.map_cons,
        List.append_assoc, List.singleton_append]
    · rw [if_neg (Ne.symm hk), List.filter_cons_of_neg (by simpa using hk)]

theorem valuesOf_ofList (pairs : List (Text × Text)) (k : Text) :
    (ofList pairs).valuesOf k = (pairs.filter fun pair => key pair.1 = k).map Prod.snd := by
  rw [ofList, valuesOf_foldl, valuesOf_empty, List.nil_append]

/-- Where no two names have one key, each name has the one value it was given. -/
theorem valuesOf_ofList_of_mem {pairs : List (Text × Text)}
    (nodup : (pairs.map fun pair => key pair.1).Nodup) {pair : Text × Text} (hmem : pair ∈ pairs) :
    (ofList pairs).valuesOf (key pair.1) = [pair.2] := by
  rw [valuesOf_ofList]
  induction pairs with
  | nil => cases hmem
  | cons p ps ih =>
    rw [List.map_cons, List.nodup_cons] at nodup
    rcases List.mem_cons.1 hmem with rfl | hin
    · have hnone : ps.filter (fun q => key q.1 = key pair.1) = [] := by
        refine List.filter_eq_nil_iff.2 fun q hq => ?_
        intro he
        exact nodup.1 (List.mem_map.2 ⟨q, hq, by simpa using he⟩)
      rw [List.filter_cons_of_pos (by simp), hnone, List.map_singleton]
    · have hp : ¬ key p.1 = key pair.1 := fun e =>
        nodup.1 (List.mem_map.2 ⟨pair, hin, e.symm⟩)
      rw [List.filter_cons_of_neg (by simpa using hp), ih nodup.2 hin]

theorem total_insert (ds : Definitions) (name value : Text) :
    (ds.insert name value).total = ds.total + 1 := by
  unfold total insert
  dsimp only
  induction ds.histories with
  | nil => rfl
  | cons h rest ih =>
    unfold History.record
    split
    · simp only [List.foldr_cons, List.length_append, List.length_singleton]
      omega
    · simp only [List.foldr_cons, ih]
      omega

theorem total_ofList (pairs : List (Text × Text)) : (ofList pairs).total = pairs.length := by
  have hfold : ∀ ds : Definitions,
      (pairs.foldl (fun ds (name, value) => ds.insert name value) ds).total =
        ds.total + pairs.length := by
    induction pairs with
    | nil => exact fun _ => rfl
    | cons pair pairs ih =>
      intro ds
      rw [List.foldl_cons, ih, total_insert, List.length_cons]
      omega
  have h := hfold empty
  rwa [show empty.total = 0 from rfl, Nat.zero_add] at h

/-! ## Which names are defined -/

theorem contains_iff (ds : Definitions) (name : Text) :
    ds.contains name = true ↔ ds.valuesOf (key name) ≠ [] := by
  unfold contains lookup? history
  exact List.getLast?_isSome

theorem contains_insert (ds : Definitions) (name value n : Text) :
    (ds.insert name value).contains n = true ↔ ds.contains n = true ∨ key name = key n := by
  rw [contains_iff, contains_iff, valuesOf_insert]
  by_cases hk : key n = key name
  · rw [if_pos hk]
    simp [hk]
  · rw [if_neg hk]
    simp [Ne.symm hk]

/-- A name is defined if it was so before, or an assignment gives it a value. -/
theorem contains_foldl_define (as : List Assignment) (ds : Definitions) (name : Text) :
    (as.foldl (fun ds a => ds.define a) ds).contains name = true ↔
      ds.contains name = true ∨ ∃ a ∈ as, key a.name = key name := by
  induction as generalizing ds with
  | nil => simp
  | cons a as ih =>
    rw [List.foldl_cons, ih]
    unfold define
    rw [contains_insert, or_assoc, List.exists_mem_cons_iff]

theorem contains_ofList (pairs : List (Text × Text)) (name : Text) :
    (ofList pairs).contains name = true ↔ ∃ pair ∈ pairs, key pair.1 = key name := by
  rw [contains_iff, valuesOf_ofList, ne_eq, List.map_eq_nil_iff, List.filter_eq_nil_iff]
  simp

theorem mem_of_mem_valuesOf_ofList {pairs : List (Text × Text)} {k value : Text}
    (h : value ∈ (ofList pairs).valuesOf k) : ∃ pair ∈ pairs, key pair.1 = k ∧ pair.2 = value := by
  rw [valuesOf_ofList, List.mem_map] at h
  obtain ⟨pair, hp, rfl⟩ := h
  rw [List.mem_filter] at hp
  exact ⟨pair, hp.1, by simpa using hp.2, rfl⟩

end Definitions

end Unmask
