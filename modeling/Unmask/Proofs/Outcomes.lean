import Unmask.Template.Offset

/-!
# Computations that a fault may stop

What is known of a computation in steps from its result.  A list of computations that know one fault
only stops if one of them does.
-/

namespace Unmask

variable {α β : Type}

theorem bind_eq_ok {x : Except Fault α} {f : α → Except Fault β} {b : β} :
    (x >>= f) = .ok b ↔ ∃ a, x = .ok a ∧ f a = .ok b := by
  constructor
  · intro h
    cases x with
    | error fault => cases h
    | ok a => exact ⟨a, rfl, h⟩
  · rintro ⟨a, rfl, h⟩
    exact h

theorem bind_eq_error {x : Except Fault α} {f : α → Except Fault β} {fault : Fault} :
    (x >>= f) = .error fault ↔ x = .error fault ∨ ∃ a, x = .ok a ∧ f a = .error fault := by
  constructor
  · intro h
    cases x with
    | error fault' =>
      cases h
      exact .inl rfl
    | ok a => exact .inr ⟨a, rfl, h⟩
  · rintro (rfl | ⟨a, rfl, h⟩)
    · rfl
    · exact h

theorem bind_eq_error_left {x : Except Fault α} {f : α → Except Fault β} {fault : Fault}
    (h : ∀ a, f a ≠ .error fault) : (x >>= f) = .error fault ↔ x = .error fault := by
  rw [bind_eq_error]
  constructor
  · rintro (hx | ⟨a, -, ha⟩)
    · exact hx
    · exact absurd ha (h a)
  · exact .inl

theorem exists_ok_iff {x : Except Fault α} : (∃ a, x = .ok a) ↔ ∀ fault, x ≠ .error fault := by
  cases x with
  | error fault => exact ⟨(by rintro ⟨a, h⟩; cases h), fun h => absurd rfl (h fault)⟩
  | ok a => exact ⟨fun _ _ h => (by cases h), fun _ => ⟨a, rfl⟩⟩

/-! ## Lists -/

theorem exists_of_mapM_ok {f : α → Except Fault β} {l : List α} {r : List β}
    (h : l.mapM f = .ok r) {b : β} (hb : b ∈ r) : ∃ a ∈ l, f a = .ok b := by
  induction l generalizing r with
  | nil =>
    cases h
    cases hb
  | cons a l ih =>
    rw [List.mapM_cons] at h
    obtain ⟨b', ha, h⟩ := bind_eq_ok.1 h
    obtain ⟨bs, hl, h⟩ := bind_eq_ok.1 h
    cases h
    rcases List.mem_cons.1 hb with rfl | hin
    · exact ⟨a, List.mem_cons_self, ha⟩
    · obtain ⟨a', ha', he⟩ := ih hl hin
      exact ⟨a', List.mem_cons_of_mem _ ha', he⟩

theorem map_eq_of_mapM_ok {γ : Type} {f : α → Except Fault β} {g : β → γ} {k : α → γ}
    (hf : ∀ a b, f a = .ok b → g b = k a) {l : List α} {r : List β} (h : l.mapM f = .ok r) :
    r.map g = l.map k := by
  induction l generalizing r with
  | nil =>
    cases h
    rfl
  | cons a l ih =>
    rw [List.mapM_cons] at h
    obtain ⟨b, ha, h⟩ := bind_eq_ok.1 h
    obtain ⟨bs, hl, h⟩ := bind_eq_ok.1 h
    cases h
    rw [List.map_cons, List.map_cons, hf a b ha, ih hl]

theorem mapM_eq_error {f : α → Except Fault β} {l : List α} {known fault : Fault}
    (honly : ∀ a fault, f a = .error fault → fault = known) :
    l.mapM f = .error fault ↔ ∃ a ∈ l, f a = .error fault := by
  induction l with
  | nil =>
    constructor
    · intro h
      cases h
    · rintro ⟨a, h, -⟩
      cases h
  | cons a l ih =>
    rw [List.mapM_cons]
    constructor
    · intro h
      rcases bind_eq_error.1 h with h | ⟨b, -, h⟩
      · exact ⟨a, List.mem_cons_self, h⟩
      · rcases bind_eq_error.1 h with h | ⟨bs, -, h⟩
        · obtain ⟨a', ha', he⟩ := ih.1 h
          exact ⟨a', List.mem_cons_of_mem _ ha', he⟩
        · cases h
    · rintro ⟨a', hmem, he⟩
      refine bind_eq_error.2 ?_
      rcases List.mem_cons.1 hmem with rfl | hin
      · exact .inl he
      · cases ha : f a with
        | error fault' => exact .inl (by rw [honly a fault' ha, honly a' fault he])
        | ok b => exact .inr ⟨b, rfl, bind_eq_error.2 (.inl (ih.2 ⟨a', hin, he⟩))⟩

end Unmask
