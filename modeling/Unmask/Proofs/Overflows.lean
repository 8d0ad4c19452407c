import Unmask.Proofs.Fragments
import Unmask.Proofs.Offsets

/-!
# Templates that cannot be read

A text can be read unless one of its sites slices by an offset that overflows, and the slices that
are read keep to the range of offsets.

    read_eq_error_iff         the texts that cannot be read
    slice_inRange_of_read     the offsets of a slice
-/

namespace Unmask.Template

/-- A site that slices by an offset which overflows. -/
def Fragment.Overflows : Fragment → Prop
  | .site _ _ (some ('~' :: offsets)) =>
    Offset.Overflows (offsets.takeWhile (· != ',')) ∨
      ∃ length, offsets.dropWhile (· != ',') = ',' :: length ∧ Offset.Overflows length
  | _ => False

/-- A text with a site that slices by an offset which overflows. -/
def Overflows (d : Dialect) (s : Text) : Prop :=
  ∃ fragment ∈ Fragment.cut d s, fragment.Overflows

theorem Fragment.readModifier_slice_eq_error_iff {offsets : Text} {fault : Fault} :
    readModifier ('~' :: offsets) = .error fault ↔ fault = .offsetOverflow ∧
      (Offset.Overflows (offsets.takeWhile (· != ',')) ∨
        ∃ length, offsets.dropWhile (· != ',') = ',' :: length ∧ Offset.Overflows length) := by
  simp only [readModifier]
  rw [bind_eq_error, Offset.read_eq_error_iff]
  constructor
  · rintro (h | ⟨start, -, h⟩)
    · exact ⟨h.1, .inl h.2⟩
    · cases hdrop : offsets.dropWhile (· != ',') with
      | nil =>
        rw [hdrop] at h
        cases h
      | cons c length =>
        obtain rfl := eq_of_dropWhile hdrop
        rw [hdrop] at h
        rcases bind_eq_error.1 h with h | ⟨l, -, h⟩
        · obtain ⟨hfault, hlength⟩ := Offset.read_eq_error_iff.1 h
          exact ⟨hfault, .inr ⟨length, rfl, hlength⟩⟩
        · split at h <;> cases h
  · rintro ⟨hfault, h | ⟨length, hdrop, h⟩⟩
    · exact .inl ⟨hfault, h⟩
    · cases hstart : Offset.read (offsets.takeWhile (· != ',')) with
      | error fault' => exact .inl ⟨hfault, (Offset.read_eq_error_iff.1 hstart).2⟩
      | ok start =>
        refine .inr ⟨start, rfl, ?_⟩
        rw [hdrop]
        exact bind_eq_error.2 (.inl (Offset.read_eq_error_iff.2 ⟨hfault, h⟩))

theorem Fragment.read_eq_error_iff {fragment : Fragment} {fault : Fault} :
    read fragment = .error fault ↔ fault = .offsetOverflow ∧ fragment.Overflows := by
  cases fragment with
  | plain text => exact ⟨(by cases ·), fun h => h.2.elim⟩
  | escape => exact ⟨(by cases ·), fun h => h.2.elim⟩
  | site mark name body =>
    cases body with
    | none => exact ⟨(by cases ·), fun h => h.2.elim⟩
    | some body =>
      have hread : read (site mark name (some body)) = .error fault ↔
          readModifier body = .error fault := bind_eq_error_left (fun _ h => by cases h)
      rw [hread]
      by_cases hslice : ∃ offsets, body = '~' :: offsets
      · obtain ⟨offsets, rfl⟩ := hslice
        exact readModifier_slice_eq_error_iff
      · constructor
        · intro h
          unfold readModifier at h
          split at h
          · next offsets => exact absurd ⟨offsets, rfl⟩ hslice
          · split at h <;> cases h
        · rintro ⟨-, h⟩
          unfold Overflows at h
          split at h
          · next heq =>
            cases heq
            exact absurd ⟨_, rfl⟩ hslice
          · exact h.elim

theorem mapM_read_eq_error {fragments : List Fragment} {fault : Fault} :
    fragments.mapM Fragment.read = .error fault ↔
      ∃ fragment ∈ fragments, fragment.read = .error fault :=
  mapM_eq_error fun _ _ h => (Fragment.read_eq_error_iff.1 h).1

/-- A text is read unless it slices by an offset which overflows. -/
theorem read_eq_error_iff {d : Dialect} {s : Text} {fault : Fault} :
    read d s = .error fault ↔ fault = .offsetOverflow ∧ Overflows d s := by
  unfold read Overflows
  rw [mapM_read_eq_error]
  constructor
  · rintro ⟨fragment, hmem, h⟩
    obtain ⟨hfault, hover⟩ := Fragment.read_eq_error_iff.1 h
    exact ⟨hfault, fragment, hmem, hover⟩
  · rintro ⟨hfault, fragment, hmem, hover⟩
    exact ⟨fragment, hmem, Fragment.read_eq_error_iff.2 ⟨hfault, hover⟩⟩

/-! ## Slices -/

theorem Fragment.slice_inRange_of_readModifier {body : Text} {start : Int} {length : Option Int}
    (h : readModifier body = .ok (.slice start length)) :
    (Offset.least ≤ start ∧ start ≤ Offset.greatest) ∧
      ∀ l ∈ length, Offset.least ≤ l ∧ l ≤ Offset.greatest := by
  unfold readModifier at h
  split at h
  · next offsets =>
    obtain ⟨start?, hstart, h⟩ := bind_eq_ok.1 h
    split at h
    · cases start? with
      | none => cases h
      | some i =>
        cases h
        exact ⟨Offset.inRange_of_read hstart, fun l hl => by cases hl⟩
    · obtain ⟨length?, hlength, h⟩ := bind_eq_ok.1 h
      split at h
      · cases h
        refine ⟨Offset.inRange_of_read hstart, fun l hl => ?_⟩
        cases hl
        exact Offset.inRange_of_read hlength
      · cases h
  · split at h <;> cases h

theorem slice_inRange_of_read {d : Dialect} {s : Text} {t : Template} (h : read d s = .ok t)
    {r : Reference} (hr : r ∈ t.references) {start : Int} {length : Option Int}
    (hslice : r.modifier = .slice start length) :
    Offset.least ≤ start ∧ ∀ l ∈ length, Offset.least ≤ l := by
  obtain ⟨mark, body, -, hmodifier⟩ := site_of_mem_read h hr
  rw [hslice] at hmodifier
  cases body with
  | none => cases hmodifier
  | some body =>
    obtain ⟨hstart, hlength⟩ := Fragment.slice_inRange_of_readModifier hmodifier
    exact ⟨hstart.1, fun l hl => (hlength l hl).1⟩

end Unmask.Template
