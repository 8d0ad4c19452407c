import Mathlib.Data.List.Nodup
import Unmask.InfFile.Reveal
import Unmask.Proofs.Outcomes

/-!
# What an expansion notes

An expansion changes the memory in a few ways only: it notes a name without a value, it notes a
cycle, or it keeps a finished value.  `Evolves` says which of these happen, and whether the result
is cyclic.  What holds of every memory, or of every diagnostic, is then proved by induction on it
and not on the expansion.

    expand_evolves              an expansion takes the memory one of these ways
    Evolves.nodup               no diagnostic is noted twice
    Evolves.reportsCycle_iff    a cycle is noted exactly if some result is cyclic
-/

namespace Unmask

/-! ## Adding diagnostics -/

namespace Diagnostic

theorem mem_add {d x : Diagnostic} {ds : List Diagnostic} : x ∈ d.add ds ↔ x ∈ ds ∨ x = d := by
  unfold add
  split
  · next h =>
    constructor
    · exact .inl
    · rintro (hx | rfl)
      · exact hx
      · exact h
  · rw [List.mem_append, List.mem_singleton]

theorem nodup_add {ds : List Diagnostic} (h : ds.Nodup) (d : Diagnostic) : (d.add ds).Nodup := by
  unfold add
  split
  · exact h
  · next hd => exact h.append (List.nodup_singleton d) (by simpa using hd)

theorem mem_foldl_add {x : Diagnostic} (new ds : List Diagnostic) :
    x ∈ new.foldl (fun ds d => d.add ds) ds ↔ x ∈ ds ∨ x ∈ new := by
  induction new generalizing ds with
  | nil => simp
  | cons d new ih =>
    rw [List.foldl_cons, ih, mem_add, List.mem_cons, or_assoc]

theorem nodup_foldl_add (new : List Diagnostic) {ds : List Diagnostic} (h : ds.Nodup) :
    (new.foldl (fun ds d => d.add ds) ds).Nodup := by
  induction new generalizing ds with
  | nil => exact h
  | cons d new ih => exact ih (nodup_add h d)

theorem isPrefix_add (d : Diagnostic) (ds : List Diagnostic) : ds <+: d.add ds := by
  unfold add
  split
  · exact List.prefix_refl ds
  · exact List.prefix_append ds [d]

theorem isPrefix_foldl_add (new ds : List Diagnostic) :
    ds <+: new.foldl (fun ds d => d.add ds) ds := by
  induction new generalizing ds with
  | nil => exact List.prefix_refl ds
  | cons d new ih => exact (isPrefix_add d ds).trans (ih (d.add ds))

/-- What is left out does not count for what is added. -/
theorem filter_foldl_add_filter (p : Diagnostic → Bool) (new ds : List Diagnostic) :
    (new.foldl (fun ds d => d.add ds) ds).filter p =
      (new.filter p).foldl (fun ds d => d.add ds) (ds.filter p) := by
  induction new generalizing ds with
  | nil => rfl
  | cons d new ih =>
    rw [List.foldl_cons, ih]
    by_cases hd : p d = true
    · have hadd : (d.add ds).filter p = d.add (ds.filter p) := by
        unfold add
        by_cases hmem : d ∈ ds
        · rw [if_pos hmem, if_pos (List.mem_filter.2 ⟨hmem, hd⟩)]
        · rw [if_neg hmem, if_neg fun h => hmem (List.mem_filter.1 h).1, List.filter_append,
            List.filter_cons_of_pos hd, List.filter_nil]
      rw [List.filter_cons_of_pos hd, List.foldl_cons, hadd]
    · have hadd : (d.add ds).filter p = ds.filter p := by
        unfold add
        by_cases hmem : d ∈ ds
        · rw [if_pos hmem]
        · rw [if_neg hmem, List.filter_append, List.filter_cons_of_neg hd, List.filter_nil,
            List.append_nil]
      rw [List.filter_cons_of_neg hd, hadd]

theorem filter_foldl_add {p : Diagnostic → Bool} {new : List Diagnostic}
    (h : ∀ d ∈ new, p d = false) (ds : List Diagnostic) :
    (new.foldl (fun ds d => d.add ds) ds).filter p = ds.filter p := by
  have hnone : new.filter p = [] := List.filter_eq_nil_iff.2 fun d hd => by rw [h d hd]; decide
  rw [filter_foldl_add_filter, hnone, List.foldl_nil]

/-- Whether one of some diagnostics is a cycle. -/
def ReportsCycle (ds : List Diagnostic) : Prop :=
  ∃ name, cyclicReference name ∈ ds

end Diagnostic

open Diagnostic (ReportsCycle)

/-! ## What an expansion does to the memory -/

theorem Modifier.cyclic_apply (m : Modifier) (r : Resolution) : (m.apply r).cyclic = r.cyclic := by
  unfold apply
  cases m with
  | fallback text =>
    dsimp only
    split <;> rfl
  | whole | slice _ _ | replace _ _ => rfl

namespace Expansion

/--
An expansion may take one memory to another, and its result is cyclic or not, as the flag says.
-/
inductive Evolves : Memory → Bool → Memory → Prop
  /-- Literal text notes nothing. -/
  | literal (memory) : Evolves memory false memory
  /-- A name without a value is noted. -/
  | unresolved (memory name) : Evolves memory false (memory.report (.unresolvedReference name))
  /-- A name all of whose values are in progress is noted. -/
  | cycle (memory name) : Evolves memory true (memory.report (.cyclicReference name))
  /-- A finished value is used again. -/
  | known {memory : Memory} {g r} : memory.known? g = some r → Evolves memory r.cyclic memory
  /-- A finished value is kept. -/
  | keep {memory memory' r} (g) :
      Evolves memory r.cyclic memory' → Evolves memory r.cyclic (memory'.keep g r)
  /-- One expansion follows another. -/
  | append {memory memory' memory'' a b} :
      Evolves memory a memory' → Evolves memory' b memory'' → Evolves memory (a || b) memory''

namespace Scope

variable {scope : Scope} {chain : Chain} {memory memory' : Memory}

theorem missing_evolves {token : Text} {r : Reference} {o : Outcome}
    (h : scope.missing token r memory = (o, memory')) :
    Evolves memory o.resolution.cyclic memory' := by
  unfold missing at h
  split at h
  · cases h
    exact .literal memory
  · cases h
    exact .unresolved memory r.name

section Descent

variable {descend : Descent}
  (hdescend : ∀ chain text memory o memory', descend chain text memory = .ok (o, memory') →
    Evolves memory o.resolution.cyclic memory')

include hdescend

theorem resolveWith_evolves {token : Text} {r : Reference} {o : Outcome}
    (h : scope.resolveWith descend chain token r memory = .ok (o, memory')) :
    Evolves memory o.resolution.cyclic memory' := by
  unfold resolveWith at h
  cases hfind : scope.find chain r.name with
  | unknown =>
    rw [hfind] at h
    exact missing_evolves (Except.ok.inj h)
  | exhausted key =>
    rw [hfind] at h
    cases h
    rw [Modifier.cyclic_apply]
    exact .cycle memory r.name
  | value g text hit =>
    simp only [hfind] at h
    cases hknown : memory.known? g with
    | some known =>
      rw [hknown] at h
      cases h
      rw [Modifier.cyclic_apply]
      exact .known hknown
    | none =>
      rw [hknown] at h
      obtain ⟨⟨inner, memory₁⟩, hinner, h⟩ := bind_eq_ok.1 h
      have hevolves := hdescend _ _ _ _ _ hinner
      cases h
      rw [Modifier.cyclic_apply]
      dsimp only
      split
      · exact hevolves.keep g
      · exact hevolves

theorem expandPieceWith_evolves {piece : Piece} {o : Outcome}
    (h : scope.expandPieceWith descend chain piece memory = .ok (o, memory')) :
    Evolves memory o.resolution.cyclic memory' := by
  unfold expandPieceWith at h
  split at h
  · cases h
    exact .literal memory
  · exact resolveWith_evolves hdescend h

theorem expandPiecesWith_evolves {budget : Nat} {template : Template} {o : Outcome}
    (h : scope.expandPiecesWith descend chain budget template memory = .ok (o, memory')) :
    Evolves memory o.resolution.cyclic memory' := by
  induction template generalizing budget memory memory' o with
  | nil =>
    cases h
    exact .literal _
  | cons piece pieces ih =>
    rw [expandPiecesWith] at h
    obtain ⟨⟨head, memory₁⟩, hhead, h⟩ := bind_eq_ok.1 h
    have hfirst := expandPieceWith_evolves hdescend hhead
    dsimp only at h
    split at h
    · cases h
      exact hfirst
    · obtain ⟨⟨tail, memory₂⟩, htail, h⟩ := bind_eq_ok.1 h
      have hrest := ih htail
      cases h
      exact hfirst.append hrest

end Descent

theorem descend_evolves (depth : Nat) (chain : Chain) (text : Text) (memory : Memory) (o : Outcome)
    (memory' : Memory) (h : scope.descend depth chain text memory = .ok (o, memory')) :
    Evolves memory o.resolution.cyclic memory' := by
  induction depth generalizing chain text memory o memory' with
  | zero =>
    cases h
    exact .literal memory
  | succ depth ih =>
    obtain ⟨template, -, h⟩ := bind_eq_ok.1 h
    exact expandPiecesWith_evolves ih h

/-- An expansion takes the memory to another in one of these ways. -/
theorem expand_evolves {text : Text} {r : Resolution}
    (h : scope.expand text memory = .ok (r, memory')) : Evolves memory r.cyclic memory' := by
  obtain ⟨template, -, h⟩ := bind_eq_ok.1 h
  obtain ⟨⟨o, memory₁⟩, hpieces, h⟩ := bind_eq_ok.1 h
  have hevolves := expandPiecesWith_evolves (descend_evolves scope.definitions.total) hpieces
  cases h
  exact hevolves

end Scope

/-- So do expansions of several texts with one memory. -/
theorem expandAll_evolves {scope : Scope} {texts values : List Text} {cyclic : Bool}
    {memory memory' : Memory}
    (h : InfFile.expandAll scope texts memory = .ok ((values, cyclic), memory')) :
    Evolves memory cyclic memory' := by
  induction texts generalizing memory memory' values cyclic with
  | nil =>
    cases h
    exact .literal _
  | cons text texts ih =>
    obtain ⟨⟨head, memory₁⟩, hhead, h⟩ := bind_eq_ok.1 h
    obtain ⟨⟨⟨tail, cyclic'⟩, memory₂⟩, htail, h⟩ := bind_eq_ok.1 h
    have hfirst := Scope.expand_evolves hhead
    have hrest := ih htail
    cases h
    exact hfirst.append hrest

/-! ## What every expansion keeps -/

namespace Evolves

variable {memory memory' : Memory} {cyclic : Bool}

theorem nodup (h : Evolves memory cyclic memory') (hnodup : memory.diagnostics.Nodup) :
    memory'.diagnostics.Nodup := by
  induction h with
  | literal | known _ => exact hnodup
  | unresolved | cycle => exact Diagnostic.nodup_add hnodup _
  | keep _ _ ih => exact ih hnodup
  | append _ _ ih ih' => exact ih' (ih hnodup)

/-- No expansion finds fault with the output. -/
theorem isAmbiguity_eq_false (h : Evolves memory cyclic memory')
    (hnone : ∀ d ∈ memory.diagnostics, d.isAmbiguity = false) :
    ∀ d ∈ memory'.diagnostics, d.isAmbiguity = false := by
  induction h with
  | literal | known _ => exact hnone
  | unresolved | cycle =>
    intro d hd
    rcases Diagnostic.mem_add.1 hd with hd | rfl
    · exact hnone d hd
    · rfl
  | keep _ _ ih => exact ih hnone
  | append _ _ ih ih' => exact ih' (ih hnone)

end Evolves

/-- A cyclic value is in the memory only if the cycle was noted. -/
def Memory.CyclesReported (memory : Memory) : Prop :=
  ∀ g r, memory.known? g = some r → r.cyclic = true → ReportsCycle memory.diagnostics

theorem Memory.cyclesReported_empty : Memory.empty.CyclesReported := by
  intro g r h
  cases h

theorem reportsCycle_report {memory : Memory} {d : Diagnostic} :
    ReportsCycle (memory.report d).diagnostics ↔
      ReportsCycle memory.diagnostics ∨ ∃ name, d = .cyclicReference name := by
  unfold ReportsCycle Memory.report
  simp only [Diagnostic.mem_add]
  constructor
  · rintro ⟨name, h | h⟩
    · exact .inl ⟨name, h⟩
    · exact .inr ⟨name, h.symm⟩
  · rintro (⟨name, h⟩ | ⟨name, rfl⟩)
    · exact ⟨name, .inl h⟩
    · exact ⟨name, .inr rfl⟩

/--
A cycle is noted exactly if the result is cyclic or one was noted before.  A value that is used
again may be cyclic by itself, which is why the memory has to know that its cycle was noted.
-/
theorem Evolves.cyclesReported {memory memory' : Memory} {cyclic : Bool}
    (h : Evolves memory cyclic memory') (hreported : memory.CyclesReported) :
    memory'.CyclesReported ∧
      (ReportsCycle memory'.diagnostics ↔ ReportsCycle memory.diagnostics ∨ cyclic = true) := by
  induction h with
  | literal memory => exact ⟨hreported, by simp⟩
  | unresolved memory name =>
    refine ⟨fun g r hknown hcyclic => reportsCycle_report.2 (.inl (hreported g r hknown hcyclic)), ?_⟩
    rw [reportsCycle_report]
    simp
  | cycle memory name =>
    refine ⟨fun g r hknown hcyclic => reportsCycle_report.2 (.inl (hreported g r hknown hcyclic)), ?_⟩
    rw [reportsCycle_report]
    simp
  | @known memory g r hknown =>
    refine ⟨hreported, .inl, ?_⟩
    rintro (h | hcyclic)
    · exact h
    · exact hreported g r hknown hcyclic
  | @keep memory memory' r g _ ih =>
    obtain ⟨hreported', hiff⟩ := ih hreported
    refine ⟨fun g' r' hknown hcyclic => ?_, hiff⟩
    unfold Memory.known? Memory.keep at hknown
    rw [List.lookup_cons] at hknown
    split at hknown
    · rw [← Option.some.inj hknown] at hcyclic
      exact hiff.2 (.inr hcyclic)
    · exact hreported' g' r' hknown hcyclic
  | @append memory memory' memory'' a b _ _ ih ih' =>
    obtain ⟨hreported', hiff⟩ := ih hreported
    obtain ⟨hreported'', hiff'⟩ := ih' hreported'
    refine ⟨hreported'', ?_⟩
    rw [hiff', hiff, Bool.or_eq_true, or_assoc]

/-- From an empty memory on, a cycle is noted exactly if the result is cyclic. -/
theorem Evolves.reportsCycle_iff {memory : Memory} {cyclic : Bool}
    (h : Evolves .empty cyclic memory) : ReportsCycle memory.diagnostics ↔ cyclic = true := by
  rw [(h.cyclesReported Memory.cyclesReported_empty).2]
  constructor
  · rintro (⟨name, hname⟩ | hcyclic)
    · cases hname
    · exact hcyclic
  · exact .inr

end Expansion

end Unmask
