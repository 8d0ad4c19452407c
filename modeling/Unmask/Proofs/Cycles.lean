import Unmask.Proofs.Diagnostics
import Unmask.Proofs.Runs

/-!
# Cycles and their diagnostics

The flag of a result and its diagnostics go separate ways: the flag comes with the values, and the
diagnostics are collected beside them.  They agree all the same, and no diagnostic is told twice.

Each statement of a script is expanded with a memory of its own, so what is told of a script is put
together from what each expansion notes; the lines of an INF file share one memory.
-/

namespace Unmask

namespace Diagnostic

/-- No two diagnostics are equal, and the flag says whether a cycle is among them. -/
structure Consistent (ds : List Diagnostic) (cyclic : Bool) : Prop where
  cyclic_iff : cyclic = true ↔ ReportsCycle ds
  nodup : ds.Nodup

theorem reportsCycle_foldl_add (new ds : List Diagnostic) :
    ReportsCycle (new.foldl (fun ds d => d.add ds) ds) ↔ ReportsCycle ds ∨ ReportsCycle new := by
  unfold ReportsCycle
  simp only [mem_foldl_add]
  exact exists_or

theorem not_reportsCycle_ambiguities (tokens : List Text) :
    ¬ ReportsCycle (tokens.map ambiguousExpansion) := by
  rintro ⟨name, h⟩
  obtain ⟨token, -, he⟩ := List.mem_map.1 h
  cases he

theorem consistent_nil : Consistent [] false where
  cyclic_iff := by simp [ReportsCycle]
  nodup := List.nodup_nil

theorem Consistent.add {ds new : List Diagnostic} {cyclic cyclic' : Bool}
    (h : Consistent ds cyclic) (hnew : cyclic' = true ↔ ReportsCycle new) :
    Consistent (new.foldl (fun ds d => d.add ds) ds) (cyclic || cyclic') where
  cyclic_iff := by rw [Bool.or_eq_true, h.cyclic_iff, hnew, reportsCycle_foldl_add]
  nodup := nodup_foldl_add new h.nodup

end Diagnostic

open Diagnostic (Consistent)

namespace Script.Progress

variable {settings : Settings}

/-- What is told of the statements so far is consistent, whatever they do. -/
theorem kept_consistent : Kept settings fun p => Consistent p.diagnostics p.cyclic where
  facing _ h := h
  write _ h := h
  define _ h := h
  separate _ h := h
  expand {p q text value} h hexpand := by
    obtain ⟨cyclic, memory, hmemory, rfl⟩ := expand_eq_ok hexpand
    exact h.add (Expansion.Scope.expand_evolves hmemory).reportsCycle_iff.symm

theorem finish_consistent {p : Progress} {r : Revealed} (h : Consistent p.diagnostics p.cyclic)
    (hfinish : p.finish settings = .ok r) : Consistent r.diagnostics r.cyclic := by
  obtain ⟨live, -, rfl⟩ := finish_eq_ok hfinish
  have hnew : (false = true) ↔ Diagnostic.ReportsCycle (live.map .ambiguousExpansion) := by
    simpa using Diagnostic.not_reportsCycle_ambiguities live
  have hadd := h.add hnew
  rwa [Bool.or_false] at hadd

end Script.Progress

theorem InfFile.exists_consistent (settings : Settings) (s : Text) :
    ∃ r, reveal settings s = .ok r ∧ Consistent r.diagnostics r.cyclic := by
  obtain ⟨r, hreveal⟩ := reveal_ok settings s
  obtain ⟨⟨⟨values, cyclic⟩, memory⟩, hexpand, h⟩ := bind_eq_ok.1 hreveal
  have hevolves := Expansion.expandAll_evolves hexpand
  cases h
  exact ⟨_, hreveal, hevolves.reportsCycle_iff.symm, hevolves.nodup List.nodup_nil⟩

/-- A result is cyclic exactly if it tells of a cycle, and it tells nothing twice. -/
theorem reveal_consistent (settings : Settings) :
    (∀ s r, Script.reveal settings s = .ok r →
      (r.cyclic = true ↔ ∃ name, .cyclicReference name ∈ r.diagnostics) ∧ r.diagnostics.Nodup) ∧
    ∀ s, ∃ r, InfFile.reveal settings s = .ok r ∧
      (r.cyclic = true ↔ ∃ name, .cyclicReference name ∈ r.diagnostics) ∧ r.diagnostics.Nodup := by
  constructor
  · intro s r h
    obtain ⟨p, hp, -, hfinish⟩ :=
      Script.Progress.kept_consistent.reveal Diagnostic.consistent_nil h
    have hr := Script.Progress.finish_consistent hp hfinish
    exact ⟨hr.cyclic_iff, hr.nodup⟩
  · intro s
    obtain ⟨r, h, hr⟩ := InfFile.exists_consistent settings s
    exact ⟨r, h, hr.cyclic_iff, hr.nodup⟩

/-- Two names that refer to each other, each used under a modifier, in statements of their own. -/
theorem reveal_consistent_pair :
    let r : Revealed := ⟨"echo x & echo x".toList,
      [⟨['A'], "%B%x".toList, 0⟩, ⟨['B'], "%A:~0,2%".toList, 1⟩],
      [.cyclicReference ['A'], .unresolvedReference "NO".toList, .cyclicReference ['B']], true⟩
    Script.reveal {} "set A=%B%x&set B=%A:~0,2%&echo %A% %NO%&echo %NO%%b:-none%".toList = .ok r ∧
      (r.cyclic = true ↔ ∃ name, .cyclicReference name ∈ r.diagnostics) ∧ r.diagnostics.Nodup := by
  intro r
  have h : Script.reveal {} "set A=%B%x&set B=%A:~0,2%&echo %A% %NO%&echo %NO%%b:-none%".toList =
      .ok r := by decide +kernel
  exact ⟨h, (reveal_consistent {}).1 _ _ h⟩

end Unmask
