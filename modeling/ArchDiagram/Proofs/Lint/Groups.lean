/-
# Groups of components that contain each other

The lint reports a finding for each group of components that lead to each other along the
references between components. A component that leads to itself is in exactly one of these
groups and any other component is in none, and two components are in one group if and only if
each leads to the other (`reports_groups`). A component that refers to itself is a group of its
own.
-/

import ArchDiagram.Proofs.Lint.Cycles
import Mathlib.Data.String.Basic

namespace ArchDiagram

open Relation

/-- A finding that reports a group of components: its message lists them once each in
ascending order, and it is filed under the least of them. -/
structure Finding.Reports (finding : Finding) (group : List String) : Prop where
  mistake : finding.mistake = .componentCycle group
  severity : finding.severity = .warning
  ascending : group.Pairwise (· < ·)
  subject : group.head? = some finding.subject
  message : finding.message =
    "Components " ++ " → ".intercalate group ++ " reference each other; the repeated branch is skipped."

namespace Registry

variable {registry : Registry} {members : List String} {finding : Finding}

/-- Some names in ascending order. -/
def ascending (members : List String) : List String :=
  members.mergeSort fun a b => !decide (b < a)

theorem mem_ascending {name : String} : name ∈ ascending members ↔ name ∈ members :=
  List.mem_mergeSort

/-- Different names stand in strictly ascending order. -/
theorem pairwise_ascending (h : members.Nodup) : (ascending members).Pairwise (· < ·) := by
  have hsorted : (ascending members).Pairwise fun a b => (!decide (b < a)) = true := by
    apply List.pairwise_mergeSort
    · intro a b c hab hbc
      simp only [Bool.not_eq_true', decide_eq_false_iff_not, not_lt] at hab hbc ⊢
      exact hab.trans hbc
    · intro a b
      simp only [Bool.or_eq_true, Bool.not_eq_true', decide_eq_false_iff_not, not_lt]
      exact le_total a b
  have hnodup : (ascending members).Nodup := List.nodup_mergeSort.mpr h
  refine hsorted.imp₂ (fun a b hle hne => ?_) hnodup
  simp only [Bool.not_eq_true', decide_eq_false_iff_not, not_lt] at hle
  exact lt_of_le_of_ne hle hne

theorem exists_cycleFinding (h : members ≠ []) :
    ∃ finding, cycleFinding members = some finding := by
  obtain ⟨finding, -, hfinding, -, -⟩ := cycleFinding_eq h
  exact ⟨finding, hfinding⟩

theorem reports_of_cycleFinding (hnodup : members.Nodup) (h : cycleFinding members = some finding) :
    finding.Reports (ascending members) := by
  have hsorted := pairwise_ascending hnodup
  unfold cycleFinding at h
  unfold ascending at hsorted ⊢
  split at h
  · cases h
  · rename_i least others heq
    obtain rfl := Option.some.inj h
    rw [heq] at hsorted ⊢
    exact ⟨rfl, rfl, hsorted, rfl, rfl⟩

theorem rule_eq_iff : finding.rule = "component-cycle" ↔
    ∃ group, finding.mistake = .componentCycle group := by
  obtain ⟨subject, mistake⟩ := finding
  cases mistake <;> simp [Finding.rule]

theorem rule_of_cycleFinding (h : cycleFinding members = some finding) :
    finding.rule = "component-cycle" := by
  unfold cycleFinding at h
  split at h
  · cases h
  · obtain rfl := Option.some.inj h
    rfl

/-- The findings about cycles come last, one for each cycle. -/
theorem filter_rule_lint (registry : Registry) :
    registry.lint.filter (fun finding => finding.rule = "component-cycle") =
      registry.containment.cycles.filterMap cycleFinding := by
  have hnone {findings : List Finding}
      (h : ∀ finding ∈ findings, ∀ group, finding.mistake ≠ .componentCycle group) :
      findings.filter (fun finding => finding.rule = "component-cycle") = [] := by
    refine List.filter_eq_nil_iff.mpr fun finding hfinding hrule => ?_
    obtain ⟨group, hgroup⟩ := rule_eq_iff.mp (decide_eq_true_eq.mp hrule)
    exact h finding hfinding group hgroup
  rw [lint, List.filter_append, List.filter_append, hnone, hnone, List.nil_append, List.nil_append,
    List.filter_eq_self]
  · intro finding hfinding
    obtain ⟨members, -, heq⟩ := List.mem_filterMap.mp hfinding
    exact decide_eq_true (rule_of_cycleFinding heq)
  · intro finding hfinding group
    obtain ⟨entry, -, hentry⟩ := List.mem_flatMap.mp hfinding
    obtain ⟨mistake, hmistake, rfl⟩ := List.mem_map.mp hentry
    exact not_componentCycle_of_mem_missingComponents hmistake
  · intro finding hfinding group
    obtain ⟨entry, -, hentry⟩ := List.mem_flatMap.mp hfinding
    obtain ⟨mistake, hmistake, rfl⟩ := List.mem_map.mp hentry
    exact not_componentCycle_of_mem_templateMistakes hmistake

theorem forall₂_reports {cycles : List (List String)} (hne : ∀ members ∈ cycles, members ≠ [])
    (hnodup : ∀ members ∈ cycles, members.Nodup) :
    List.Forall₂ Finding.Reports (cycles.filterMap cycleFinding) (cycles.map ascending) := by
  induction cycles with
  | nil => exact List.Forall₂.nil
  | cons members rest ih =>
      rw [List.forall_mem_cons] at hne hnodup
      obtain ⟨finding, hfinding⟩ := exists_cycleFinding hne.1
      rw [List.filterMap_cons_some hfinding, List.map_cons]
      exact .cons (reports_of_cycleFinding hnodup.1 hfinding) (ih hne.2 hnodup.2)

/-- The lint reports the groups of components that lead to each other, each group in one
finding: every component that leads to itself is in one group and no other one is in any, and
components share a group if and only if each leads to the other. -/
theorem reports_groups (registry : Registry) :
    ∃ groups : List (List String),
      List.Forall₂ Finding.Reports
        (registry.lint.filter fun finding => finding.rule = "component-cycle") groups ∧
      groups.Pairwise List.Disjoint ∧
      (∀ name, (∃ group ∈ groups, name ∈ group) ↔ TransGen registry.Contains name name) ∧
      ∀ name other, (∃ group ∈ groups, name ∈ group ∧ other ∈ group) ↔
        TransGen registry.Contains name other ∧ TransGen registry.Contains other name := by
  have hne : ∀ members ∈ registry.containment.cycles, members ≠ [] :=
    fun members hmembers => Graph.ne_nil_of_mem_cycles hmembers
  refine ⟨registry.containment.cycles.map ascending, ?_, ?_, fun name => ?_, fun name other => ?_⟩
  · rw [filter_rule_lint]
    exact forall₂_reports hne fun members => Graph.nodup_of_mem_cycles
  · refine List.pairwise_map.mpr (registry.containment.pairwise_disjoint_cycles.imp ?_)
    intro first second hdisjoint name hfirst hsecond
    exact hdisjoint (mem_ascending.mp hfirst) (mem_ascending.mp hsecond)
  · simp only [List.mem_map, exists_exists_and_eq_and, mem_ascending]
    rw [Graph.exists_mem_cycles_iff, edge_containment]
  · simp only [List.mem_map, exists_exists_and_eq_and, mem_ascending]
    rw [Graph.exists_mem_cycles_and_iff, edge_containment]

end Registry

end ArchDiagram
