import Mathlib.Data.List.Basic
import Mathlib.Logic.Relation
import IntervalDag.Analysis.Digraph

/-!
# Sorted graphs

What is relied on when a graph is sorted (`Digraph.Sorter.Sorts`): a graph without cycles is put in order, and one with a
cycle is refused at a vertex. Nothing is said of which order or vertex it is.
-/

namespace IntervalDag.Digraph

open scoped List

/-- Some vertex can be reached from itself along edges. -/
def IsCyclic (d : Digraph) : Prop := ∃ v, Relation.TransGen (fun v w => (v, w) ∈ d.edges) v v

/-- The list has each vertex once, and the source of each edge before its target. -/
structure IsSorted (d : Digraph) (order : List Nat) : Prop where
  nodup : order.Nodup
  mem_iff : ∀ v, v ∈ order ↔ v < d.nodes.size
  edges : ∀ e ∈ d.edges, [e.1, e.2] <+ order

/-- What is relied on. -/
structure Sorter.Sorts (sort : Sorter) : Prop where
  sorted : ∀ d : Digraph, ¬ d.IsCyclic → ∃ order, sort d = .ok order ∧ d.IsSorted order
  refused : ∀ d : Digraph, d.IsCyclic → ∃ v, sort d = .error v ∧ v < d.nodes.size

/-- Positions go up along edges, so there is no way back. -/
theorem IsSorted.not_isCyclic {d : Digraph} {order : List Nat} (h : d.IsSorted order) : ¬ d.IsCyclic := by
  have hup : ∀ v w, (v, w) ∈ d.edges → order.idxOf v < order.idxOf w := by
    intro v w hedge
    obtain ⟨before, after, rfl, hv, hw⟩ := List.cons_sublist_iff.mp (h.edges (v, w) hedge)
    have hnot : w ∉ before := fun hmem =>
      (List.nodup_append.mp h.nodup).2.2 w hmem w (List.singleton_sublist.mp hw) rfl
    rw [List.idxOf_append_of_mem hv, List.idxOf_append_of_notMem hnot]
    exact Nat.lt_of_lt_of_le (List.idxOf_lt_length_of_mem hv) (Nat.le_add_right ..)
  rintro ⟨v, hv⟩
  have hlt : Relation.TransGen (· < ·) (order.idxOf v) (order.idxOf v) := hv.lift order.idxOf hup
  rw [Relation.transGen_eq_self] at hlt
  exact Nat.lt_irrefl _ hlt

end IntervalDag.Digraph
