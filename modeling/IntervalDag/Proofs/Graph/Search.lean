import Std.Data.HashSet.Lemmas
import IntervalDag.Graph.Build
import IntervalDag.Proofs.Graph.Edges
import IntervalDag.Proofs.Outcome

/-!
# Searching for a node

The search for a target looks at waiting nodes one after another and puts the operands of each node that
it sees for the first time in line. It decides whether the target lies below the start.

* `exists_reaches`: on an arena whose operands are entries the search ends, with or without cycles, and
  its answer is right.

Each turn uses up one of the nodes waiting or of the operand positions not yet put in line
(`Searching.bound`), which is why it ends.
-/

namespace IntervalDag

variable {α β : Type}

/-! ### Taking out of a queue -/

theorem Fifo.pop?_eq_none {q : Fifo β} (h : q.pop? = none) : q.toList = [] := by
  have hq := q.pop?_eq
  rw [h] at hq
  rcases hl : q.toList with _ | ⟨b, bs⟩
  · rfl
  · rw [hl] at hq
    cases hq

theorem Fifo.pop?_eq_some {q q' : Fifo β} {b : β} (h : q.pop? = some (b, q')) :
    q.toList = b :: q'.toList := by
  have hq := q.pop?_eq
  rw [h] at hq
  rcases hl : q.toList with _ | ⟨b', bs⟩
  · rw [hl] at hq
    cases hq
  · rw [hl] at hq
    simp only [Option.map_some, Option.some.injEq, Prod.mk.injEq] at hq
    rw [hq.1, hq.2]

namespace Graph

/-- What holds before every turn of the search below `start` for `target`, with a bound on the turns to
come. -/
structure Searching (g : Graph α) (start target : NodeId) (k : Nat) (s : Search) : Prop where
  /-- only what lies below the start is looked at -/
  below : ∀ n ∈ s.waiting.toList, n < g.arena.capacity ∧ g.arena.Below n start
  /-- the start was searched or will be -/
  start_covered : start ∈ s.waiting.toList ∨ s.visited.contains start = true
  /-- the target was not among the nodes searched, whose operands were searched or will be -/
  visited_covered : ∀ n, s.visited.contains n = true →
    n ≠ target ∧ ∀ c, g.arena.IsOperand c n → c ∈ s.waiting.toList ∨ s.visited.contains c = true
  /-- a turn takes a waiting node, or makes room for as many as it puts in line -/
  bound : s.waiting.toList.length + g.arena.openEdges s.visited.contains ≤ k
  bound_le : k ≤ g.arena.edgeCount + 1

namespace Searching

variable {g : Graph α} {start target : NodeId} {k : Nat} {s : Search}

theorem initial (hstart : start < g.arena.capacity) :
    Searching g start target (g.arena.edgeCount + 1) ⟨Fifo.empty.push start, ∅⟩ where
  below n hn := by
    have : n = start := by simpa using hn
    subst this
    exact ⟨hstart, .refl _ _⟩
  start_covered := Or.inl (by simp)
  visited_covered n hn := by simp at hn
  bound := by
    have := g.arena.openEdges_le (∅ : Std.HashSet NodeId).contains
    simp only [Fifo.toList_push, Fifo.toList_empty, List.nil_append, List.length_singleton]
    omega
  bound_le := Nat.le_refl _

/-- When nothing waits, everything below the start was searched. -/
theorem not_below (h : Searching g start target k s) (hnil : s.waiting.toList = []) :
    ¬ g.arena.Below target start := by
  have hclosed : ∀ n, g.arena.Below n start → s.visited.contains n = true := by
    intro n hn
    induction hn using Relation.ReflTransGen.head_induction_on with
    | refl => simpa [hnil] using h.start_covered
    | head hop _ ih => simpa [hnil] using (h.visited_covered _ ih).2 _ hop
  exact fun ht => (h.visited_covered target (hclosed target ht)).1 rfl

/-- A node that was searched before is passed over. -/
theorem skip (h : Searching g start target k s) {n : NodeId} {waiting : Fifo NodeId}
    (hpop : s.waiting.toList = n :: waiting.toList) (hn : s.visited.contains n = true) :
    ∃ j < k, Searching g start target j { s with waiting } := by
  have hmoved : ∀ m, m ∈ s.waiting.toList ∨ s.visited.contains m = true →
      m ∈ waiting.toList ∨ s.visited.contains m = true := by
    intro m hm
    rw [hpop, List.mem_cons] at hm
    rcases hm with (rfl | hm) | hm
    · exact Or.inr hn
    · exact Or.inl hm
    · exact Or.inr hm
  have hlen : s.waiting.toList.length = waiting.toList.length + 1 := by rw [hpop, List.length_cons]
  have hbound := h.bound
  have hle := h.bound_le
  refine ⟨k - 1, by omega, fun m hm => ?_, hmoved start h.start_covered, fun m hm => ?_, ?_, ?_⟩
  · exact h.below m (by rw [hpop]; exact List.mem_cons_of_mem _ hm)
  · obtain ⟨hne, hcovered⟩ := h.visited_covered m hm
    exact ⟨hne, fun c hc => hmoved c (hcovered c hc)⟩
  · show waiting.toList.length + g.arena.openEdges s.visited.contains ≤ k - 1
    omega
  · omega

/-- A node that is seen for the first time is exchanged for its operands. -/
theorem expand (h : Searching g start target k s) (hinside : g.arena.OperandsInside) {n : NodeId}
    {waiting : Fifo NodeId} (hpop : s.waiting.toList = n :: waiting.toList) (hne : n ≠ target)
    (hn : s.visited.contains n = false) :
    ∃ j < k, Searching g start target j
      ⟨waiting.pushAll (g.arena.operands n), s.visited.insert n⟩ := by
  have hmem : n ∈ s.waiting.toList := by
    rw [hpop]
    exact List.mem_cons_self ..
  have hmoved : ∀ m, m ∈ s.waiting.toList ∨ s.visited.contains m = true →
      m ∈ (waiting.pushAll (g.arena.operands n)).toList ∨ (s.visited.insert n).contains m = true := by
    intro m hm
    rw [hpop, List.mem_cons] at hm
    rw [Fifo.toList_pushAll, List.mem_append, Std.HashSet.contains_insert, Bool.or_eq_true]
    rcases hm with (rfl | hm) | hm
    · exact Or.inr (Or.inl (by simp))
    · exact Or.inl (Or.inl hm)
    · exact Or.inr (Or.inr hm)
  -- each operand that gets in line pays with an edge that is not looked at again
  have hopen : g.arena.openEdges (s.visited.insert n).contains + (g.arena.operands n).length =
      g.arena.openEdges s.visited.contains := by
    refine g.arena.openEdges_close hn (by simp) fun m hm => ?_
    rw [Std.HashSet.contains_insert, beq_false_of_ne (Ne.symm hm), Bool.false_or]
  have hlen : s.waiting.toList.length = waiting.toList.length + 1 := by rw [hpop, List.length_cons]
  have hbound := h.bound
  have hle := h.bound_le
  refine ⟨k - 1, by omega, fun m hm => ?_, hmoved start h.start_covered, fun m hm => ?_, ?_, ?_⟩
  · rw [Fifo.toList_pushAll, List.mem_append] at hm
    rcases hm with hm | hm
    · exact h.below m (by rw [hpop]; exact List.mem_cons_of_mem _ hm)
    · exact ⟨hinside m n hm, (Arena.IsOperand.below hm).trans (h.below n hmem).2⟩
  · rw [Std.HashSet.contains_insert, Bool.or_eq_true, beq_iff_eq] at hm
    rcases hm with rfl | hm
    · refine ⟨hne, fun c hc => Or.inl ?_⟩
      rw [Fifo.toList_pushAll]
      exact List.mem_append_right _ hc
    · obtain ⟨hne', hcovered⟩ := h.visited_covered m hm
      exact ⟨hne', fun c hc => hmoved c (hcovered c hc)⟩
  · show (waiting.pushAll (g.arena.operands n)).toList.length +
      g.arena.openEdges (s.visited.insert n).contains ≤ k - 1
    rw [Fifo.toList_pushAll, List.length_append]
    omega
  · omega

/-- One turn of the search answers rightly or gets nearer to an answer. -/
theorem step (h : Searching g start target k s) (hinside : g.arena.OperandsInside) :
    Meets (g.searchStep target s) () NoFault (Turn.Allowed
      (fun s _ => ∃ j < k, Searching g start target j s)
      fun found _ => found = true ↔ g.arena.Below target start) := by
  rw [searchStep]
  rcases hp : s.waiting.pop? with _ | ⟨n, waiting⟩
  · have hnot := h.not_below (Fifo.pop?_eq_none hp)
    exact meets_pure.mpr ⟨fun hfound => (Bool.false_ne_true hfound).elim, fun hbelow => absurd hbelow hnot⟩
  have hpop := Fifo.pop?_eq_some hp
  obtain ⟨hlt, hbelow⟩ := h.below n (by rw [hpop]; exact List.mem_cons_self ..)
  by_cases hne : n = target
  · subst hne
    simp only [if_true]
    exact meets_pure.mpr ⟨fun _ => hbelow, fun _ => rfl⟩
  · simp only [hne, if_false]
    rcases hn : s.visited.contains n with _ | _
    · simp only [Arena.children_eq_ok hlt]
      exact meets_pure.mpr (h.expand hinside hpop hne hn)
    · exact meets_pure.mpr (h.skip hpop hn)

end Searching

/-- **Reachability is decided.** Whether or not there are cycles, the search ends and finds the target
exactly when it is the start or lies below it. -/
theorem exists_reaches {g : Graph α} (hinside : g.arena.OperandsInside) {start : NodeId}
    (hstart : start < g.arena.capacity) (target : NodeId) :
    ∃ found, g.reaches start target = .ok found ∧
      (found = true ↔ g.arena.Below target start) := by
  refine meets_noFault_iff.mp (meets_run (fun k s _ h => ?_) (fun k s _ h => ?_)
    (I := fun k s _ => Searching g start target k s) (Searching.initial hstart))
  · exact meets_pure.mpr ⟨rfl, Nat.lt_of_le_of_lt h.bound_le Nat.lt_two_pow_self⟩
  · exact h.step hinside

end Graph

end IntervalDag
