import IntervalDag.Proofs.Walk.ReverseTopological

/-!
# Visits

What a user of a reverse topological walk relies on while the walk goes on. `Visiting` names the nodes
that were visited before the current one. The current node is not among them but its operands are, and
when there is no current node they are all the nodes at or below the root.

Between two steps the user may change anything but operands and what walks keep (`Visiting.sameWay`).
-/

namespace IntervalDag

variable {α : Type}

/-- A walk below a root that has visited the nodes `seen` and stands at another node or at its end. -/
structure Visiting (root : NodeId) (slot : Nat) (g : Graph α) (w : Walk) (seen : NodeId → Prop) : Prop where
  walking : Walking root slot g w
  /-- at the end everything was visited -/
  atEnd : w.current = none → ∀ n, seen n ↔ g.arena.Below n root
  /-- every node is visited once, after its operands, and after what is left of the way down to it -/
  atNode : ∀ n, w.current = some n → g.arena.Below n root ∧ ¬ seen n ∧
    (∀ c, g.arena.IsOperand c n → seen c) ∧ Pending g.arena.operands seen root n w.stack ∧
    ∀ m, g.marked slot w.visitTag m = true ↔ m = n ∨ seen m

/-- A bound on the steps to come. -/
def Walk.turns (w : Walk) (g : Graph α) (slot : Nat) : Nat :=
  if w.current = none then 0 else w.budget g slot + 1

/-- Either nothing below the root is outside the arena and no way down from it goes on forever, or all
faults are allowed. -/
def Graph.Walkable (g : Graph α) (root : NodeId) (E : Fault α → Prop) : Prop :=
  (Acc g.arena.IsOperand root ∧ ∀ n, g.arena.Below n root → n < g.arena.capacity) ∨ ∀ e, E e

/-- The walk that a graph starts at a root with a slot. -/
def Graph.startedWalk (g : Graph α) (root : NodeId) (slot : Nat) : Walk :=
  { g.newWalk with
    mode := .reverseTopological, slot := some slot, visitTag := g.walks.visitTags.last + 1,
    stack := [(root, 0)] }

/-- The graph with a slot taken and the next tag given out. -/
def Graph.leased (g : Graph α) (slot : Nat) : Graph α :=
  { g with walks := ⟨slot :: g.walks.taken, ⟨g.walks.visitTags.last + 1⟩⟩ }

theorem Walk.start_eq (g : Graph α) (root : NodeId) :
    g.newWalk.start g (some root) .reverseTopological false =
      match g.walks.lowestFree? with
      | some slot => (g.startedWalk root slot).next (g.leased slot)
      | none => .error .slotsExhausted := by
  unfold Walk.start
  simp only [Graph.newWalk, leaseSlot, SlotPool.lease, ne_eq, not_true_eq_false, if_false, or_true,
    if_true]
  cases g.walks.lowestFree? <;> rfl

namespace Visiting

variable {root n : NodeId} {slot : Nat} {g g' : Graph α} {w : Walk} {seen : NodeId → Prop}
  {E : Fault α → Prop}

/-- Changes beside the operands and what walks keep do not matter. -/
theorem sameWay (h : Visiting root slot g w seen) (hsame : Graph.SameWay g g') :
    Visiting root slot g' w seen where
  walking := hsame.walking h.walking
  atEnd := by
    rw [hsame.children.below_eq]
    exact h.atEnd
  atNode := by
    rw [hsame.children.below_eq, hsame.children.isOperand_eq, hsame.children.operands_eq, hsame.marked_eq]
    exact h.atNode

theorem turns_le (h : Walking root slot g w) (hacc : Acc g.arena.IsOperand root) :
    w.turns g slot < 2 ^ g.walkExponent := by
  have hle := h.budget_le hacc
  have hpow : g.arena.edgeCount < 2 ^ g.arena.edgeCount := Nat.lt_two_pow_self
  rw [Walk.turns, Graph.walkExponent, Nat.pow_add]
  split
  · omega
  · omega

/-- A walk that has arrived where exactly the nodes `seen` were visited. -/
theorem of_arrived {w' : Walk} (h : Arrived root slot g w g' w')
    (hseen : ∀ m, g.marked slot w.visitTag m = true ↔ seen m) : Visiting root slot g' w' seen where
  walking := h.walking
  atEnd hnone m := by
    obtain ⟨rfl, hroot⟩ := h.atEnd hnone
    have htag : w'.visitTag = w.visitTag := by rw [h.rest_eq]
    rw [← hseen m, ← htag]
    exact h.walking.marked_iff_below (htag ▸ hroot) m
  atNode m hm := by
    obtain ⟨hbelow, hnew, hmarked, hops, hpending⟩ := h.atNode m hm
    have htag : w'.visitTag = w.visitTag := by rw [h.rest_eq]
    rw [h.walked.children.below_eq, h.walked.children.isOperand_eq, h.walked.children.operands_eq, htag]
    refine ⟨hbelow, fun hs => ?_, fun c hc => (hseen c).mp (hops c hc),
      hpending.mono fun k hk => (hseen k).mp hk, fun k => ?_⟩
    · rw [(hseen m).mpr hs] at hnew
      cases hnew
    · rw [hmarked k, Bool.or_eq_true, decide_eq_true_iff, hseen k]

/-- **Going on.** A step from a node adds that node to those visited, also when the graph was changed in
between. -/
theorem meets_next (h : Visiting root slot g w seen) (hn : w.current = some n)
    (hgood : g.Walkable root E) (hsame : Graph.SameWay g g') :
    Meets (w.next g') () E fun r _ => Visiting root slot r.2 r.1 (fun m => m = n ∨ seen m) ∧
      Graph.Walked g' r.2 ∧ r.2.walks = g.walks ∧
      (Acc g.arena.IsOperand root → r.1.turns r.2 slot < w.turns g slot) := by
  have h' := h.sameWay hsame
  have hgood' : g'.Walkable root E := by
    rw [Graph.Walkable, hsame.children.isOperand_eq, hsame.children.below_eq, hsame.children.capacity_eq]
    exact hgood
  refine (h'.walking.meets_next hgood').imp fun r _ harrived => ?_
  refine ⟨of_arrived harrived (h'.atNode n hn).2.2.2.2, harrived.walked,
    harrived.walks_eq.trans hsame.walks_eq, fun hacc => ?_⟩
  rw [Walk.turns, Walk.turns, hn, if_neg (Option.some_ne_none n)]
  split
  · exact Nat.succ_pos _
  · rw [← hsame.children.isOperand_eq] at hacc
    rw [← hsame.budget_eq]
    exact Nat.succ_lt_succ (harrived.budget_lt ‹_› hacc)

/-- The slot is given back at the end. -/
theorem walked_finish (h : Visiting root slot g w seen) {taken : List Nat}
    (htaken : g.walks.taken = slot :: taken) :
    Graph.Walked g (w.finish g) ∧ (w.finish g).walks.taken = taken ∧ (w.finish g).TagsGiven := by
  have hrun : w.finish g = { g with walks := g.walks.giveBack slot } := by
    rw [Walk.finish, Walk.releaseSlot, h.walking.slot_eq]
  rw [hrun]
  refine ⟨⟨.refl _ _, rfl, rfl⟩, ?_, h.walking.tagsGiven⟩
  change g.walks.taken.erase slot = taken
  rw [htaken, List.erase_cons_head]

end Visiting

/-- A graph on which a walk has begun. -/
structure Graph.Begun (g g' : Graph α) (slot : Nat) : Prop where
  walked : Graph.Walked g g'
  taken_eq : g'.walks.taken = slot :: g.walks.taken
  tag_le : g.walks.visitTags.last ≤ g'.walks.visitTags.last

/-- **Starting.** A walk with a slot begins with nothing visited. -/
theorem Walk.meets_start {g : Graph α} {root : NodeId} {E : Fault α → Prop} (htags : g.TagsGiven)
    (hgood : g.Walkable root E) (hslot : g.walks.lowestFree? ≠ none ∨ ∀ e, E e) :
    Meets (g.newWalk.start g (some root) .reverseTopological false) () E fun r _ =>
      ∃ slot, Visiting root slot r.2 r.1 (fun _ => False) ∧ Graph.Begun g r.2 slot := by
  rw [Walk.start_eq]
  rcases hfree : g.walks.lowestFree? with _ | slot
  · exact hslot.resolve_left (fun h => h hfree) _
  have htags' : (g.leased slot).TagsGiven := fun n node i hn =>
    Nat.le_trans (htags n node i hn) (Nat.le_succ _)
  have hnone : ∀ n, (g.leased slot).marked slot (g.startedWalk root slot).visitTag n = false :=
    htags.marked_eq_false (Nat.lt_succ_self _) slot
  have hwalking : Walking root slot (g.leased slot) (g.startedWalk root slot) := by
    refine ⟨rfl, rfl, Nat.succ_ne_zero _, Nat.le_refl _, htags', ⟨.root, fun j _ hj => ?_⟩, fun n hn => ?_,
      fun _ => ?_⟩
    · exact absurd hj (Nat.not_lt_zero j)
    · rw [hnone] at hn
      cases hn
    · exact Nat.le_of_eq (Walk.budget_start _ _ slot rfl hnone)
  refine (hwalking.meets_next hgood).imp fun r _ harrived => ⟨slot, ?_, ?_⟩
  · refine Visiting.of_arrived harrived fun m => ?_
    rw [hnone]
    simp
  · have hleased : Graph.Walked g (g.leased slot) := ⟨.refl _ _, rfl, rfl⟩
    refine ⟨hleased.trans harrived.walked, ?_, ?_⟩
    · rw [harrived.walks_eq]
      rfl
    · rw [harrived.walks_eq]
      exact Nat.le_succ _

end IntervalDag
