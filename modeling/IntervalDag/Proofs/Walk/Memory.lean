import IntervalDag.Proofs.Walk.Scratch

/-!
# What walks remember

A walk without revisits remembers by its marks which nodes it has dealt with, and a walk with revisits remembers nothing
(`Walk.Remembers`). A walk that has just got its slot and its tag remembers no node, whatever earlier walks left in the
slots (`Walk.Readied.remembers`).

What such a walk shows is a list of nodes, one per step, after which it has ended for good (`Walk.Shows`).
-/

namespace IntervalDag

variable {α : Type}

namespace Walk

/-! ### Steps in a row -/

/-- Takes a number of steps. -/
def advance : Nat → Walk → Graph α → Checked α (Walk × Graph α)
  | 0, w, g => .ok (w, g)
  | k + 1, w, g => do
    let (w, g) ← w.next g
    advance k w g

/-- However many steps are taken, the walk meets no fault. It stands at the nodes `ns` one after the other, and from
then on at none. -/
def Shows (w : Walk) (g : Graph α) (ns : List NodeId) : Prop :=
  ∀ k, ∃ w' g', advance k w g = .ok (w', g') ∧ w'.current = ns[k]?

/-- A walk shows what its steps preserve, from one node to the next. -/
theorem Shows.of_steps {I : Walk → Graph α → List NodeId → Prop}
    (hcurrent : ∀ {w g ns}, I w g ns → w.current = ns.head?)
    (hnext : ∀ {w g ns}, I w g ns → ∃ w' g', w.next g = .ok (w', g') ∧ I w' g' ns.tail) {w : Walk} {g : Graph α}
    {ns : List NodeId} (h : I w g ns) : w.Shows g ns := by
  intro k
  induction k generalizing w g ns with
  | zero => exact ⟨w, g, rfl, by rw [hcurrent h, List.head?_eq_getElem?]⟩
  | succ k ih =>
    obtain ⟨w₁, g₁, hrun, hI⟩ := hnext h
    obtain ⟨w', g', hadvance, hshown⟩ := ih hI
    refine ⟨w', g', ?_, ?_⟩
    · rw [advance, hrun]
      exact hadvance
    · rw [hshown, List.getElem?_tail]

/-! ### Marks -/

/-- A walk without revisits has marked the nodes `seen`, on a graph with the operands of an arena. -/
structure Remembers (revisits : Bool) (a : Arena α) (w : Walk) (g : Graph α) (seen : List NodeId) : Prop where
  revisits_eq : w.allowsRevisits = revisits
  children : Arena.AgreeOn (·.children) a g.arena
  marks : revisits = false →
    ∃ slot, w.slot = some slot ∧ ∀ n, (g.arena.scratch slot n).visited = w.visitTag ↔ n ∈ seen

namespace Remembers

variable {revisits : Bool} {a : Arena α} {w : Walk} {g : Graph α} {seen : List NodeId} {n : NodeId}

/-- Where the walk stands and what it plans does not matter. -/
theorem stand (h : Remembers revisits a w g seen) (current : Option NodeId) (stack : List (NodeId × Nat))
    (queue : Fifo NodeId) : Remembers revisits a { w with current, stack, queue } g seen :=
  ⟨h.revisits_eq, h.children, h.marks⟩

theorem lt_capacity (h : Remembers revisits a w g seen) (hn : n < a.capacity) : n < g.arena.capacity :=
  h.children.capacity_eq ▸ hn

theorem children_eq (h : Remembers revisits a w g seen) (hn : n < a.capacity) :
    g.arena.children n = .ok (a.operands n) := by
  rw [Arena.children_eq_ok (h.lt_capacity hn), h.children.operands_eq]

theorem exponent_eq (h : Remembers revisits a w g seen) : g.walkExponent = a.edgeCount + 3 := by
  rw [Graph.walkExponent, h.children.edgeCount_eq]

theorem isVisited_eq (h : Remembers revisits a w g seen) (hn : n < a.capacity) :
    w.isVisited g n = .ok (!revisits && seen.contains n) := by
  rw [isVisited, h.revisits_eq]
  cases revisits with
  | true => rfl
  | false =>
    obtain ⟨slot, hslot, hmarks⟩ := h.marks rfl
    rw [if_neg Bool.false_ne_true, slotIndex, hslot]
    change (g.arena.slot n slot >>= _) = _
    rw [Arena.slot_eq (h.lt_capacity hn)]
    change Except.ok ((g.arena.scratch slot n).visited == w.visitTag) = _
    rw [Bool.not_false, Bool.true_and, Except.ok.injEq, Bool.eq_iff_iff, beq_iff_eq, List.contains_iff_mem, hmarks]

/-- Marking one node more. -/
theorem exists_markVisited (h : Remembers revisits a w g seen) (hn : n < a.capacity) :
    ∃ g', w.markVisited g n = .ok g' ∧ Remembers revisits a w g' (seen ++ [n]) := by
  rw [markVisited, h.revisits_eq]
  cases revisits with
  | true => exact ⟨g, rfl, h.revisits_eq, h.children, fun hfalse => by cases hfalse⟩
  | false =>
    obtain ⟨slot, hslot, hmarks⟩ := h.marks rfl
    rw [if_neg Bool.false_ne_true, modifySlot_eq hslot (h.lt_capacity hn)]
    refine ⟨_, rfl, h.revisits_eq, h.children.trans (.of_modify fun _ => rfl), fun _ => ⟨slot, hslot, fun m => ?_⟩⟩
    rw [Graph.modify, Arena.scratch_modify_slot (h.lt_capacity hn), List.mem_append, List.mem_singleton, ← hmarks m]
    by_cases hm : m = n
    · simp [hm]
    · simp [hm]

end Remembers

/-- A walk gets a slot and a tag where it needs no slot, holds one or can have one. -/
theorem exists_ready_of_tracks {w : Walk} {g : Graph α} (mode : Mode) (revisits : Bool) (hhome : w.home = g.identity)
    (hslot : tracks mode revisits = true → w.slot ≠ none ∨ g.walks.lowestFree? ≠ none) :
    ∃ w₁ g₁, w.ready g mode revisits = .ok (w₁, g₁) ∧ Readied w g mode revisits w₁ g₁ := by
  have hspec := ready_spec mode revisits hhome
  rcases hready : w.ready g mode revisits with e | r
  · rw [hready] at hspec
    obtain ⟨-, htracks, hnone, hfree⟩ := hspec
    exact ((hslot htracks).elim (· hnone) (· hfree)).elim
  · rw [hready] at hspec
    exact ⟨r.1, r.2, rfl, hspec⟩

/-- A walk that has just got a slot and a tag remembers nothing: the tag is above all that slots bear. -/
theorem Readied.remembers {w w₁ : Walk} {g g₁ : Graph α} {mode : Mode} {revisits : Bool}
    (h : Readied w g mode revisits w₁ g₁) (htags : g.TagsGiven) : Remembers revisits g.arena w₁ g₁ [] := by
  have htag := h.tag
  refine ⟨?_, h.arena_eq ▸ .refl _ _, fun hrevisits => ?_⟩
  · cases revisits with
    | true => simp [allowsRevisits, htag.1]
    | false => simp [allowsRevisits, htag.1]
  · subst hrevisits
    have hslot := h.slot
    rw [if_pos (by simp [tracks])] at hslot
    obtain ⟨slot, hslot, -⟩ := hslot
    refine ⟨slot, hslot, fun n => ?_⟩
    have hle := Graph.tagsGiven_iff.mp htags slot n
    rw [h.arena_eq, htag.1]
    simp only [List.not_mem_nil, iff_false]
    omega

end Walk

end IntervalDag
