import IntervalDag.Proofs.Walk.Marks

/-!
# Reverse topological walks

A reverse topological walk without revisits visits every node at or below its root exactly once, and no
node before its operands. `Walking` is the invariant between two steps: the operands of a visited node were
visited, and the stack leads from the root down to the node that is worked off, with everything to the
left of it visited.

* `Walking.meets_next`: a step arrives at a node not visited before whose operands were, or at the end,
  when everything below the root was visited (`Walking.marked_iff_below`).
* `meets_start`: a new walk starts with nothing visited, and arrives in the same way.

If the operand relation is accessible at the root, then no step is cut off. What bounds the turns of a
step is `Walk.budget`, which counts each operand position not yet considered twice: once to be considered
and once for the node that it may put on the stack.
-/

namespace IntervalDag

variable {α : Type}

/-! ### The stack -/

section Stack

variable (operands : NodeId → List NodeId) (done : NodeId → Prop) (root : NodeId)

/-- The nodes `rest`, innermost first, lead from the root down to `n`. Each is given with the position
behind the one where the way down leaves it, and the operands before that were done. -/
inductive Pending : NodeId → List (NodeId × Nat) → Prop where
  | root : Pending root []
  | child {m n : NodeId} {c : Nat} {rest : List (NodeId × Nat)} (h : Pending m rest)
      (hn : (operands m)[c]? = some n)
      (hleft : ∀ j d, j < c → (operands m)[j]? = some d → done d) : Pending n ((m, c + 1) :: rest)

/-- What is on the stack of a walk: a way down from the root to the innermost node, whose operands before
the cursor were done. Nothing is left when the root was done. -/
def Stacked : List (NodeId × Nat) → Prop
  | [] => done root
  | (n, c) :: rest =>
    Pending operands done root n rest ∧ ∀ j d, j < c → (operands n)[j]? = some d → done d

end Stack

variable {a : Arena α} {done done' : NodeId → Prop} {root n : NodeId} {c : Nat}
  {rest : List (NodeId × Nat)}

theorem Pending.below_root (h : Pending a.operands done root n rest) : a.Below n root := by
  induction h with
  | root => exact .refl a root
  | child _ hn _ ih => exact (Arena.IsOperand.below (List.mem_of_getElem? hn)).trans ih

theorem Pending.mono (h : Pending a.operands done root n rest) (himp : ∀ m, done m → done' m) :
    Pending a.operands done' root n rest := by
  induction h with
  | root => exact .root
  | child _ hn hleft ih => exact .child ih hn fun j d hj hd => himp d (hleft j d hj hd)

/-- The way down to a node goes through nodes strictly above it. -/
theorem Pending.transGen_of_mem (h : Pending a.operands done root n rest) {m : NodeId} {k : Nat}
    (hm : (m, k) ∈ rest) : Relation.TransGen a.IsOperand n m := by
  induction h with
  | root => cases hm
  | child _ hn _ ih =>
    have hop := List.mem_of_getElem? hn
    rw [List.mem_cons] at hm
    rcases hm with hm | hm
    · cases hm
      exact .single hop
    · exact .head hop (ih hm)

/-- An operand that was done is passed over. -/
theorem Stacked.skip (h : Stacked a.operands done root ((n, c) :: rest)) {d : NodeId}
    (hd : (a.operands n)[c]? = some d) (hdone : done d) : Stacked a.operands done root ((n, c + 1) :: rest) := by
  refine ⟨h.1, fun j d' hj hd' => ?_⟩
  rcases Nat.lt_succ_iff_lt_or_eq.mp hj with hj | rfl
  · exact h.2 j d' hj hd'
  · rw [hd] at hd'
    cases hd'
    exact hdone

/-- The next operand is put on the stack. -/
theorem Stacked.push (h : Stacked a.operands done root ((n, c) :: rest)) {d : NodeId}
    (hd : (a.operands n)[c]? = some d) : Stacked a.operands done root ((d, 0) :: (n, c + 1) :: rest) :=
  ⟨.child h.1 hd h.2, fun j _ hj => absurd hj (Nat.not_lt_zero j)⟩

/-- When no operand is left, all of them were done. -/
theorem Stacked.done_operand (h : Stacked a.operands done root ((n, c) :: rest))
    (hend : (a.operands n)[c]? = none) {d : NodeId} (hd : a.IsOperand d n) : done d := by
  obtain ⟨j, hj⟩ := List.mem_iff_getElem?.mp hd
  rw [List.getElem?_eq_none_iff] at hend
  obtain ⟨hlt, -⟩ := List.getElem?_eq_some_iff.mp hj
  exact h.2 j d (Nat.lt_of_lt_of_le hlt hend) hj

/-- A node that was done is taken off. -/
theorem Stacked.pop (h : Stacked a.operands done root ((n, c) :: rest)) (himp : ∀ m, done m → done' m)
    (hn : done' n) : Stacked a.operands done' root rest := by
  obtain ⟨hpending, -⟩ := h
  cases hpending with
  | root => exact hn
  | child hm hop hleft =>
    refine ⟨hm.mono himp, fun j d hj hd => ?_⟩
    rcases Nat.lt_succ_iff_lt_or_eq.mp hj with hj | rfl
    · exact himp d (hleft j d hj hd)
    · rw [hop] at hd
      cases hd
      exact hn

/-! ### The budget -/

/-- A bound on the turns to come. -/
def Walk.budget (w : Walk) (g : Graph α) (slot : Nat) : Nat :=
  2 * (g.arena.openEdges (fun n => g.marked slot w.visitTag n || w.stack.any (·.1 == n)) +
      (w.stack.map fun entry => (g.arena.operands entry.1).length - entry.2).sum) +
    w.stack.length

section Budget

variable {w : Walk} {g g' : Graph α} {slot : Nat}

theorem Walk.budget_skip (hstack : w.stack = (n, c) :: rest) (hlt : c < (g.arena.operands n).length) :
    ({ w with stack := (n, c + 1) :: rest } : Walk).budget g slot < w.budget g slot := by
  simp only [budget, hstack, List.any_cons, List.map_cons, List.sum_cons, List.length_cons]
  omega

theorem Walk.budget_push (hstack : w.stack = (n, c) :: rest) (hlt : c < (g.arena.operands n).length)
    {d : NodeId} (hd : g.marked slot w.visitTag d = false) (hnot : ∀ k, (d, k) ∉ w.stack) :
    ({ w with stack := (d, 0) :: (n, c + 1) :: rest } : Walk).budget g slot < w.budget g slot := by
  have hopen : g.arena.openEdges
        (fun m => g.marked slot w.visitTag m || ((d, 0) :: (n, c + 1) :: rest).any (·.1 == m)) +
      (g.arena.operands d).length =
      g.arena.openEdges fun m => g.marked slot w.visitTag m || w.stack.any (·.1 == m) := by
    refine g.arena.openEdges_close ?_ ?_ fun m hm => ?_
    · rw [hd, Bool.false_or, List.any_eq_false]
      intro entry hentry heq
      have heq : entry.1 = d := by simpa using heq
      exact hnot entry.2 (heq ▸ hentry)
    · simp
    · rw [hstack, List.any_cons, beq_false_of_ne (Ne.symm hm), Bool.false_or]
      rfl
  simp only [List.any_cons, hstack] at hopen
  simp only [budget, hstack, List.any_cons, List.map_cons, List.sum_cons, List.length_cons]
  omega

theorem Walk.budget_pop (hstack : w.stack = (n, c) :: rest)
    (hagree : Arena.AgreeOn (·.children) g.arena g'.arena)
    (hmarked : ∀ m, g'.marked slot w.visitTag m = (decide (m = n) || g.marked slot w.visitTag m)) :
    ({ w with stack := rest } : Walk).budget g' slot < w.budget g slot := by
  have hopen : g'.arena.openEdges (fun m => g'.marked slot w.visitTag m || rest.any (·.1 == m)) =
      g.arena.openEdges fun m => g.marked slot w.visitTag m || w.stack.any (·.1 == m) := by
    rw [Arena.openEdges, Arena.openEdges, hagree.capacity_eq]
    refine Finset.sum_congr rfl fun m _ => ?_
    have hclosed : (g'.marked slot w.visitTag m || rest.any (·.1 == m)) =
        (g.marked slot w.visitTag m || w.stack.any (·.1 == m)) := by
      rw [hmarked, hstack, List.any_cons]
      by_cases hm : m = n
      · simp [hm]
      · rw [decide_eq_false hm, beq_false_of_ne (Ne.symm hm), Bool.false_or, Bool.false_or]
    rw [hclosed, hagree.operands_eq]
  simp only [hstack] at hopen
  simp only [budget, hopen, hstack, List.map_cons, List.sum_cons, List.length_cons, hagree.operands_eq]
  omega

theorem Walk.budget_start (w : Walk) (g : Graph α) (slot : Nat) (hstack : w.stack = [(root, 0)])
    (hnone : ∀ n, g.marked slot w.visitTag n = false) :
    w.budget g slot = 2 * g.arena.edgeCount + 1 := by
  have hopen : g.arena.openEdges (fun m => g.marked slot w.visitTag m || w.stack.any (·.1 == m)) +
      (g.arena.operands root).length = g.arena.openEdges fun _ => false := by
    refine g.arena.openEdges_close rfl ?_ fun m hm => ?_
    · simp [hstack]
    · rw [hnone, hstack, List.any_cons, beq_false_of_ne (Ne.symm hm)]
      rfl
  have hall : (g.arena.openEdges fun _ => false) = g.arena.edgeCount := by
    rw [Arena.openEdges, Arena.edgeCount_eq]
    simp
  rw [hall] at hopen
  simp only [hstack] at hopen
  simp only [budget, hstack, List.map_cons, List.map_nil, List.sum_cons, List.sum_nil,
    List.length_cons, List.length_nil]
  omega

end Budget

/-! ### Steps -/

/-- What holds between two steps of a walk below a root that holds a slot and does not revisit nodes. -/
structure Walking (root : NodeId) (slot : Nat) (g : Graph α) (w : Walk) : Prop where
  mode_eq : w.mode = .reverseTopological
  slot_eq : w.slot = some slot
  tag_ne : w.visitTag ≠ 0
  tag_le : w.visitTag ≤ g.walks.visitTags.last
  tagsGiven : g.TagsGiven
  stacked : Stacked g.arena.operands (fun n => g.marked slot w.visitTag n = true) root w.stack
  /-- only what lies below the root is visited, and operands first -/
  marked : ∀ n, g.marked slot w.visitTag n = true →
    g.arena.Below n root ∧ ∀ c, g.arena.IsOperand c n → g.marked slot w.visitTag c = true
  budget_le : Acc g.arena.IsOperand root → w.budget g slot ≤ 2 * g.arena.edgeCount + 1

/-- What a step of a walk leads to. -/
structure Arrived (root : NodeId) (slot : Nat) (g : Graph α) (w : Walk) (g' : Graph α) (w' : Walk) :
    Prop where
  walking : Walking root slot g' w'
  walked : Graph.Walked g g'
  walks_eq : g'.walks = g.walks
  rest_eq : w' = { w with stack := w'.stack, current := w'.current }
  /-- at the end the root was visited -/
  atEnd : w'.current = none → g' = g ∧ g.marked slot w.visitTag root = true
  /-- the walk arrives at a node for the first time, after its operands -/
  atNode : ∀ n, w'.current = some n → g.arena.Below n root ∧ g.marked slot w.visitTag n = false ∧
    (∀ m, g'.marked slot w.visitTag m = (decide (m = n) || g.marked slot w.visitTag m)) ∧
    (∀ c, g.arena.IsOperand c n → g.marked slot w.visitTag c = true) ∧
    Pending g.arena.operands (fun m => g.marked slot w.visitTag m = true) root n w'.stack
  /-- a step to a node uses up some of the budget -/
  budget_lt : w'.current ≠ none → Acc g.arena.IsOperand root → w'.budget g' slot < w.budget g slot

/-- A walk that got on with its stack before it arrived has arrived. -/
theorem Arrived.of_stack {slot : Nat} {g g' : Graph α} {w w' : Walk} {stack : List (NodeId × Nat)}
    (h : Arrived root slot g { w with stack } g' w')
    (hle : Acc g.arena.IsOperand root → ({ w with stack } : Walk).budget g slot ≤ w.budget g slot) :
    Arrived root slot g w g' w' where
  walking := h.walking
  walked := h.walked
  walks_eq := h.walks_eq
  rest_eq := h.rest_eq
  atEnd := h.atEnd
  atNode := h.atNode
  budget_lt hne hacc := Nat.lt_of_lt_of_le (h.budget_lt hne hacc) (hle hacc)

namespace Walking

variable {slot : Nat} {g : Graph α} {w : Walk} {E : Fault α → Prop}

/-- Another stack, after the same nodes were visited. -/
theorem of_stack (h : Walking root slot g w) {stack : List (NodeId × Nat)}
    (hstacked : Stacked g.arena.operands (fun n => g.marked slot w.visitTag n = true) root stack)
    (hbudget : Acc g.arena.IsOperand root →
      ({ w with stack } : Walk).budget g slot < w.budget g slot) :
    Walking root slot g { w with stack } where
  mode_eq := h.mode_eq
  slot_eq := h.slot_eq
  tag_ne := h.tag_ne
  tag_le := h.tag_le
  tagsGiven := h.tagsGiven
  stacked := hstacked
  marked := h.marked
  budget_le hacc := Nat.le_trans (Nat.le_of_lt (hbudget hacc)) (h.budget_le hacc)

/-- A node that is about to be visited is at or below the root. -/
theorem below_of_stack (h : Walking root slot g w) (hstack : w.stack = (n, c) :: rest) :
    g.arena.Below n root := by
  have hs := h.stacked
  rw [hstack] at hs
  exact hs.1.below_root

/-- Taking off a node whose operands were all visited, and marking it, arrives at that node. -/
theorem arrived (h : Walking root slot g w) (hstack : w.stack = (n, c) :: rest)
    (hend : (g.arena.operands n)[c]? = none) (hn : g.marked slot w.visitTag n = false) {g' : Graph α}
    (hmarked : Walk.Marked g g' slot w.visitTag n) :
    Arrived root slot g w g' { w with stack := rest, current := some n } := by
  have hs := h.stacked
  rw [hstack] at hs
  have hagree := hmarked.walked.children
  have hop : ∀ d, g.arena.IsOperand d n → g.marked slot w.visitTag d = true :=
    fun d => hs.done_operand hend
  have hself : g'.marked slot w.visitTag n = true := by simp [hmarked.marked_eq]
  have hkeep : ∀ m, g.marked slot w.visitTag m = true → g'.marked slot w.visitTag m = true :=
    fun m hm => by simp [hmarked.marked_eq, hm]
  have hbelow := h.below_of_stack hstack
  have hbudget := Walk.budget_pop hstack hagree hmarked.marked_eq
  refine ⟨⟨h.mode_eq, h.slot_eq, h.tag_ne, hmarked.walks_eq ▸ h.tag_le,
    hmarked.tagsGiven h.tagsGiven h.tag_le, ?_, fun m hm => ?_, fun hacc => ?_⟩, hmarked.walked,
    hmarked.walks_eq, rfl, fun hnone => absurd hnone (Option.some_ne_none n), fun m hm => ?_,
    fun _ _ => hbudget⟩
  · rw [hagree.operands_eq]
    exact hs.pop hkeep hself
  · rw [hagree.below_eq, hagree.isOperand_eq]
    rw [hmarked.marked_eq, Bool.or_eq_true, decide_eq_true_iff] at hm
    rcases hm with rfl | hm
    · exact ⟨hbelow, fun d hd => hkeep d (hop d hd)⟩
    · obtain ⟨hm, hd⟩ := h.marked m hm
      exact ⟨hm, fun d hdm => hkeep d (hd d hdm)⟩
  · rw [hagree.isOperand_eq] at hacc
    rw [hagree.edgeCount_eq]
    exact Nat.le_trans (Nat.le_of_lt hbudget) (h.budget_le hacc)
  · cases hm
    exact ⟨hbelow, hn, hmarked.marked_eq, hop, hs.1⟩

/-- One turn of a step: it gets on with the stack, or arrives. -/
theorem meets_reverseTurn (h : Walking root slot g w)
    (hin : (∀ n, g.arena.Below n root → n < g.arena.capacity) ∨ ∀ e, E e) :
    Meets (Walk.reverseTurn (w, g)) () E (Turn.Allowed
      (fun r _ => r.2 = g ∧ Walking root slot g r.1 ∧ r.1 = { w with stack := r.1.stack } ∧
        (Acc g.arena.IsOperand root → r.1.budget g slot < w.budget g slot))
      fun r _ => Arrived root slot g w r.2 r.1) := by
  have hs := h.stacked
  rw [Walk.reverseTurn]
  rcases hstack : w.stack with _ | ⟨⟨n, c⟩, rest⟩
  · rw [hstack] at hs
    have hbudget := h.budget_le
    rw [Walk.budget, hstack] at hbudget
    refine meets_pure.mpr ⟨⟨h.mode_eq, h.slot_eq, h.tag_ne, h.tag_le, h.tagsGiven, hs, h.marked,
      hbudget⟩, .refl g, rfl, rfl, fun _ => ⟨rfl, hs⟩, fun n hn => ?_, fun hne => ?_⟩
    · cases hn
    · exact absurd rfl hne
  rw [hstack] at hs
  -- the turn is to look at an operand of the top of the stack, or to leave the top if no operand is left
  have hbelow := h.below_of_stack hstack
  have hrange : ∀ m, g.arena.Below m root → m < g.arena.capacity ∨ E .outOfRange :=
    fun m hm => hin.imp (fun hall => hall m hm) fun hall => hall _
  refine meets_bind.mpr (Walk.meets_children (hrange n hbelow) ?_)
  rcases hnext : (g.arena.operands n)[c]? with _ | d
  · refine meets_bind.mpr (Walk.meets_isVisited h.slot_eq h.tag_ne (hrange n hbelow) ?_)
    rcases hmark : g.marked slot w.visitTag n with _ | _
    · refine meets_bind.mpr (Walk.meets_markVisited h.slot_eq h.tag_ne (hrange n hbelow) fun g' hg' => ?_)
      exact meets_pure.mpr (h.arrived hstack hnext hmark hg')
    · have hbudget : ({ w with stack := rest } : Walk).budget g slot < w.budget g slot := by
        refine Walk.budget_pop hstack (.refl _ _) fun m => ?_
        by_cases hm : m = n
        · rw [hm, hmark, Bool.or_true]
        · rw [decide_eq_false hm, Bool.false_or]
      exact meets_pure.mpr ⟨rfl, h.of_stack (hs.pop (fun _ => id) hmark) fun _ => hbudget, rfl,
        fun _ => hbudget⟩
  · obtain ⟨hlt, -⟩ := List.getElem?_eq_some_iff.mp hnext
    have hop : g.arena.IsOperand d n := List.mem_of_getElem? hnext
    have hbelow' : g.arena.Below d root := (Arena.IsOperand.below hop).trans hbelow
    refine meets_bind.mpr (Walk.meets_isVisited h.slot_eq h.tag_ne (hrange d hbelow') ?_)
    rcases hmark : g.marked slot w.visitTag d with _ | _
    · have hbudget : Acc g.arena.IsOperand root → _ := fun hacc =>
        Walk.budget_push hstack hlt hmark fun k hk => by
          -- the nodes on the stack lie above the operand, so it is none of them
          refine Arena.not_transGen_of_acc (Arena.acc_of_below hacc hbelow') ?_
          rw [hstack, List.mem_cons] at hk
          rcases hk with hk | hk
          · cases hk
            exact .single hop
          · exact .head hop (hs.1.transGen_of_mem hk)
      exact meets_pure.mpr ⟨rfl, h.of_stack (hs.push hnext) hbudget, rfl, hbudget⟩
    · have hbudget : ({ w with stack := (n, c + 1) :: rest } : Walk).budget g slot < w.budget g slot :=
        Walk.budget_skip hstack hlt
      exact meets_pure.mpr ⟨rfl, h.of_stack (hs.skip hnext hmark) fun _ => hbudget, rfl, fun _ => hbudget⟩

/-- **A step.** It arrives at a node not visited before, whose operands were, or at the end. It is not cut
off if all ways down from the root end, and does not leave the arena if nothing below the root is outside. -/
theorem meets_next (h : Walking root slot g w)
    (hgood : (Acc g.arena.IsOperand root ∧ ∀ n, g.arena.Below n root → n < g.arena.capacity) ∨ ∀ e, E e) :
    Meets (w.next g) () E fun r _ => Arrived root slot g w r.2 r.1 := by
  have hin := hgood.imp_left And.right
  have hacc : Acc g.arena.IsOperand root ∨ E .diverged := hgood.imp And.left fun hall => hall _
  rw [Walk.next, h.mode_eq]
  refine meets_run_or_diverged
    (I := fun k r _ => r.2 = g ∧ Walking root slot g r.1 ∧ r.1 = { w with stack := r.1.stack } ∧
      r.1.budget g slot = k ∧ (Acc g.arena.IsOperand root → k ≤ w.budget g slot))
    (k := w.budget g slot) (fun k r _ hI => ?_) (fun k r _ hI => ?_)
    ⟨rfl, h, rfl, rfl, fun _ => Nat.le_refl _⟩
  · obtain ⟨hg, hwalking, -, hk, -⟩ := hI
    refine meets_pure.mpr ⟨rfl, hacc.imp_left fun hacc => ?_⟩
    have hle := hwalking.budget_le hacc
    have hpow : r.2.arena.edgeCount < 2 ^ r.2.arena.edgeCount := Nat.lt_two_pow_self
    rw [hg] at hpow
    rw [hg, Graph.walkExponent, Nat.pow_add]
    omega
  · obtain ⟨w₁, g₁⟩ := r
    obtain ⟨rfl, hwalking, hw₁, hk, hle⟩ := hI
    refine (hwalking.meets_reverseTurn hin).imp fun turn _ hturn => ?_
    cases turn with
    | next r =>
      obtain ⟨hg, hwalking', hr, hlt⟩ := hturn
      refine ⟨r.1.budget g₁ slot, hacc.imp_left fun hacc => hk ▸ hlt hacc, hg, hwalking', ?_, rfl,
        fun hacc => Nat.le_trans (Nat.le_of_lt (hlt hacc)) (hk ▸ hle hacc)⟩
      rw [hr, hw₁]
    | done r =>
      rw [Turn.Allowed, hw₁] at hturn
      rw [hw₁] at hk
      exact hturn.of_stack fun hacc => hk ▸ hle hacc

/-- When the root was visited, then so was what lies below it. -/
theorem marked_iff_below (h : Walking root slot g w) (hroot : g.marked slot w.visitTag root = true)
    (n : NodeId) : g.marked slot w.visitTag n = true ↔ g.arena.Below n root := by
  constructor
  · exact fun hn => (h.marked n hn).1
  · intro hn
    induction hn using Relation.ReflTransGen.head_induction_on with
    | refl => exact hroot
    | head hop _ ih => exact (h.marked _ ih).2 _ hop

end Walking

/-! ### Visits -/

/-- Two graphs have the same operands, and walks keep the same on both. -/
structure Graph.SameWay (g g' : Graph α) : Prop where
  agree : Arena.AgreeOn (fun node => (node.children, node.slots)) g.arena g'.arena
  walks_eq : g'.walks = g.walks

namespace Graph.SameWay

variable {g g' : Graph α}

/-- Changing an entry beside its operands and its scratch slots. -/
theorem of_modify {n : NodeId} {f : Node α → Node α}
    (hf : ∀ node, (f node).children = node.children ∧ (f node).slots = node.slots) :
    SameWay g (g.modify n f) where
  agree := .of_modify fun node => by rw [(hf node).1, (hf node).2]
  walks_eq := rfl

variable (h : Graph.SameWay g g')

include h

theorem children : Arena.AgreeOn (·.children) g.arena g'.arena := h.agree.map Prod.fst

theorem marked_eq : g'.marked = g.marked := by
  funext slot tag n
  exact (h.agree.map fun r => (r.2[slot]?.getD default).visited == tag).elim_eq n false

theorem tagsGiven (htags : g.TagsGiven) : g'.TagsGiven := by
  intro n node' slot hn
  obtain ⟨node, hnode, heq⟩ := h.agree.symm.exists_node? hn
  have hslots : node.slots = node'.slots := congrArg Prod.snd heq
  rw [Node.slot, ← hslots, h.walks_eq]
  exact htags n node slot hnode

theorem budget_eq (w : Walk) (slot : Nat) : w.budget g' slot = w.budget g slot := by
  rw [Walk.budget, Walk.budget, Arena.openEdges, Arena.openEdges, h.children.operands_eq, h.marked_eq,
    h.children.capacity_eq]

theorem walking {root : NodeId} {slot : Nat} {w : Walk} (hw : Walking root slot g w) :
    Walking root slot g' w where
  mode_eq := hw.mode_eq
  slot_eq := hw.slot_eq
  tag_ne := hw.tag_ne
  tag_le := h.walks_eq ▸ hw.tag_le
  tagsGiven := h.tagsGiven hw.tagsGiven
  stacked := by
    rw [h.children.operands_eq, h.marked_eq]
    exact hw.stacked
  marked := by
    rw [h.marked_eq, h.children.below_eq, h.children.isOperand_eq]
    exact hw.marked
  budget_le := by
    rw [h.budget_eq, h.children.edgeCount_eq, h.children.isOperand_eq]
    exact hw.budget_le

end Graph.SameWay

end IntervalDag
