import IntervalDag.Proofs.Walk.Paces

/-!
# Depth-first walks

A depth-first walk keeps the way back and its position among the children in the scratch slots of nodes, where walks
before it have left their own. Over a graph without cycles this amounts to a recursion: a node that is entered is not
on the way back, so that nothing below it writes to the slots of the nodes on the way.

* `Walk.At.returns_search`: from entering a node, the walk takes the paces that `Plan.search` asks for and comes back
  to where it was entered from.
* `Commons.depthFirst_eq_search`: whatever was done with a graph before, a walk over it shows its caller what the
  recursion reports at the stages selected.
-/

namespace IntervalDag

variable {α : Type}

/-- The position of the first of some children that is not passed by, counted from a cursor. -/
def Plan.pick (p : Plan) (left : List NodeId) : List NodeId → Nat → Nat
  | [], cursor => cursor
  | c :: cs, cursor => if p.passesBy left c then p.pick left cs (cursor + 1) else cursor

@[simp] theorem Plan.pick_nil (p : Plan) (left : List NodeId) (cursor : Nat) : p.pick left [] cursor = cursor := rfl

@[simp] theorem Plan.pick_cons (p : Plan) (left : List NodeId) (c : NodeId) (cs : List NodeId) (cursor : Nat) :
    p.pick left (c :: cs) cursor = if p.passesBy left c then p.pick left cs (cursor + 1) else cursor := rfl

namespace Walk

/-! ### Where a walk stands -/

/-- A depth-first walk is under way and has left some nodes. -/
structure Searching (p : Plan) (a : Arena α) (slot : Nat) (w : Walk) (g : Graph α) (left : List NodeId) : Prop where
  mode_eq : w.mode = .depthFirst
  slot_eq : w.slot = some slot
  revisits_eq : w.allowsRevisits = p.revisits
  children : Arena.AgreeOn (·.children) a g.arena
  left_iff : w.visitTag ≠ 0 → ∀ n, (g.arena.scratch slot n).visited = w.visitTag ↔ n ∈ left

/-- A depth-first walk is at a stage of a node. -/
structure At (p : Plan) (a : Arena α) (slot : Nat) (w : Walk) (g : Graph α) (left : List NodeId) (n : NodeId)
    (stage : Stage) (cursor : Nat) (parent : Option NodeId) : Prop extends Searching p a slot w g left where
  current_eq : w.current = some n
  stage_eq : w.stage = stage
  cursor_eq : (g.arena.scratch slot n).cursor = cursor
  parent_eq : (g.arena.scratch slot n).parent = parent

variable {p : Plan} {a : Arena α} {slot : Nat} {w w' : Walk} {g g' : Graph α} {s : Progress}

namespace Searching

variable {left : List NodeId}

theorem capacity_eq (h : Searching p a slot w g left) : g.arena.capacity = a.capacity := h.children.capacity_eq

theorem children_eq (h : Searching p a slot w g left) {n : NodeId} (hn : n < a.capacity) :
    g.arena.children n = .ok (a.operands n) := by
  rw [Arena.children_eq_ok (h.capacity_eq ▸ hn), h.children.operands_eq]

/-- The walk stands elsewhere. -/
theorem stand (h : Searching p a slot w g left) (current : Option NodeId) (stage : Stage) :
    Searching p a slot { w with current, stage } g left :=
  ⟨h.mode_eq, h.slot_eq, h.revisits_eq, h.children, h.left_iff⟩

/-- The walk writes something else than its tag. -/
theorem modify (h : Searching p a slot w g left) {n : NodeId} (hn : n < a.capacity) {f : Slot → Slot}
    (hf : ∀ x, (f x).visited = x.visited) : Searching p a slot w (g.modify n (·.modifySlot slot f)) left := by
  refine ⟨h.mode_eq, h.slot_eq, h.revisits_eq, h.children.trans (.of_modify fun _ => rfl), fun htag m => ?_⟩
  rw [Graph.modify, Arena.scratch_modify_slot (h.capacity_eq ▸ hn), ← h.left_iff htag m]
  split
  · rename_i hm
    rw [hf, hm.1]
  · rfl

theorem slotIndex_eq (h : Searching p a slot w g left) : w.slotIndex = (.ok slot : Checked α Nat) := by
  rw [slotIndex, h.slot_eq]

theorem slot_read_eq (h : Searching p a slot w g left) {n : NodeId} (hn : n < a.capacity) :
    g.arena.slot n slot = .ok (g.arena.scratch slot n) :=
  Arena.slot_eq (h.capacity_eq ▸ hn)

theorem modifySlot_eq (h : Searching p a slot w g left) {n : NodeId} (hn : n < a.capacity) (f : Slot → Slot) :
    w.modifySlot g n f = .ok (g.modify n (·.modifySlot slot f)) :=
  Walk.modifySlot_eq h.slot_eq (h.capacity_eq ▸ hn) f

theorem scratch_modify (h : Searching p a slot w g left) {n : NodeId} (hn : n < a.capacity) (f : Slot → Slot)
    (m : NodeId) : (g.modify n (·.modifySlot slot f)).arena.scratch slot m =
      if m = n then f (g.arena.scratch slot n) else g.arena.scratch slot m := by
  rw [Graph.modify, Arena.scratch_modify_slot (h.capacity_eq ▸ hn)]
  simp only [and_true]

theorem isVisited_eq (h : Searching p a slot w g left) {n : NodeId} (hn : n < a.capacity) :
    w.isVisited g n = .ok (p.passesBy left n) := by
  rw [isVisited, Plan.passesBy, ← h.revisits_eq]
  split
  · rename_i hrevisits
    rw [hrevisits]
    rfl
  · rename_i hrevisits
    have htag : w.visitTag ≠ 0 := by simpa [allowsRevisits] using hrevisits
    simp only [h.slotIndex_eq]
    change (g.arena.slot n slot >>= _) = _
    rw [h.slot_read_eq hn]
    change Except.ok ((g.arena.scratch slot n).visited == w.visitTag) = _
    rw [Bool.eq_false_of_not_eq_true hrevisits, Bool.not_false, Bool.true_and]
    congr 1
    rw [Bool.eq_iff_iff, beq_iff_eq, List.contains_iff_mem, h.left_iff htag]

theorem skipVisited_eq (h : Searching p a slot w g left) (cs : List NodeId) (hcs : ∀ c ∈ cs, c < a.capacity)
    (cursor : Nat) : w.skipVisited g cs cursor = .ok (p.pick left cs cursor) := by
  induction cs generalizing cursor with
  | nil => rfl
  | cons c cs ih =>
    rw [skipVisited, h.isVisited_eq (hcs c List.mem_cons_self), Plan.pick_cons]
    change (if p.passesBy left c = true then _ else _) = _
    split
    · exact ih (fun c hc => hcs c (List.mem_cons_of_mem _ hc)) (cursor + 1)
    · rfl

end Searching

/-! ### From one stage to the next -/

namespace At

variable {left left' : List NodeId} {n : NodeId} {i : Nat} {stage : Stage} {parent : Option NodeId}

theorem report_eq (h : At p a slot w g left n stage i parent) (hn : n < a.capacity) :
    w.report g = .ok ⟨n, stage, if stage.isAtChild then some i else none, parent⟩ := by
  have hslot : w.currentSlot g = .ok (g.arena.scratch slot n) := by
    rw [currentSlot, currentNode, h.current_eq, h.slotIndex_eq]
    exact h.slot_read_eq hn
  rw [Walk.report_eq h.mode_eq h.current_eq, hslot, h.stage_eq]
  change Except.ok _ = _
  rw [h.cursor_eq, h.parent_eq]

/-- What is reported at a node depends on where the walk is, and not on the other slots. -/
theorem of_searching (h : At p a slot w g left n stage i parent)
    (h' : Searching p a slot w' g' left') (hcurrent : w'.current = some n)
    (hsame : g'.arena.scratch slot n = g.arena.scratch slot n) : At p a slot w' g' left' n w'.stage i parent :=
  ⟨h', hcurrent, rfl, by rw [hsame, h.cursor_eq], by rw [hsame, h.parent_eq]⟩

variable (hinside : a.OperandsInside) (hn : n < a.capacity)

include hinside hn

/-- The walk goes to the next child that is not passed by, or to leaving the node. -/
theorem selectChild (h : At p a slot w g left n stage i parent) {j : Nat}
    (hj : p.pick left ((a.operands n).drop i) i = j) :
    ∃ w' g', w.selectChild g n = .ok (w', g') ∧
      At p a slot w' g' left n (if j < (a.operands n).length then .visitingChild else .leave) j parent ∧
      ∀ m, m ≠ n → g'.arena.scratch slot m = g.arena.scratch slot m := by
  have hcs : ∀ c ∈ (a.operands n).drop i, c < a.capacity := fun c hc => hinside c n (List.mem_of_mem_drop hc)
  have hsearching := h.toSearching.modify (f := fun x => { x with cursor := j }) hn fun _ => rfl
  have hscratch := h.scratch_modify hn fun x => { x with cursor := j }
  refine ⟨{ w with stage := if j < (a.operands n).length then .visitingChild else .leave },
    g.modify n (·.modifySlot slot fun x => { x with cursor := j }), ?_, ?_, fun m hm => ?_⟩
  · rw [Walk.selectChild, h.slotIndex_eq, h.children_eq hn]
    change (g.arena.slot n slot >>= _) = _
    rw [h.slot_read_eq hn]
    change (w.skipVisited g ((a.operands n).drop (g.arena.scratch slot n).cursor) _ >>= _) = _
    rw [h.cursor_eq, h.skipVisited_eq _ hcs, hj]
    change (w.modifySlot g n _ >>= _) = _
    rw [h.modifySlot_eq hn]
    rfl
  · refine ⟨hsearching.stand w.current _, h.current_eq, rfl, ?_, ?_⟩
    · rw [hscratch, if_pos rfl]
    · rw [hscratch, if_pos rfl]
      exact h.parent_eq
  · rw [hscratch, if_neg hm]

/-- From entering a node the walk goes to its first child. -/
theorem step_enter (h : At p a slot w g left n .enter 0 parent) {j : Nat} (hj : p.pick left (a.operands n) 0 = j) :
    ∃ w' g', w.depthFirstStep g n = .ok (w', g') ∧
      At p a slot w' g' left n (if j < (a.operands n).length then .visitingChild else .leave) j parent ∧
      ∀ m, m ≠ n → g'.arena.scratch slot m = g.arena.scratch slot m := by
  rw [depthFirstStep, h.stage_eq]
  exact h.selectChild hinside hn hj

/-- From a child that was visited the walk goes to the next one. -/
theorem step_visitedChild (h : At p a slot w g left n .visitedChild i parent) {j : Nat}
    (hj : p.pick left ((a.operands n).drop (i + 1)) (i + 1) = j) :
    ∃ w' g', w.depthFirstStep g n = .ok (w', g') ∧
      At p a slot w' g' left n (if j < (a.operands n).length then .visitingChild else .leave) j parent ∧
      ∀ m, m ≠ n → g'.arena.scratch slot m = g.arena.scratch slot m := by
  have hscratch := h.scratch_modify hn fun x => { x with cursor := x.cursor + 1 }
  have hnext : At p a slot w (g.modify n (·.modifySlot slot fun x => { x with cursor := x.cursor + 1 })) left n
      .visitedChild (i + 1) parent := by
    refine ⟨h.modify hn fun _ => rfl, h.current_eq, h.stage_eq, ?_, ?_⟩
    · rw [hscratch, if_pos rfl, h.cursor_eq]
    · rw [hscratch, if_pos rfl, h.parent_eq]
  obtain ⟨w', g', hselect, hat, hsame⟩ := hnext.selectChild hinside hn hj
  refine ⟨w', g', ?_, hat, fun m hm => ?_⟩
  · rw [depthFirstStep, h.stage_eq]
    change (w.modifySlot g n _ >>= _) = _
    rw [h.modifySlot_eq hn]
    exact hselect
  · rw [hsame m hm, hscratch, if_neg hm]

/-- From a child that is about to be visited the walk goes there. -/
theorem step_visitingChild (h : At p a slot w g left n .visitingChild i parent) {c : NodeId}
    (hc : (a.operands n)[i]? = some c) :
    ∃ w' g', w.depthFirstStep g n = .ok (w', g') ∧ At p a slot w' g' left c .enter 0 (some n) ∧
      ∀ m, m ≠ c → g'.arena.scratch slot m = g.arena.scratch slot m := by
  have hlt : c < a.capacity := hinside c n (List.mem_of_getElem? hc)
  have hsearching := h.toSearching.modify (f := fun x => { x with cursor := 0, parent := some n }) hlt fun _ => rfl
  have hscratch := h.scratch_modify hlt fun x => { x with cursor := 0, parent := some n }
  refine ⟨{ w with current := some c, stage := .enter },
    g.modify c (·.modifySlot slot fun x => { x with cursor := 0, parent := some n }), ?_, ?_, fun m hm => ?_⟩
  · rw [depthFirstStep, h.stage_eq, h.slotIndex_eq]
    change (g.arena.slot n slot >>= _) = _
    rw [h.slot_read_eq hn, h.children_eq hn]
    change (Checked.get (a.operands n) (g.arena.scratch slot n).cursor >>= _) = _
    rw [h.cursor_eq, Checked.get, hc]
    change w.arrive g (some n) c = _
    rw [arrive, h.modifySlot_eq hlt]
    rfl
  · refine ⟨hsearching.stand (some c) .enter, rfl, rfl, ?_, ?_⟩
    · rw [hscratch, if_pos rfl]
    · rw [hscratch, if_pos rfl]
  · rw [hscratch, if_neg hm]

omit hinside in
/-- The walk marks a node that it leaves and goes back to where it came from. -/
theorem step_leave (h : At p a slot w g left n .leave i parent) :
    ∃ w' g', w.depthFirstStep g n = .ok (w', g') ∧ Searching p a slot w' g' (n :: left) ∧
      w'.current = parent ∧ w'.stage = .visitedChild ∧
      ∀ m, m ≠ n → g'.arena.scratch slot m = g.arena.scratch slot m := by
  let f : Slot → Slot := fun x => { x with visited := if w.allowsRevisits then x.visited else w.visitTag }
  have hscratch := h.scratch_modify hn f
  have hchildren : Arena.AgreeOn (·.children) a (g.modify n (·.modifySlot slot f)).arena :=
    h.children.trans (.of_modify fun _ => rfl)
  refine ⟨{ w with current := parent, stage := .visitedChild }, g.modify n (·.modifySlot slot f), ?_, ?_, rfl, rfl,
    fun m hm => ?_⟩
  · rw [depthFirstStep, h.stage_eq]
    change (w.modifySlot g n f >>= _) = _
    rw [h.modifySlot_eq hn, h.slotIndex_eq]
    change ((g.modify n (·.modifySlot slot f)).arena.slot n slot >>= _) = _
    rw [Arena.slot_eq (hchildren.capacity_eq ▸ hn), hscratch, if_pos rfl]
    change Except.ok ({ w with current := (g.arena.scratch slot n).parent, stage := .visitedChild }, _) = _
    rw [h.parent_eq]
  · refine ⟨h.mode_eq, h.slot_eq, h.revisits_eq, hchildren, fun htag m => ?_⟩
    have hrevisits : w.allowsRevisits = false := by simpa [allowsRevisits] using htag
    rw [hscratch, List.mem_cons]
    by_cases hm : m = n
    · simp [hm, f, hrevisits]
    · rw [if_neg hm, h.left_iff htag m]
      simp [hm]
  · rw [hscratch, if_neg hm]

end At

/-! ### From entering a node to having left it -/

/-- Paces below a node. What lies elsewhere keeps its slots. -/
structure Reaches (p : Plan) (a : Arena α) (slot : Nat) (n : NodeId) (k : Nat) (w : Walk) (g : Graph α) (s : Progress)
    (w' : Walk) (g' : Graph α) (s' : Progress) : Prop where
  paces : p.Paces k w g s.trace w' g' s'.trace
  scratch_eq : ∀ m, ¬ a.Below m n → g'.arena.scratch slot m = g.arena.scratch slot m

/-- From where it is, the walk gets to leaving the node with a number of paces. -/
def Finishes (p : Plan) (a : Arena α) (slot : Nat) (n : NodeId) (parent : Option NodeId) (k : Nat) (w : Walk)
    (g : Graph α) (s s' : Progress) : Prop :=
  ∃ w' g' i, Reaches p a slot n k w g s w' g' s' ∧ At p a slot w' g' s'.left n .leave i parent

/-- From where it is, the walk gets back to where it entered the node from. -/
def Returns (p : Plan) (a : Arena α) (slot : Nat) (n : NodeId) (parent : Option NodeId) (k : Nat) (w : Walk)
    (g : Graph α) (s s' : Progress) : Prop :=
  ∃ w' g', Reaches p a slot n k w g s w' g' s' ∧ Searching p a slot w' g' s'.left ∧ w'.current = parent ∧
    w'.stage = .visitedChild

variable {n : NodeId} {i j k : Nat} {parent : Option NodeId} {s' s₁ : Progress} {w₁ : Walk} {g₁ : Graph α}
  {left : List NodeId} {stage : Stage}

theorem Reaches.trans (h : Reaches p a slot n j w g s w₁ g₁ s₁) (h' : Reaches p a slot n k w₁ g₁ s₁ w' g' s') :
    Reaches p a slot n (j + k) w g s w' g' s' :=
  ⟨h.paces.trans h'.paces, fun m hm => (h'.scratch_eq m hm).trans (h.scratch_eq m hm)⟩

/-- Paces below an operand are paces below the node. -/
theorem Reaches.of_operand {c : NodeId} (h : Reaches p a slot c k w g s w' g' s') (hc : a.IsOperand c n) :
    Reaches p a slot n k w g s w' g' s' :=
  ⟨h.paces, fun m hm => h.scratch_eq m fun hmc => hm (hmc.trans hc.below)⟩

/-- A pace from a stage of the node. -/
theorem At.reaches (h : At p a slot w g s.left n stage i parent) (hn : n < a.capacity) {r : Report}
    (hr : r = ⟨n, stage, if stage.isAtChild then some i else none, parent⟩)
    (hpace : p.pace w g n (s.report r).trace = .ok (w₁, g₁))
    (hsame : ∀ m, ¬ a.Below m n → g₁.arena.scratch slot m = g.arena.scratch slot m) :
    Reaches p a slot n 1 w g s w₁ g₁ (s.report r) :=
  ⟨.go h.current_eq (by rw [h.report_eq hn, hr]) hpace (.stay w₁ g₁ _), hsame⟩

/-- A pace that does not skip. -/
theorem At.reaches_of_step (h : At p a slot w g s.left n stage i parent) (hn : n < a.capacity) {r : Report}
    (hr : r = ⟨n, stage, if stage.isAtChild then some i else none, parent⟩)
    (hskips : ¬ p.skipsAt (s.report r).trace stage = true) (hstep : w.depthFirstStep g n = .ok (w₁, g₁))
    (hsame : ∀ m, ¬ a.Below m n → g₁.arena.scratch slot m = g.arena.scratch slot m) :
    Reaches p a slot n 1 w g s w₁ g₁ (s.report r) := by
  refine h.reaches hn hr ?_ hsame
  rw [Plan.pace, h.stage_eq, if_neg hskips, hstep]

/-- A pace that drops what is left of the node. -/
theorem At.finishes_of_skip (h : At p a slot w g s.left n stage i parent) (hn : n < a.capacity) {r : Report}
    (hr : r = ⟨n, stage, if stage.isAtChild then some i else none, parent⟩)
    (hstage : stage = .enter ∨ stage = .visitedChild)
    (hskips : p.skipsAt (s.report r).trace stage = true) : Finishes p a slot n parent 1 w g s (s.report r) := by
  refine ⟨{ w with stage := .leave }, g, i, h.reaches hn hr ?_ fun _ _ => rfl,
    h.toSearching.stand w.current .leave, h.current_eq, rfl, h.cursor_eq, h.parent_eq⟩
  rw [Plan.pace, h.stage_eq, if_pos hskips]
  rcases hstage with rfl | rfl
  · rfl
  · rfl

theorem Finishes.of_reaches (h : Reaches p a slot n j w g s w₁ g₁ s₁)
    (h' : Finishes p a slot n parent k w₁ g₁ s₁ s') : Finishes p a slot n parent (j + k) w g s s' := by
  obtain ⟨w', g', i, hreaches, hat⟩ := h'
  exact ⟨w', g', i, h.trans hreaches, hat⟩

/-- Slots of other nodes are slots of nodes that do not lie below. -/
theorem same_of_ne (hsame : ∀ m, m ≠ n → g'.arena.scratch slot m = g.arena.scratch slot m) (m : NodeId)
    (hm : ¬ a.Below m n) : g'.arena.scratch slot m = g.arena.scratch slot m :=
  hsame m fun heq => hm (heq ▸ .refl a n)

/-- A visit to a child. The node is not below its child, so that its own slot is as it was when the walk gets back. -/
theorem At.visits_child (hacyclic : a.Acyclic) (hinside : a.OperandsInside) (hn : n < a.capacity) {c : NodeId}
    (hc : (a.operands n)[i]? = some c) {visit : Progress → Progress}
    (hvisit : ∀ {w : Walk} {g : Graph α} {s : Progress}, At p a slot w g s.left c .enter 0 (some n) →
      ∃ k, k + 2 ≤ 4 * a.weight c ∧ Returns p a slot c (some n) k w g s (visit s))
    (h : At p a slot w g s.left n .visitingChild i parent)
    (hskips : ¬ p.skipsAt (s.report ⟨n, .visitingChild, some i, parent⟩).trace .visitingChild = true) :
    ∃ k w' g', k + 1 ≤ 4 * a.weight c ∧
      Reaches p a slot n k w g s w' g' (visit (s.report ⟨n, .visitingChild, some i, parent⟩)) ∧
      At p a slot w' g' (visit (s.report ⟨n, .visitingChild, some i, parent⟩)).left n .visitedChild i parent := by
  have hop : a.IsOperand c n := List.mem_of_getElem? hc
  obtain ⟨w₁, g₁, hstep, hchild, hsame⟩ := h.step_visitingChild hinside hn hc
  obtain ⟨k, hk, w', g', hreaches, hsearching, hcurrent, hstage⟩ :=
    hvisit (s := s.report ⟨n, .visitingChild, some i, parent⟩) hchild
  have hto : Reaches p a slot n 1 w g s w₁ g₁ (s.report ⟨n, .visitingChild, some i, parent⟩) := by
    refine h.reaches_of_step hn rfl hskips hstep fun m hm => hsame m ?_
    rintro rfl
    exact hm hop.below
  have hself : g'.arena.scratch slot n = g.arena.scratch slot n := by
    rw [hreaches.scratch_eq n (hacyclic.not_below hop), hsame n]
    rintro rfl
    exact hacyclic.not_below hop (.refl a n)
  have hback := h.of_searching hsearching hcurrent hself
  rw [hstage] at hback
  exact ⟨1 + k, w', g', by omega, hto.trans (hreaches.of_operand hop), hback⟩

/-- **Siblings.** If the walk gets back from each child, then it gets to leaving the node, and has gone through the
children that the plan asks for. -/
theorem finishes_siblings (hacyclic : a.Acyclic) (hinside : a.OperandsInside) (hn : n < a.capacity)
    {visit : (c : NodeId) → a.IsOperand c n → Progress → Progress}
    (hvisit : ∀ c hc {w : Walk} {g : Graph α} {s : Progress}, At p a slot w g s.left c .enter 0 (some n) →
      ∃ k, k + 2 ≤ 4 * a.weight c ∧ Returns p a slot c (some n) k w g s (visit c hc s))
    (cs : List NodeId) (hcs : ∀ c ∈ cs, a.IsOperand c n) (hdrop : (a.operands n).drop i = cs)
    (h : At p a slot w g s.left n (if p.pick s.left cs i < (a.operands n).length then .visitingChild else .leave)
      (p.pick s.left cs i) parent) :
    ∃ k, k ≤ 4 * (cs.map a.weight).sum ∧
      Finishes p a slot n parent k w g s (p.siblings parent n visit cs hcs i s) := by
  -- on the children that are left; the walk stands where it has picked one of them, or none
  induction cs generalizing i s w g with
  | nil =>
    have hlen : ¬ i < (a.operands n).length := Nat.not_lt.mpr (List.drop_eq_nil_iff.mp hdrop)
    rw [Plan.pick_nil, if_neg hlen] at h
    exact ⟨0, Nat.zero_le _, w, g, i, ⟨.stay w g s.trace, fun _ _ => rfl⟩, h⟩
  | cons c cs ih =>
    have hcs' : ∀ c ∈ cs, a.IsOperand c n := fun c hc => hcs c (List.mem_cons_of_mem _ hc)
    have hc : (a.operands n)[i]? = some c := by
      rw [← List.head?_drop, hdrop]
      rfl
    have hdrop' : (a.operands n).drop (i + 1) = cs := by
      rw [← List.tail_drop, hdrop]
      rfl
    have hpositive : 1 ≤ a.weight c := Nat.one_le_two_pow
    rw [Plan.siblings]
    simp only [List.map_cons, List.sum_cons]
    rw [Plan.pick_cons] at h
    cases hpasses : p.passesBy s.left c with
    | true =>
      simp only [hpasses, if_true] at h
      obtain ⟨k, hk, hfinishes⟩ := ih hcs' hdrop' h
      exact ⟨k, by omega, hfinishes⟩
    | false =>
      simp only [hpasses, Bool.false_eq_true, if_false, if_pos (List.getElem?_eq_some_iff.mp hc).1] at h ⊢
      -- the rest, once the walk has been to the child or has skipped it
      have hrest : ∀ {w : Walk} {g : Graph α} {s : Progress}, At p a slot w g s.left n .visitedChild i parent →
          ∃ w₁ g₁, w.depthFirstStep g n = .ok (w₁, g₁) ∧
            (∀ m, ¬ a.Below m n → g₁.arena.scratch slot m = g.arena.scratch slot m) ∧
            ∃ k, k ≤ 4 * (cs.map a.weight).sum ∧
              Finishes p a slot n parent k w₁ g₁ s (p.siblings parent n visit cs hcs' (i + 1) s) := by
        intro w g s h
        obtain ⟨w₁, g₁, hstep, hat, hsame⟩ := h.step_visitedChild hinside hn (by rw [hdrop'])
        exact ⟨w₁, g₁, hstep, same_of_ne hsame, ih hcs' hdrop' hat⟩
      by_cases hskips : p.skipsAt (s.report ⟨n, .visitingChild, some i, parent⟩).trace .visitingChild = true
      · rw [if_pos hskips]
        have hat : At p a slot { w with stage := .visitedChild } g s.left n .visitedChild i parent :=
          ⟨h.toSearching.stand w.current .visitedChild, h.current_eq, rfl, h.cursor_eq, h.parent_eq⟩
        obtain ⟨w₁, g₁, hstep, hsame, k, hk, hfinishes⟩ :=
          hrest (s := s.report ⟨n, .visitingChild, some i, parent⟩) hat
        refine ⟨1 + k, by omega, hfinishes.of_reaches
          (h.reaches (r := ⟨n, .visitingChild, some i, parent⟩) hn rfl ?_ hsame)⟩
        rw [Plan.pace, h.stage_eq, if_pos hskips]
        exact hstep
      rw [if_neg hskips]
      have hop : a.IsOperand c n := hcs c List.mem_cons_self
      obtain ⟨k, w₂, g₂, hk, hto, hback⟩ := h.visits_child hacyclic hinside hn hc (hvisit c hop) hskips
      by_cases hskips₂ : p.skipsAt ((visit c hop (s.report ⟨n, .visitingChild, some i, parent⟩)).report
          ⟨n, .visitedChild, some i, parent⟩).trace .visitedChild = true
      · rw [if_pos hskips₂]
        exact ⟨k + 1, by omega, (hback.finishes_of_skip hn rfl (Or.inr rfl) hskips₂).of_reaches hto⟩
      · rw [if_neg hskips₂]
        obtain ⟨w₃, g₃, hstep₃, hsame₃, k₃, hk₃, hfinishes⟩ := hrest (s := Progress.report _
          ⟨n, .visitedChild, some i, parent⟩) hback
        exact ⟨k + (1 + k₃), by omega,
          (hfinishes.of_reaches (hback.reaches_of_step hn rfl hskips₂ hstep₃ hsame₃)).of_reaches hto⟩

/-- Leaving a node, however the walk got there. -/
theorem Finishes.returns (h : Finishes p a slot n parent k w g s s') (hn : n < a.capacity) :
    Returns p a slot n parent (k + 1) w g s ((s'.report ⟨n, .leave, none, parent⟩).leave n) := by
  obtain ⟨w₁, g₁, i, hreaches, hat⟩ := h
  obtain ⟨w', g', hstep, hsearching, hcurrent, hstage, hsame⟩ := hat.step_leave hn
  have hskips : ¬ p.skipsAt (s'.report ⟨n, .leave, none, parent⟩).trace .leave = true := by simp [Plan.skipsAt]
  have hto := hreaches.trans (hat.reaches_of_step hn rfl hskips hstep (same_of_ne hsame))
  exact ⟨w', g', ⟨hto.paces, hto.scratch_eq⟩, hsearching, hcurrent, hstage⟩

/-- **Nodes.** From entering a node the walk gets back to where it came from, and has gone through the node and what is
below it as the plan asks. -/
theorem At.returns_search (hacyclic : a.Acyclic) (hinside : a.OperandsInside) (hn : n < a.capacity)
    (h : At p a slot w g s.left n .enter 0 parent) :
    ∃ k, k + 2 ≤ 4 * a.weight n ∧ Returns p a slot n parent k w g s (p.search hacyclic parent n s) := by
  induction n using hacyclic.induction generalizing w g s parent with
  | _ n ih =>
    -- a node outweighs its operands, so that its own paces are paid for as well
    have hweight := Arena.sum_weight_operands_lt (hacyclic.apply n)
    rw [Plan.search]
    by_cases hskips : p.skipsAt (s.report ⟨n, .enter, none, parent⟩).trace .enter = true
    · simp only [if_pos hskips]
      exact ⟨1 + 1, by omega, (h.finishes_of_skip hn rfl (Or.inl rfl) hskips).returns hn⟩
    simp only [if_neg hskips]
    obtain ⟨w₁, g₁, hstep, hat, hsame⟩ := h.step_enter hinside hn rfl
    obtain ⟨k, hk, hfinishes⟩ := finishes_siblings (s := s.report ⟨n, .enter, none, parent⟩) hacyclic hinside hn
      (fun c hc w g s h => ih c hc (hinside c n hc) h) (a.operands n) (fun _ hc => hc) rfl hat
    have hto := h.reaches_of_step hn rfl hskips hstep (same_of_ne hsame)
    exact ⟨1 + k + 1, by omega, (hfinishes.of_reaches hto).returns hn⟩

/-! ### Whole walks -/

theorem Tours.current_eq {skips : List Report → Bool} {shown shown' : List Report}
    (h : Tours skips w g shown w' g' shown') : w'.current = none := by
  induction h with
  | ended hnone => exact hnone
  | go _ _ _ ih => exact ih

/-- A walk that has got a slot and a tag is ready to search. Nothing bears the tag yet. -/
theorem Readied.searching (hready : Readied w g .depthFirst p.revisits w₁ g₁) (htags : g.TagsGiven) :
    ∃ slot, Searching p g.arena slot w₁ g₁ [] := by
  have hslot := hready.slot
  have htracks : tracks .depthFirst p.revisits = true := rfl
  rw [if_pos htracks] at hslot
  obtain ⟨slot, hslot, -⟩ := hslot
  have htag := hready.tag
  refine ⟨slot, hready.mode_eq, hslot, ?_, hready.arena_eq ▸ .refl _ _, fun hne n => ?_⟩
  · cases hrevisits : p.revisits with
    | true =>
      rw [hrevisits, if_pos rfl] at htag
      simp [allowsRevisits, htag.1]
    | false =>
      rw [hrevisits, if_neg Bool.false_ne_true] at htag
      simp [allowsRevisits, htag.1]
  · split at htag
    · exact absurd htag.1 hne
    · -- the tag is above all that were given out, so no slot bears it
      have hle := Graph.tagsGiven_iff.mp htags slot n
      rw [hready.arena_eq, htag.1]
      simp only [List.not_mem_nil, iff_false]
      omega

/-- The walk arrives at a root. -/
theorem Searching.exists_arrive (h : Searching p a slot w g left) {root : NodeId} (hroot : root < a.capacity) :
    ∃ w' g', w.arrive g none root = .ok (w', g') ∧ At p a slot w' g' left root .enter 0 none ∧
      w'.stops = w.stops ∧ g'.walkExponent = g.walkExponent := by
  have hsearching := h.modify (f := fun x => { x with cursor := 0, parent := none }) hroot fun _ => rfl
  have hscratch := h.scratch_modify hroot fun x => { x with cursor := 0, parent := none }
  refine ⟨{ w with current := some root, stage := .enter },
    g.modify root (·.modifySlot slot fun x => { x with cursor := 0, parent := none }), ?_, ?_, rfl, ?_⟩
  · rw [arrive, h.modifySlot_eq hroot]
    rfl
  · refine ⟨hsearching.stand (some root) .enter, rfl, rfl, ?_, ?_⟩
    · rw [hscratch, if_pos rfl]
    · rw [hscratch, if_pos rfl]
  · rw [Graph.walkExponent, Graph.walkExponent, hsearching.children.edgeCount_eq, h.children.edgeCount_eq]

/-- **Walks.** A depth-first walk that gets a slot shows its caller what the search reports at the stages selected, and
ends. -/
theorem exists_tours (htags : g.TagsGiven) (hacyclic : g.arena.Acyclic) (hinside : g.arena.OperandsInside)
    (hhome : w.home = g.identity) (hslot : w.slot ≠ none ∨ g.walks.lowestFree? ≠ none) (hstops : w.stops = p.stops)
    {root : NodeId} (hroot : root < g.arena.capacity) :
    ∃ w₁ g₁ w' g', w.start g (some root) .depthFirst p.revisits = .ok (w₁, g₁) ∧
      Tours p.skips w₁ g₁ [] w' g' (p.shown (p.search hacyclic none root .start).trace) := by
  obtain ⟨w₁, g₁, hrun, hready⟩ := exists_ready .depthFirst p.revisits hhome hslot
  obtain ⟨slot, hsearching⟩ := hready.searching htags
  obtain ⟨w₂, g₂, harrive, hat, hstops₂, hexp⟩ := hsearching.exists_arrive hroot
  obtain ⟨k, hk, w', g', hreaches, -, hcurrent, -⟩ := hat.returns_search (s := .start) hacyclic hinside hroot
  have hlt : k + 1 < 2 ^ g₂.walkExponent := by
    have hweight := g.arena.weight_le root
    rw [hexp, Graph.walkExponent, hready.arena_eq, Nat.pow_add]
    omega
  have hstops' : w₂.stops = p.stops := by rw [hstops₂, hready.rest_eq, hstops]
  obtain ⟨j, w₃, g₃, hj, hlands, htours⟩ := hreaches.paces.exists_tours hat.mode_eq hstops' hcurrent hlt
  refine ⟨w₃, g₃, w', g', ?_, htours⟩
  have hsettle := settle_eq hat.mode_eq hat.current_eq hlands (by omega)
  rw [hat.stage_eq] at hsettle
  rw [start_eq_ready, hrun]
  change w₁.restart g₁ root = _
  rw [restart, requireDepthFirst, if_pos hsearching.mode_eq]
  change (w₁.arrive g₁ none root >>= _) = _
  rw [harrive]
  exact hsettle

end Walk

/-! ### Any state of a graph -/

namespace Commons

variable [Scalar α] [BitPattern α] [NumberText α]

/-- **Depth-first walks are depth-first search.** Take any state that a new workspace and its walks can be brought to.
The graph has no cycles if callers kept to the rules, and whenever it has none, depth-first walks over it search it: a
walk that holds a slot or can have one, started at any node with any stages selected, with or without revisits, and
taken on by a caller who goes on or skips at any of the stops but those where nodes are left, meets no fault. It shows
what the recursion reports at the stages selected, and ends. Without revisits and skips each node at or below the root
is entered and left exactly once, and no node is left before one that lies below it. -/
theorem depthFirst_eq_search (settings : Settings α) (identity : Nat) (store : BoundTable α) {cs : List (Command α)}
    {s : Commons α} {answers : List (Nat × Walk.Answer)}
    (hrun : (new settings identity store).serveAll cs = .ok (s, answers)) :
    ((new settings identity store).PermitsAll cs → s.graph.arena.Acyclic) ∧
    ∀ (hacyclic : s.graph.arena.Acyclic) (i : Nat) (p : Plan) (root : NodeId), root < s.graph.arena.capacity →
      (s.walks i).slot ≠ none ∨ s.graph.walks.lowestFree? ≠ none →
      let shown := p.shown (p.search hacyclic none root .start).trace
      (∃ w g w' g', { s.walks i with stops := p.stops }.start s.graph (some root) .depthFirst p.revisits = .ok (w, g) ∧
        Walk.Tours p.skips w g [] w' g' shown ∧ w'.current = none) ∧
      (p.revisits = false → (∀ seen, p.skips seen = false) →
        (∀ stage, stage.isAtChild = false → p.stops.contains stage = true →
          (Plan.nodesAt stage shown).Nodup ∧
            ∀ n, n ∈ Plan.nodesAt stage shown ↔ s.graph.arena.Below n root) ∧
        (Plan.nodesAt .leave shown).Pairwise fun m n => ¬ s.graph.arena.Below n m) := by
  have horderly : s.Orderly := orderly_of_serveAll (orderly_new settings identity store) hrun
  refine ⟨fun hcs => ?_, fun hacyclic i p root hroot hslot => ⟨?_, fun hrevisits hskips => ?_⟩⟩
  · exact (sound_of_serveAll (orderly_new settings identity store) (.empty settings identity) hcs hrun).acyclic
  · obtain ⟨w, g, w', g', hstart, htours⟩ := Walk.exists_tours (w := { s.walks i with stops := p.stops }) (p := p)
      horderly.ordered.tagsGiven hacyclic horderly.ordered.intact.operandsInside (horderly.home i) hslot rfl hroot
    exact ⟨w, g, w', g', hstart, htours, htours.current_eq⟩
  · obtain ⟨reports, hreports⟩ := Plan.covers_search hrevisits hskips hacyclic none root (s := .start) nofun nofun
    have htrace : (p.search hacyclic none root .start).trace = reports := hreports.trace_eq
    rw [htrace]
    refine ⟨fun stage hstage hstops => ?_, hreports.ordered.sublist ((List.filter_sublist.filter _).map _)⟩
    rw [p.nodesAt_shown hstops]
    refine ⟨hreports.nodup stage hstage, fun n => ?_⟩
    rw [hreports.mem_iff stage hstage n]
    exact and_iff_left List.not_mem_nil

/-- A sum whose operands are one node. The slots bear what an earlier walk left. -/
theorem depthFirst_eq_search_of_shared :
    let cs : List (Command Float) :=
      [.work (.request (.value 1)), .work (.request (.apply .exp 0 rfl)),
        .work (.request (.add (.sum [1, 1] 0) [1, 1])), .walk 7 (.start (some 2) .depthFirst false), .walk 7 .next, .walk 7 .drop]
    ∃ s answers, (new default 0 (.ofList [])).PermitsAll cs ∧
      (new default 0 (.ofList [])).serveAll cs = .ok (s, answers) ∧
      ∃ w g w' g' shown,
        { s.walks 7 with stops := .all }.start s.graph (some 2) .depthFirst false = .ok (w, g) ∧
        Walk.Tours (fun _ => false) w g [] w' g' shown ∧ w'.current = none ∧
        (Plan.nodesAt .leave shown).Nodup ∧ 2 ∈ Plan.nodesAt .leave shown := by
  intro cs
  have hcs : (new default 0 (.ofList [])).PermitsAll cs := by decide +kernel
  have hreturns : (match (new default 0 (.ofList [])).serveAll cs with
      | .ok (s, _) => decide (2 < s.graph.arena.capacity) && s.graph.walks.lowestFree?.isSome
      | .error _ => false) = true := by decide +kernel
  rcases hrun : (new default 0 (.ofList [])).serveAll cs with e | ⟨s, answers⟩
  · rw [hrun] at hreturns
    cases hreturns
  rw [hrun, Bool.and_eq_true, decide_eq_true_eq] at hreturns
  obtain ⟨hroot, hfree⟩ := hreturns
  obtain ⟨hacyclic, htours⟩ := depthFirst_eq_search default 0 (.ofList []) hrun
  obtain ⟨⟨w, g, w', g', hstart, htour, hend⟩, hcovers⟩ := htours (hacyclic hcs) 7 ⟨.all, false, fun _ => false⟩ 2
    hroot (Or.inr (Option.isSome_iff_ne_none.mp hfree))
  obtain ⟨hnodup, hmem⟩ := (hcovers rfl fun _ => rfl).1 .leave rfl rfl
  exact ⟨s, answers, hcs, rfl, w, g, w', g', _, hstart, htour, hend, hnodup, (hmem 2).mpr (.refl _ 2)⟩

end Commons

end IntervalDag
