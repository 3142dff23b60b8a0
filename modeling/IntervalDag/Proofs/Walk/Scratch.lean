import IntervalDag.Proofs.Walk.Marks

/-!
# Scratch slots

A walk writes to the scratch slots at its own position only. `Walk.Moved` says so of a walk that takes steps, and
that a step leaves behind no tags but those of the walk, keeps the words of users and goes on with the same slot,
tag and stops. Every operation on a walk that has started is of this kind (`Walk.moves_next`, `Walk.moves_skip`,
`Walk.moves_restart`). Starting is dealt with in two parts: it gets a slot and a tag (`Walk.Readied`), and then
steps.
-/

namespace IntervalDag

variable {α : Type}

/-! ### Reading and writing -/

namespace Arena

/-- The scratch slot of an entry at a position. It is blank where there is no entry. -/
def scratch (a : Arena α) (i : Nat) (n : NodeId) : Slot := (a.node? n).elim default (·.slot i)

variable {a a' : Arena α} {n m : NodeId} {i j : Nat} {f : Slot → Slot}

theorem slot_eq (hn : n < a.capacity) : a.slot n i = .ok (a.scratch i n) := by
  rcases hnode : a.node? n with _ | node
  · exact absurd hn (Nat.not_lt.mpr (node?_eq_none_iff.mp hnode))
  · simp only [slot, get, scratch, hnode]
    rfl

theorem slot_eq_ok_iff {s : Slot} : a.slot n i = .ok s ↔ n < a.capacity ∧ s = a.scratch i n := by
  constructor
  · intro h
    have hn : n < a.capacity := by
      by_contra hn
      simp only [slot, get, node?_eq_none_iff.mpr (Nat.not_lt.mp hn)] at h
      cases h
    rw [slot_eq hn] at h
    exact ⟨hn, (Except.ok.inj h).symm⟩
  · rintro ⟨hn, rfl⟩
    exact slot_eq hn

theorem modifySlot_eq (hn : n < a.capacity) : a.modifySlot n i f = .ok (a.modify n (·.modifySlot i f)) :=
  if_pos hn

theorem scratch_modify_slot (hn : n < a.capacity) :
    (a.modify n (·.modifySlot i f)).scratch j m = if m = n ∧ j = i then f (a.scratch i n) else a.scratch j m := by
  rw [scratch, node?_modify]
  by_cases hm : m = n
  · subst hm
    rcases hnode : a.node? m with _ | node
    · exact absurd hn (Nat.not_lt.mpr (node?_eq_none_iff.mp hnode))
    · by_cases hj : j = i
      · simp [hj, scratch, hnode, Node.slot_modifySlot]
      · simp [hj, scratch, hnode, Node.slot_modifySlot]
  · simp [hm, scratch]

/-- Where entries have the same slots, so have numbers. -/
theorem AgreeOn.scratch_eq (h : AgreeOn (·.slots) a a') : a'.scratch = a.scratch := by
  funext i n
  exact (h.map fun slots => slots[i]?.getD default).elim_eq n default

end Arena

namespace Graph

variable {g : Graph α}

theorem tagsGiven_iff : g.TagsGiven ↔ ∀ i n, (g.arena.scratch i n).visited ≤ g.walks.visitTags.last := by
  constructor
  · intro h i n
    rw [Arena.scratch]
    rcases hnode : g.arena.node? n with _ | node
    · exact Nat.zero_le _
    · exact h n node i hnode
  · intro h n node i hnode
    have := h i n
    rwa [Arena.scratch, hnode] at this

end Graph

/-! ### Steps -/

namespace Walk

/-- What steps of a walk lead to. -/
structure Moved (w : Walk) (g : Graph α) (w' : Walk) (g' : Graph α) : Prop where
  rest_eq : w' = { w with current := w'.current, stage := w'.stage, stack := w'.stack, queue := w'.queue }
  walked : g.Walked g'
  walks_eq : g'.walks = g.walks
  scratch_eq : ∀ i n, w.slot ≠ some i → g'.arena.scratch i n = g.arena.scratch i n
  visited : ∀ i n, (g'.arena.scratch i n).visited = w.visitTag ∨
    (g'.arena.scratch i n).visited = (g.arena.scratch i n).visited
  userData_eq : ∀ i n, (g'.arena.scratch i n).userData = (g.arena.scratch i n).userData

namespace Moved

variable {w w₁ w₂ : Walk} {g g₁ g₂ : Graph α}

theorem refl (w : Walk) (g : Graph α) : Moved w g w g :=
  ⟨rfl, .refl g, rfl, fun _ _ _ => rfl, fun _ _ => Or.inr rfl, fun _ _ => rfl⟩

theorem home_eq (h : Moved w g w₁ g₁) : w₁.home = w.home := by rw [h.rest_eq]

theorem mode_eq (h : Moved w g w₁ g₁) : w₁.mode = w.mode := by rw [h.rest_eq]

theorem slot_eq (h : Moved w g w₁ g₁) : w₁.slot = w.slot := by rw [h.rest_eq]

theorem visitTag_eq (h : Moved w g w₁ g₁) : w₁.visitTag = w.visitTag := by rw [h.rest_eq]

theorem stops_eq (h : Moved w g w₁ g₁) : w₁.stops = w.stops := by rw [h.rest_eq]

theorem exponent_eq (h : Moved w g w₁ g₁) : g₁.walkExponent = g.walkExponent := by
  rw [Graph.walkExponent, Graph.walkExponent, h.walked.children.edgeCount_eq]

theorem trans (h₁ : Moved w g w₁ g₁) (h₂ : Moved w₁ g₁ w₂ g₂) : Moved w g w₂ g₂ where
  rest_eq := by rw [h₂.rest_eq, h₁.rest_eq]
  walked := h₁.walked.trans h₂.walked
  walks_eq := h₂.walks_eq.trans h₁.walks_eq
  scratch_eq i n hi := (h₂.scratch_eq i n (h₁.slot_eq ▸ hi)).trans (h₁.scratch_eq i n hi)
  visited i n := by
    rcases h₂.visited i n with h | h
    · exact Or.inl (h.trans h₁.visitTag_eq)
    · exact (h₁.visited i n).imp h.trans h.trans
  userData_eq i n := (h₂.userData_eq i n).trans (h₁.userData_eq i n)

/-- Where a walk stands is its own affair. -/
theorem of_rest (h : Moved w g w₁ g₁)
    (hw : w₂ = { w with current := w₂.current, stage := w₂.stage, stack := w₂.stack, queue := w₂.queue }) :
    Moved w g w₂ g₁ := ⟨hw, h.walked, h.walks_eq, h.scratch_eq, h.visited, h.userData_eq⟩

/-- Steps give no tags but those given out before. -/
theorem tagsGiven (h : Moved w g w₁ g₁) (htags : g.TagsGiven) (htag : w.visitTag ≤ g.walks.visitTags.last) :
    g₁.TagsGiven := by
  rw [Graph.tagsGiven_iff] at htags ⊢
  intro i n
  rw [h.walks_eq]
  rcases h.visited i n with hn | hn
  · exact hn ▸ htag
  · exact hn ▸ htags i n

end Moved

/-- The walk takes steps, or meets a fault. -/
abbrev Moves (w : Walk) (g : Graph α) (x : Checked α (Walk × Graph α)) : Prop :=
  Meets x () (fun _ => True) fun r _ => Moved w g r.1 r.2

variable {w : Walk} {g : Graph α} {n : NodeId}

/-- A step from where steps have led. -/
theorem Moved.moves {w₁ : Walk} {g₁ : Graph α} (h : Moved w g w₁ g₁) {x : Checked α (Walk × Graph α)}
    (hx : Moves w₁ g₁ x) : Moves w g x := hx.imp fun _ _ hr => h.trans hr

/-- Reading may meet a fault. -/
theorem meets_any {β : Type} (x : Checked α β) : Meets x () (fun _ => True) fun _ _ => True := by
  cases x with
  | error e => trivial
  | ok b => trivial

theorem moves_bind_any {β : Type} {x : Checked α β} {f : β → Checked α (Walk × Graph α)}
    (hf : ∀ b, Moves w g (f b)) : Moves w g (x >>= f) := (meets_any x).bind fun b _ _ => hf b

/-- Writing to the own slot. -/
theorem Moved.of_modifySlot {i : Nat} (hslot : w.slot = some i) (hn : n < g.arena.capacity) {f : Slot → Slot}
    (hf : ∀ s, (f s).userData = s.userData ∧ ((f s).visited = w.visitTag ∨ (f s).visited = s.visited)) :
    Moved w g w (g.modify n (·.modifySlot i f)) := by
  refine ⟨rfl, ⟨.of_modify fun _ => rfl, rfl, rfl⟩, rfl, fun j m hj => ?_, fun j m => ?_, fun j m => ?_⟩
  all_goals
    simp only [Graph.modify, Arena.scratch_modify_slot hn]
    split
  · rename_i hm
    exact absurd (hslot.trans (congrArg some hm.2.symm)) hj
  · rfl
  · rename_i hm
    rw [hm.1, hm.2]
    exact (hf _).2
  · exact Or.inr rfl
  · rename_i hm
    rw [hm.1, hm.2]
    exact (hf _).1
  · rfl

theorem modifySlot_eq {i : Nat} (hslot : w.slot = some i) (hn : n < g.arena.capacity) (f : Slot → Slot) :
    w.modifySlot g n f = .ok (g.modify n (·.modifySlot i f)) := by
  simp only [modifySlot, slotIndex, hslot, Arena.modifySlot_eq hn]
  rfl

/-- A walk reads the words in its own slot. -/
theorem userData_eq {i : Nat} (hslot : w.slot = some i) (hn : n < g.arena.capacity) :
    w.userData g n = .ok (g.arena.scratch i n).userData := by
  simp only [userData, slotIndex, hslot]
  change g.arena.slot n i >>= _ = _
  rw [Arena.slot_eq hn]
  rfl

theorem modifySlot_eq_error {i : Nat} (hslot : w.slot = some i) (hn : ¬ n < g.arena.capacity) (f : Slot → Slot) :
    w.modifySlot g n f = .error .outOfRange := by
  have hfault : g.arena.modifySlot n i f = .error .outOfRange := if_neg hn
  have hrun : w.modifySlot g n f = g.arena.modifySlot n i f >>= fun arena => .ok { g with arena } := by
    simp only [modifySlot, slotIndex, hslot]
    rfl
  rw [hrun, hfault]
  rfl

/-- A write comes to nothing without a slot and outside the arena. -/
theorem modifySlot_eq_ok_iff {f : Slot → Slot} {g' : Graph α} : w.modifySlot g n f = .ok g' ↔
    ∃ i, w.slot = some i ∧ n < g.arena.capacity ∧ g' = g.modify n (·.modifySlot i f) := by
  constructor
  · intro h
    rcases hslot : w.slot with _ | i
    · simp only [modifySlot, slotIndex, hslot] at h
      cases h
    by_cases hn : n < g.arena.capacity
    · rw [modifySlot_eq hslot hn] at h
      exact ⟨i, rfl, hn, (Except.ok.inj h).symm⟩
    · rw [modifySlot_eq_error hslot hn] at h
      cases h
  · rintro ⟨i, hslot, hn, rfl⟩
    exact modifySlot_eq hslot hn f

theorem meets_modifySlot {f : Slot → Slot} (hf : ∀ s, (f s).userData = s.userData ∧
      ((f s).visited = w.visitTag ∨ (f s).visited = s.visited)) :
    Meets (w.modifySlot g n f) () (fun _ => True) fun g' _ => Moved w g w g' := by
  rcases hrun : w.modifySlot g n f with e | g'
  · trivial
  · obtain ⟨i, hslot, hn, rfl⟩ := modifySlot_eq_ok_iff.mp hrun
    exact .of_modifySlot hslot hn hf

theorem moves_modifySlot_bind {f : Slot → Slot} {k : Graph α → Checked α (Walk × Graph α)}
    (hf : ∀ s, (f s).userData = s.userData ∧ ((f s).visited = w.visitTag ∨ (f s).visited = s.visited))
    (hk : ∀ g', Moved w g w g' → Moves w g (k g')) : Moves w g (w.modifySlot g n f >>= k) :=
  (meets_modifySlot hf).bind fun g' _ hg' => hk g' hg'

theorem meets_markVisited_moved : Meets (w.markVisited g n) () (fun _ => True) fun g' _ => Moved w g w g' := by
  rw [markVisited]
  split
  · exact .refl w g
  · exact meets_modifySlot fun _ => ⟨rfl, Or.inl rfl⟩

/-! #### Depth first -/

theorem moves_selectChild : Moves w g (w.selectChild g n) := by
  rw [selectChild]
  refine moves_bind_any fun _ => moves_bind_any fun _ => moves_bind_any fun _ => moves_bind_any fun _ => ?_
  exact moves_modifySlot_bind (fun _ => ⟨rfl, Or.inr rfl⟩) fun g' hg' => meets_pure.mpr (hg'.of_rest rfl)

theorem moves_arrive {parent : Option NodeId} : Moves w g (w.arrive g parent n) := by
  rw [arrive]
  exact moves_modifySlot_bind (fun _ => ⟨rfl, Or.inr rfl⟩) fun g' hg' => meets_pure.mpr (hg'.of_rest rfl)

theorem moves_depthFirstStep : Moves w g (w.depthFirstStep g n) := by
  rw [depthFirstStep]
  split
  · exact moves_selectChild
  · refine moves_bind_any fun _ => moves_bind_any fun _ => moves_bind_any fun _ => moves_bind_any fun _ => ?_
    exact moves_arrive
  · exact moves_modifySlot_bind (fun _ => ⟨rfl, Or.inr rfl⟩) fun g' hg' => hg'.moves moves_selectChild
  · refine moves_modifySlot_bind (fun s => ⟨rfl, ?_⟩) fun g' hg' => ?_
    · dsimp only
      split
      · exact Or.inr rfl
      · exact Or.inl rfl
    · exact moves_bind_any fun _ => moves_bind_any fun _ => meets_pure.mpr (hg'.of_rest rfl)

/-- Where steps lead to the next turn or to the end of a loop. -/
abbrev MovesTurn (w : Walk) (g : Graph α) (x : Checked α (Turn (Walk × Graph α) (Walk × Graph α))) : Prop :=
  Meets x () (fun _ => True) (Turn.Allowed (fun r _ => Moved w g r.1 r.2) fun r _ => Moved w g r.1 r.2)

theorem movesTurn_depthFirstTurn : MovesTurn w g (depthFirstTurn (w, g)) := by
  rw [depthFirstTurn]
  split
  · exact meets_pure.mpr (.refl w g)
  · refine moves_depthFirstStep.bind fun r _ hr => meets_pure.mpr ?_
    split
    · exact hr
    · exact hr

/-! #### Breadth first -/

theorem moves_enqueue {children : List NodeId} : Moves w g (w.enqueue g children) := by
  induction children generalizing w g with
  | nil => exact meets_pure.mpr (.refl w g)
  | cons child children ih =>
    rw [enqueue]
    refine moves_bind_any fun visited => ?_
    split
    · exact ih
    · refine meets_markVisited_moved.bind fun g' _ hg' => ?_
      have hmoved : Moved w g { w with queue := w.queue.push child } g' := hg'.of_rest rfl
      exact hmoved.moves ih

theorem moves_breadthFirstNext : Moves w g (w.breadthFirstNext g) := by
  rw [breadthFirstNext]
  split
  · exact meets_pure.mpr ((Moved.refl w g).of_rest rfl)
  · rename_i n queue _
    refine moves_bind_any fun _ => ?_
    have hmoved : Moved w g { w with current := some n, queue } g := (Moved.refl w g).of_rest rfl
    exact hmoved.moves moves_enqueue

/-! #### Reverse topological -/

theorem movesTurn_reverseTurn : MovesTurn w g (reverseTurn (w, g)) := by
  rw [reverseTurn]
  split
  · exact meets_pure.mpr ((Moved.refl w g).of_rest rfl)
  · rename_i n cursor stack _
    refine (meets_any _).bind fun children _ _ => ?_
    split
    · refine (meets_any _).bind fun visited _ _ => ?_
      split
      · exact meets_pure.mpr ((Moved.refl w g).of_rest rfl)
      · have hstack : Moved w g { w with stack } g := (Moved.refl w g).of_rest rfl
        refine meets_markVisited_moved.bind fun g' _ hg' => meets_pure.mpr ?_
        exact hstack.trans (hg'.of_rest rfl)
    · refine (meets_any _).bind fun visited _ _ => ?_
      split
      · exact meets_pure.mpr ((Moved.refl w g).of_rest rfl)
      · exact meets_pure.mpr ((Moved.refl w g).of_rest rfl)

/-! #### Any order -/

theorem moves_run {step : Walk × Graph α → Checked α (Turn (Walk × Graph α) (Walk × Graph α))}
    (hstep : ∀ w g, MovesTurn w g (step (w, g))) :
    Moves w g (Loop.run α (fun (_, g) => .ok (Graph.walkExponent g)) step (w, g)) := by
  refine meets_run_of_diverged (I := fun r _ => Moved w g r.1 r.2) trivial
    (fun _ _ _ => meets_pure.mpr rfl) (fun r _ hr => ?_) (.refl w g)
  refine (hstep r.1 r.2).imp fun turn _ hturn => ?_
  cases turn with
  | next r' => exact hr.trans hturn
  | done r' => exact hr.trans hturn

/-- **A step.** -/
theorem moves_next : Moves w g (w.next g) := by
  rw [next]
  split
  · exact moves_run fun _ _ => movesTurn_depthFirstTurn
  · exact moves_breadthFirstNext
  · exact moves_run fun _ _ => movesTurn_reverseTurn

theorem moves_restart {root : NodeId} : Moves w g (w.restart g root) := by
  rw [restart]
  refine moves_bind_any fun _ => moves_arrive.bind fun r _ hr => ?_
  dsimp only
  split
  · exact meets_pure.mpr hr
  · exact hr.moves moves_next

theorem moves_skip : Moves w g (w.skip g) := by
  rw [skip]
  refine moves_bind_any fun _ => ?_
  have hstage : ∀ stage, Moved w g { w with stage } g := fun _ => (Moved.refl w g).of_rest rfl
  split
  · dsimp only
    split
    · exact meets_pure.mpr (hstage _)
    · exact (hstage _).moves moves_next
  · dsimp only
    split
    · exact meets_pure.mpr (hstage _)
    · exact (hstage _).moves moves_next
  · exact (hstage _).moves moves_next
  · trivial

/-! ### Starting -/

/-- Depth-first walks and walks without revisits hold a slot. -/
def tracks (mode : Mode) (revisits : Bool) : Bool := decide (mode = .depthFirst ∨ revisits = false)

/-- Gets a slot and a tag for a walk that starts. -/
def ready (w : Walk) (g : Graph α) (mode : Mode) (revisits : Bool) : Checked α (Walk × Graph α) := do
  if w.home ≠ g.identity then throw .foreignGraph
  let w := { w with mode, current := none, stack := [], queue := .empty }
  let (w, g) ← if tracks mode revisits then w.leaseSlot g else .ok (w.releaseSlot g)
  return w.takeTag g revisits

/-- Goes to the first node. -/
def setOut (w : Walk) (g : Graph α) : Option NodeId → Mode → Checked α (Walk × Graph α)
  | none, _ => .ok (w, g)
  | some root, .depthFirst => w.restart g root
  | some root, .breadthFirst => do
    let g ← w.markVisited g root
    next { w with queue := w.queue.push root } g
  | some root, .reverseTopological => next { w with stack := [(root, 0)] } g

/-- A walk that has a slot and a tag to start with. -/
structure Readied (w : Walk) (g : Graph α) (mode : Mode) (revisits : Bool) (w₁ : Walk) (g₁ : Graph α) : Prop where
  rest_eq : w₁ = { w with
    mode, current := none, stack := [], queue := .empty, slot := w₁.slot, visitTag := w₁.visitTag }
  graph_eq : g₁ = { g with walks := g₁.walks }
  /-- the tag is a new one -/
  tag : if revisits then w₁.visitTag = 0 ∧ g₁.walks.visitTags = g.walks.visitTags
    else w₁.visitTag = g.walks.visitTags.last + 1 ∧ g₁.walks.visitTags.last = g.walks.visitTags.last + 1
  /-- a slot is kept, taken or given back as the walk needs one -/
  slot : if tracks mode revisits then
      ∃ i, w₁.slot = some i ∧ (w.slot = some i ∧ g₁.walks.taken = g.walks.taken ∨
        w.slot = none ∧ i ∉ g.walks.taken ∧ g₁.walks.taken = i :: g.walks.taken)
    else w₁.slot = none ∧ g₁.walks.taken = w.slot.elim g.walks.taken g.walks.taken.erase

namespace Readied

variable {mode : Mode} {revisits : Bool} {w₁ : Walk} {g₁ : Graph α}

theorem home_eq (h : Readied w g mode revisits w₁ g₁) : w₁.home = w.home := by rw [h.rest_eq]

theorem mode_eq (h : Readied w g mode revisits w₁ g₁) : w₁.mode = mode := by rw [h.rest_eq]

theorem arena_eq (h : Readied w g mode revisits w₁ g₁) : g₁.arena = g.arena := by rw [h.graph_eq]

theorem walked (h : Readied w g mode revisits w₁ g₁) : g.Walked g₁ := by
  refine ⟨?_, ?_, ?_⟩
  all_goals rw [h.graph_eq]
  exact .refl _ _

theorem last_le (h : Readied w g mode revisits w₁ g₁) : g.walks.visitTags.last ≤ g₁.walks.visitTags.last := by
  have htag := h.tag
  split at htag
  · rw [htag.2]
  · omega

theorem visitTag_le (h : Readied w g mode revisits w₁ g₁) : w₁.visitTag ≤ g₁.walks.visitTags.last := by
  have htag := h.tag
  split at htag
  · omega
  · omega

theorem tagsGiven (h : Readied w g mode revisits w₁ g₁) (htags : g.TagsGiven) : g₁.TagsGiven := by
  rw [Graph.tagsGiven_iff, h.arena_eq] at *
  exact fun i n => Nat.le_trans (htags i n) h.last_le

end Readied

theorem start_eq_ready {root : Option NodeId} {mode : Mode} {revisits : Bool} :
    w.start g root mode revisits = w.ready g mode revisits >>= fun r => r.1.setOut r.2 root mode := by
  have htracks : (mode = .depthFirst ∨ revisits = false) ↔ tracks mode revisits = true := by simp [tracks]
  unfold start ready
  by_cases hhome : w.home ≠ g.identity
  · rw [if_pos hhome, if_pos hhome]
    rfl
  simp only [if_neg hhome, htracks]
  split
  all_goals
    rw [bind_assoc]
    refine bind_congr fun r => ?_
    rw [pure_bind]
    cases root with
    | none => rfl
    | some root => cases mode <;> rfl

/-- A new tag, or none, for a walk whose slot is settled. -/
theorem Readied.of_takeTag {mode : Mode} {revisits : Bool} (slot : Option Nat) (taken : List Nat)
    (hslot : if tracks mode revisits then
        ∃ i, slot = some i ∧ (w.slot = some i ∧ taken = g.walks.taken ∨
          w.slot = none ∧ i ∉ g.walks.taken ∧ taken = i :: g.walks.taken)
      else slot = none ∧ taken = w.slot.elim g.walks.taken g.walks.taken.erase) :
    let r := ({ w with mode, current := none, stack := [], queue := .empty, slot } : Walk).takeTag
      { g with walks := { g.walks with taken } } revisits
    Readied w g mode revisits r.1 r.2 := by
  cases revisits with
  | true => exact ⟨rfl, rfl, ⟨rfl, rfl⟩, hslot⟩
  | false => exact ⟨rfl, rfl, ⟨rfl, rfl⟩, hslot⟩

/-- **Getting a slot and a tag** fails for want of a slot only. -/
theorem ready_spec (mode : Mode) (revisits : Bool) (hhome : w.home = g.identity) :
    match w.ready g mode revisits with
    | .ok r => Readied w g mode revisits r.1 r.2
    | .error e => e = .slotsExhausted ∧ tracks mode revisits = true ∧ w.slot = none ∧
        g.walks.lowestFree? = none := by
  rw [ready, if_neg (not_not.mpr hhome)]
  cases htracks : tracks mode revisits with
  | true =>
    rcases hslot : w.slot with _ | i
    · rcases hfree : g.walks.lowestFree? with _ | i
      · simp [leaseSlot, SlotPool.lease, hfree]
      · simp only [leaseSlot, SlotPool.lease, hfree]
        refine Readied.of_takeTag (some i) _ ?_
        rw [if_pos htracks]
        exact ⟨i, rfl, Or.inr ⟨hslot, (SlotPool.lowestFree?_spec hfree).2, rfl⟩⟩
    · simp only [leaseSlot]
      refine Readied.of_takeTag (some i) _ ?_
      rw [if_pos htracks]
      exact ⟨i, rfl, Or.inl ⟨hslot, rfl⟩⟩
  | false =>
    rcases hslot : w.slot with _ | i
    · simp only [releaseSlot]
      refine Readied.of_takeTag none g.walks.taken ?_
      rw [if_neg (by simp [htracks]), hslot]
      exact ⟨rfl, rfl⟩
    · simp only [releaseSlot]
      refine Readied.of_takeTag none (g.walks.taken.erase i) ?_
      rw [if_neg (by simp [htracks]), hslot]
      exact ⟨rfl, rfl⟩

/-- Where a walk holds a slot or can have one, it gets a slot and a tag. -/
theorem exists_ready (mode : Mode) (revisits : Bool) (hhome : w.home = g.identity)
    (hslot : w.slot ≠ none ∨ g.walks.lowestFree? ≠ none) :
    ∃ w₁ g₁, w.ready g mode revisits = .ok (w₁, g₁) ∧ Readied w g mode revisits w₁ g₁ := by
  have hspec := ready_spec mode revisits hhome
  rcases hready : w.ready g mode revisits with e | r
  · rw [hready] at hspec
    rcases hslot with hslot | hslot
    · exact absurd hspec.2.2.1 hslot
    · exact absurd hspec.2.2.2 hslot
  · rw [hready] at hspec
    exact ⟨r.1, r.2, rfl, hspec⟩

theorem moves_setOut {root : Option NodeId} {mode : Mode} : Moves w g (w.setOut g root mode) := by
  cases root with
  | none => exact meets_pure.mpr (.refl w g)
  | some root =>
    cases mode with
    | depthFirst => exact moves_restart
    | breadthFirst =>
      refine meets_markVisited_moved.bind fun g' _ hg' => ?_
      have hmoved : Moved w g { w with queue := w.queue.push root } g' := hg'.of_rest rfl
      exact hmoved.moves moves_next
    | reverseTopological =>
      have hmoved : Moved w g { w with stack := [(root, 0)] } g := (Moved.refl w g).of_rest rfl
      exact hmoved.moves moves_next

end Walk

end IntervalDag
