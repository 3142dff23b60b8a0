import IntervalDag.Proofs.Matches
import IntervalDag.Proofs.Walk.Commons

/-!
# Walks that show the same

A walk goes by the operands of nodes and by what it wrote to its own scratch slots. Two walks on two graphs are
`Walk.Twins` if they agree in what they go by: the position of the slot and the visit tag may differ, and so may
all that was in the slots before. Every request but one for a word that was never written comes to the same for
both (`Walk.Twins.serve`).
-/

namespace IntervalDag

variable {α : Type}

/-! ### Twins -/

namespace Walk

/-- Two walks on two graphs agree in what they go by. -/
structure Twins (w : Walk) (g : Graph α) (v : Walk) (k : Graph α) : Prop where
  rest_eq : v = { w with slot := v.slot, visitTag := v.visitTag }
  slot_iff : w.slot = none ↔ v.slot = none
  tag_iff : w.visitTag = 0 ↔ v.visitTag = 0
  children : Arena.AgreeOn (·.children) g.arena k.arena
  /-- the same nodes are finished -/
  visited : ∀ a b, w.slot = some a → v.slot = some b → w.visitTag ≠ 0 → ∀ n,
    (g.arena.scratch a n).visited = w.visitTag ↔ (k.arena.scratch b n).visited = v.visitTag
  /-- from the current node on, the ways back are the same -/
  ways : ∀ a b, w.slot = some a → v.slot = some b → ∃ A : NodeId → Prop,
    (w.mode = .depthFirst → ∀ n, w.current = some n → A n) ∧
    ∀ n, A n → (g.arena.scratch a n).cursor = (k.arena.scratch b n).cursor ∧
      (g.arena.scratch a n).parent = (k.arena.scratch b n).parent ∧
      ∀ p, (g.arena.scratch a n).parent = some p → A p

namespace Twins

theorem refl (w : Walk) (g : Graph α) : Twins w g w g where
  rest_eq := rfl
  slot_iff := Iff.rfl
  tag_iff := Iff.rfl
  children := .refl _ _
  visited a b ha hb _ n := by
    obtain rfl : a = b := Option.some.inj (ha.symm.trans hb)
    rfl
  ways a b ha hb := by
    obtain rfl : a = b := Option.some.inj (ha.symm.trans hb)
    exact ⟨fun _ => True, fun _ _ _ => trivial, fun _ _ => ⟨rfl, rfl, fun _ _ => trivial⟩⟩

variable {w v : Walk} {g k : Graph α} (h : Twins w g v k)

include h

theorem home_eq : v.home = w.home := by rw [h.rest_eq]

theorem mode_eq : v.mode = w.mode := by rw [h.rest_eq]

theorem current_eq : v.current = w.current := by rw [h.rest_eq]

theorem stage_eq : v.stage = w.stage := by rw [h.rest_eq]

theorem stops_eq : v.stops = w.stops := by rw [h.rest_eq]

theorem stack_eq : v.stack = w.stack := by rw [h.rest_eq]

theorem queue_eq : v.queue = w.queue := by rw [h.rest_eq]

theorem allowsRevisits_eq : v.allowsRevisits = w.allowsRevisits := by
  rw [allowsRevisits, allowsRevisits, Bool.eq_iff_iff, beq_iff_eq, beq_iff_eq, h.tag_iff]

theorem exponent_eq : k.walkExponent = g.walkExponent := by
  rw [Graph.walkExponent, Graph.walkExponent, h.children.edgeCount_eq]

/-- Both walks hold a slot, or neither does. -/
theorem slot_cases : (w.slot = none ∧ v.slot = none) ∨ ∃ a b, w.slot = some a ∧ v.slot = some b := by
  rcases hw : w.slot with _ | a
  · exact Or.inl ⟨rfl, h.slot_iff.mp hw⟩
  · rcases hv : v.slot with _ | b
    · rw [h.slot_iff.mpr hv] at hw
      cases hw
    · exact Or.inr ⟨a, b, rfl, rfl⟩

/-- The graph of one walk changes where it does not matter. -/
theorem of_left {g' : Graph α} (hchildren : Arena.AgreeOn (·.children) g.arena g'.arena)
    (hscratch : ∀ a, w.slot = some a → ∀ n, g'.arena.scratch a n = g.arena.scratch a n) : Twins w g' v k where
  rest_eq := h.rest_eq
  slot_iff := h.slot_iff
  tag_iff := h.tag_iff
  children := hchildren.symm.trans h.children
  visited a b ha hb htag n := by
    rw [hscratch a ha]
    exact h.visited a b ha hb htag n
  ways a b ha hb := by
    simp only [hscratch a ha]
    exact h.ways a b ha hb

/-- Both walks stand elsewhere. -/
theorem stand {w' v' : Walk} (hw : w' = { w with
      current := w'.current, stage := w'.stage, stack := w'.stack, queue := w'.queue })
    (hv : v' = { w' with slot := v.slot, visitTag := v.visitTag })
    (hcurrent : w.mode = .depthFirst → w'.current = none ∨ w'.current = w.current) : Twins w' g v' k := by
  have hslot : w'.slot = w.slot := by rw [hw]
  have htag : w'.visitTag = w.visitTag := by rw [hw]
  have hmode : w'.mode = w.mode := by rw [hw]
  have hslot' : v'.slot = v.slot := by rw [hv]
  have htag' : v'.visitTag = v.visitTag := by rw [hv]
  refine ⟨by rw [hslot', htag', ← hv], ?_, ?_, h.children, ?_, fun a b ha hb => ?_⟩
  · rw [hslot, hslot']
    exact h.slot_iff
  · rw [htag, htag']
    exact h.tag_iff
  · rw [hslot, hslot', htag, htag']
    exact h.visited
  · obtain ⟨A, hA, hways⟩ := h.ways a b (hslot ▸ ha) (hslot' ▸ hb)
    refine ⟨A, fun hdepth n hn => ?_, hways⟩
    rw [hmode] at hdepth
    rcases hcurrent hdepth with hnone | hsame
    · rw [hnone] at hn
      cases hn
    · exact hA hdepth n (hsame ▸ hn)

/-! #### Reading -/

theorem slotIndex_matches :
    Matches (fun a b => w.slot = some a ∧ v.slot = some b) (w.slotIndex : Checked α Nat) v.slotIndex := by
  rw [slotIndex, slotIndex]
  rcases h.slot_cases with ⟨hw, hv⟩ | ⟨a, b, hw, hv⟩
  · rw [hw, hv]
    exact rfl
  · rw [hw, hv]
    exact ⟨rfl, rfl⟩

theorem slot_matches (n : NodeId) {a b : Nat} :
    Matches (fun s t => s = g.arena.scratch a n ∧ t = k.arena.scratch b n) (g.arena.slot n a)
      (k.arena.slot n b) := by
  by_cases hn : n < g.arena.capacity
  · have hn' : n < k.arena.capacity := by rwa [h.children.capacity_eq]
    rw [Arena.slot_eq hn, Arena.slot_eq hn']
    exact ⟨rfl, rfl⟩
  · have hnone : ∀ {a : Arena α} {i : Nat}, ¬ n < a.capacity → a.slot n i = .error .outOfRange := by
      intro a i hn
      simp only [Arena.slot, Arena.get, Arena.node?_eq_none_iff.mpr (Nat.not_lt.mp hn)]
      rfl
    rw [hnone hn, hnone (by rwa [h.children.capacity_eq])]
    exact rfl

theorem children_matches (n : NodeId) : Matches Eq (g.arena.children n) (k.arena.children n) := by
  rw [Arena.children, Arena.children, Arena.get, Arena.get]
  rcases hn : g.arena.node? n with _ | node
  · have hn' : k.arena.node? n = none := by
      rw [Arena.node?_eq_none_iff] at hn ⊢
      rwa [h.children.capacity_eq]
    rw [hn']
    exact rfl
  · obtain ⟨node', hn', heq⟩ := h.children.exists_node? hn
    rw [hn']
    exact heq.symm

theorem isVisited_matches (n : NodeId) : Matches Eq (w.isVisited g n) (v.isVisited k n) := by
  rw [isVisited, isVisited, h.allowsRevisits_eq]
  split
  · exact rfl
  · rename_i htag
    have htag : w.visitTag ≠ 0 := by simpa [allowsRevisits] using htag
    refine h.slotIndex_matches.bind fun a b hab => ?_
    refine (h.slot_matches n).bind fun s t hst => ?_
    have := h.visited a b hab.1 hab.2 htag n
    rw [← hst.1, ← hst.2] at this
    change (s.visited == w.visitTag) = (t.visited == v.visitTag)
    rw [Bool.eq_iff_iff, beq_iff_eq, beq_iff_eq, this]

theorem skipVisited_matches (children : List NodeId) (cursor : Nat) :
    Matches Eq (w.skipVisited g children cursor) (v.skipVisited k children cursor) := by
  induction children generalizing cursor with
  | nil => exact rfl
  | cons child children ih =>
    rw [skipVisited, skipVisited]
    refine (h.isVisited_matches child).bind_eq fun b => ?_
    cases b with
    | true => exact ih (cursor + 1)
    | false => exact rfl

/-! #### Writing -/

/-- Both write to the slots of a node, and stay twins if it makes no difference which of them does. -/
theorem modify {a b : Nat} (hw : w.slot = some a) (hv : v.slot = some b) {n : NodeId} (hn : n < g.arena.capacity)
    {f f' : Slot → Slot}
    (hvisited : w.visitTag ≠ 0 → ∀ s t, (s.visited = w.visitTag ↔ t.visited = v.visitTag) →
      ((f s).visited = w.visitTag ↔ (f' t).visited = v.visitTag))
    (hcursor : ∀ s t, s.cursor = t.cursor → (f s).cursor = (f' t).cursor)
    (hparent : ∀ s, (f s).parent = s.parent) (hparent' : ∀ s, (f' s).parent = s.parent) :
    Twins w (g.modify n (·.modifySlot a f)) v (k.modify n (·.modifySlot b f')) where
  rest_eq := h.rest_eq
  slot_iff := h.slot_iff
  tag_iff := h.tag_iff
  children :=
    have hg : Arena.AgreeOn (·.children) g.arena (g.modify n (·.modifySlot a f)).arena := .of_modify fun _ => rfl
    hg.symm.trans (h.children.trans (.of_modify fun _ => rfl))
  visited a' b' ha hb htag m := by
    have hn' : n < k.arena.capacity := by rwa [h.children.capacity_eq]
    obtain rfl : a = a' := Option.some.inj (hw.symm.trans ha)
    obtain rfl : b = b' := Option.some.inj (hv.symm.trans hb)
    rw [Graph.modify, Graph.modify, Arena.scratch_modify_slot hn, Arena.scratch_modify_slot hn']
    by_cases hm : m = n
    · rw [if_pos ⟨hm, rfl⟩, if_pos ⟨hm, rfl⟩]
      exact hvisited htag _ _ (h.visited a b hw hv htag n)
    · rw [if_neg fun hm' => hm hm'.1, if_neg fun hm' => hm hm'.1]
      exact h.visited a b hw hv htag m
  ways a' b' ha hb := by
    have hn' : n < k.arena.capacity := by rwa [h.children.capacity_eq]
    obtain rfl : a = a' := Option.some.inj (hw.symm.trans ha)
    obtain rfl : b = b' := Option.some.inj (hv.symm.trans hb)
    obtain ⟨A, hA, hways⟩ := h.ways a b hw hv
    refine ⟨A, hA, fun m hm => ?_⟩
    obtain ⟨hc, hp, hclosed⟩ := hways m hm
    rw [Graph.modify, Graph.modify, Arena.scratch_modify_slot hn, Arena.scratch_modify_slot hn']
    by_cases hmn : m = n
    · rw [if_pos ⟨hmn, rfl⟩, if_pos ⟨hmn, rfl⟩, hparent, hparent', ← hmn]
      exact ⟨hcursor _ _ hc, hp, hclosed⟩
    · rw [if_neg fun hm' => hmn hm'.1, if_neg fun hm' => hmn hm'.1]
      exact ⟨hc, hp, hclosed⟩

/-- Whether a write succeeds is the same for both. -/
theorem modifySlot_matches_of {n : NodeId} {f f' : Slot → Slot} {S : Graph α → Graph α → Prop}
    (hS : ∀ a b, w.slot = some a → v.slot = some b → n < g.arena.capacity →
      S (g.modify n (·.modifySlot a f)) (k.modify n (·.modifySlot b f'))) :
    Matches S (w.modifySlot g n f) (v.modifySlot k n f') := by
  rcases h.slot_cases with ⟨hw, hv⟩ | ⟨a, b, hw, hv⟩
  · simp only [modifySlot, slotIndex, hw, hv]
    exact rfl
  by_cases hn : n < g.arena.capacity
  · rw [modifySlot_eq hw hn, modifySlot_eq hv (by rwa [h.children.capacity_eq])]
    exact hS a b hw hv hn
  · rw [modifySlot_eq_error hw hn, modifySlot_eq_error hv (by rwa [h.children.capacity_eq])]
    exact rfl

theorem markVisited_matches (n : NodeId) :
    Matches (fun g' k' => Twins w g' v k') (w.markVisited g n) (v.markVisited k n) := by
  rw [markVisited, markVisited, h.allowsRevisits_eq]
  split
  · exact h
  · refine h.modifySlot_matches_of fun a b ha hb hn => ?_
    exact h.modify ha hb hn (fun _ _ _ _ => ⟨fun _ => rfl, fun _ => rfl⟩) (fun _ _ => id) (fun _ => rfl) fun _ => rfl

end Twins

/-! #### Steps -/

/-- The results of steps that twins took in some order. -/
def TwinsIn (mode : Mode) (r r' : Walk × Graph α) : Prop := Twins r.1 r.2 r'.1 r'.2 ∧ r.1.mode = mode

namespace Twins

variable {w v : Walk} {g k : Graph α} (h : Twins w g v k)

include h

/-- Both arrive at a node from the current one, or at a root. -/
theorem arrive_matches {parent : Option NodeId}
    (hparent : ∀ p, parent = some p → w.mode = .depthFirst ∧ w.current = some p) (n : NodeId) :
    Matches (TwinsIn w.mode) (w.arrive g parent n) (v.arrive k parent n) := by
  rw [arrive, arrive]
  refine (h.modifySlot_matches_of (S := fun g' k' =>
    Twins { w with current := some n, stage := .enter } g' { v with current := some n, stage := .enter } k')
    fun a b ha hb hn => ?_).bind fun g' k' htwins => ⟨htwins, rfl⟩
  have hn' : n < k.arena.capacity := by rwa [h.children.capacity_eq]
  have hg : Arena.AgreeOn (·.children) g.arena (g.modify n (·.modifySlot a fun slot =>
    { slot with cursor := 0, parent })).arena := .of_modify fun _ => rfl
  refine ⟨by rw [h.rest_eq], h.slot_iff, h.tag_iff, hg.symm.trans (h.children.trans (.of_modify fun _ => rfl)),
    fun a' b' ha' hb' htag m => ?_, fun a' b' ha' hb' => ?_⟩
  all_goals
    obtain rfl : a = a' := Option.some.inj (ha.symm.trans ha')
    obtain rfl : b = b' := Option.some.inj (hb.symm.trans hb')
    simp only [Graph.modify, Arena.scratch_modify_slot hn, Arena.scratch_modify_slot hn', and_true]
  · by_cases hm : m = n
    · rw [if_pos hm, if_pos hm]
      exact h.visited a b ha hb htag n
    · rw [if_neg hm, if_neg hm]
      exact h.visited a b ha hb htag m
  · -- the ways back lead from the node to the one before and on as they did
    obtain ⟨A, hA, hways⟩ := h.ways a b ha hb
    refine ⟨fun m => m = n ∨ A m, fun _ m hm => Or.inl (Option.some.inj hm).symm, fun m hm => ?_⟩
    by_cases hmn : m = n
    · rw [if_pos hmn, if_pos hmn]
      exact ⟨rfl, rfl, fun p hp => Or.inr (hA (hparent p hp).1 p (hparent p hp).2)⟩
    · rw [if_neg hmn, if_neg hmn]
      obtain ⟨hc, hp, hclosed⟩ := hways m (hm.resolve_left hmn)
      exact ⟨hc, hp, fun p hp => Or.inr (hclosed p hp)⟩

/-- What twins read from the slot of the current node. -/
theorem scratch_eq {n : NodeId} (hmode : w.mode = .depthFirst) (hn : w.current = some n) {a b : Nat}
    (ha : w.slot = some a) (hb : v.slot = some b) :
    (g.arena.scratch a n).cursor = (k.arena.scratch b n).cursor ∧
      (g.arena.scratch a n).parent = (k.arena.scratch b n).parent := by
  obtain ⟨A, hA, hways⟩ := h.ways a b ha hb
  obtain ⟨hc, hp, -⟩ := hways n (hA hmode n hn)
  exact ⟨hc, hp⟩

theorem selectChild_matches (hmode : w.mode = .depthFirst) {n : NodeId} (hn : w.current = some n) :
    Matches (TwinsIn .depthFirst) (w.selectChild g n) (v.selectChild k n) := by
  rw [selectChild, selectChild]
  refine h.slotIndex_matches.bind fun a b hab => ?_
  refine (h.children_matches n).bind_eq fun children => ?_
  refine (h.slot_matches n).bind fun s t hst => ?_
  obtain ⟨rfl, rfl⟩ := hst
  rw [(h.scratch_eq hmode hn hab.1 hab.2).1]
  refine (h.skipVisited_matches _ _).bind_eq fun cursor => ?_
  refine (h.modifySlot_matches_of (S := fun g' k' => Twins w g' v k') fun a b ha hb hn => ?_).bind
    fun g' k' htwins => ⟨htwins.stand rfl (by rw [htwins.rest_eq]) fun _ => Or.inr rfl, hmode⟩
  exact h.modify ha hb hn (fun _ _ _ hvisited => hvisited) (fun _ _ _ => rfl) (fun _ => rfl) fun _ => rfl

theorem depthFirstStep_matches (hmode : w.mode = .depthFirst) {n : NodeId} (hn : w.current = some n) :
    Matches (TwinsIn .depthFirst) (w.depthFirstStep g n) (v.depthFirstStep k n) := by
  rw [depthFirstStep, depthFirstStep, h.stage_eq]
  split
  · exact h.selectChild_matches hmode hn
  · refine h.slotIndex_matches.bind fun a b hab => ?_
    refine (h.slot_matches n).bind fun s t hst => (h.children_matches n).bind_eq fun children => ?_
    obtain ⟨rfl, rfl⟩ := hst
    rw [(h.scratch_eq hmode hn hab.1 hab.2).1]
    refine (Matches.refl _).bind_eq fun child => ?_
    rw [← hmode]
    exact h.arrive_matches (fun p hp => ⟨hmode, hn.trans hp⟩) child
  · refine (h.modifySlot_matches_of (S := fun g' k' => Twins w g' v k') fun a b ha hb hn => ?_).bind
      fun g' k' htwins => htwins.selectChild_matches hmode hn
    exact h.modify ha hb hn (fun _ _ _ hvisited => hvisited) (fun _ _ => congrArg (· + 1)) (fun _ => rfl)
      fun _ => rfl
  · refine (h.modifySlot_matches_of (S := fun g' k' => Twins w g' v k') fun a b ha hb hn => ?_).bind
      fun g' k' htwins => ?_
    · refine h.modify ha hb hn (fun htag s t _ => ?_) (fun _ _ => id) (fun _ => rfl) fun _ => rfl
      have hrevisits : w.allowsRevisits = false := by simpa [allowsRevisits] using htag
      rw [h.allowsRevisits_eq, hrevisits]
      exact ⟨fun _ => rfl, fun _ => rfl⟩
    · refine htwins.slotIndex_matches.bind fun a b hab => ?_
      refine (htwins.slot_matches n).bind fun s t hst => ?_
      obtain ⟨rfl, rfl⟩ := hst
      refine ⟨⟨by rw [htwins.rest_eq, (htwins.scratch_eq hmode hn hab.1 hab.2).2], htwins.slot_iff, htwins.tag_iff,
        htwins.children, htwins.visited, fun a' b' ha hb => ?_⟩, hmode⟩
      -- the ways back are closed under going back, so the node before the current one is on them too
      obtain ⟨A, hA, hways⟩ := htwins.ways a' b' ha hb
      obtain rfl : a = a' := Option.some.inj (hab.1.symm.trans ha)
      exact ⟨A, fun _ m hm => (hways n (hA hmode n hn)).2.2 m hm, hways⟩

theorem depthFirstTurn_matches (hmode : w.mode = .depthFirst) :
    Matches (Turn.Matches (TwinsIn .depthFirst) (TwinsIn .depthFirst)) (depthFirstTurn (w, g))
      (depthFirstTurn (v, k)) := by
  rw [depthFirstTurn, depthFirstTurn]
  simp only [h.current_eq]
  rcases hn : w.current with _ | n
  · exact ⟨h, hmode⟩
  · refine (h.depthFirstStep_matches hmode hn).bind fun r r' hr => ?_
    rw [hr.1.current_eq, hr.1.stops_eq, hr.1.stage_eq]
    split
    · exact hr
    · exact hr

theorem enqueue_matches (children : List NodeId) :
    Matches (TwinsIn w.mode) (w.enqueue g children) (v.enqueue k children) := by
  induction children generalizing w v g k with
  | nil => exact ⟨h, rfl⟩
  | cons child children ih =>
    rw [enqueue, enqueue]
    refine (h.isVisited_matches child).bind_eq fun b => ?_
    cases b with
    | true => exact ih h
    | false =>
      refine (h.markVisited_matches child).bind fun g' k' htwins => ?_
      rw [h.queue_eq]
      exact ih (htwins.stand rfl (by rw [htwins.rest_eq]) fun _ => Or.inr rfl)

theorem breadthFirstNext_matches (hmode : w.mode ≠ .depthFirst) :
    Matches (TwinsIn w.mode) (w.breadthFirstNext g) (v.breadthFirstNext k) := by
  rw [breadthFirstNext, breadthFirstNext, h.queue_eq]
  rcases w.queue.pop? with _ | ⟨n, queue⟩
  · exact ⟨h.stand rfl (by rw [h.rest_eq]) fun _ => Or.inl rfl, rfl⟩
  · refine (h.children_matches n).bind_eq fun children => ?_
    exact (h.stand rfl (by rw [h.rest_eq]) fun hdepth => absurd hdepth hmode).enqueue_matches children

theorem reverseTurn_matches (hmode : w.mode = .reverseTopological) :
    Matches (Turn.Matches (TwinsIn .reverseTopological) (TwinsIn .reverseTopological)) (reverseTurn (w, g))
      (reverseTurn (v, k)) := by
  have hdepth : w.mode ≠ .depthFirst := by simp [hmode]
  rw [reverseTurn, reverseTurn]
  simp only [h.stack_eq]
  rcases w.stack with _ | ⟨⟨n, cursor⟩, stack⟩
  · exact ⟨h.stand rfl (by rw [h.rest_eq]) fun _ => Or.inl rfl, hmode⟩
  refine (h.children_matches n).bind_eq fun children => ?_
  split
  · have hstack : Twins { w with stack } g { v with stack } k := h.stand rfl (by rw [h.rest_eq]) fun _ => Or.inr rfl
    refine (hstack.isVisited_matches n).bind_eq fun b => ?_
    cases b with
    | true => exact ⟨hstack, hmode⟩
    | false =>
      exact (hstack.markVisited_matches n).bind fun g' k' htwins =>
        ⟨htwins.stand rfl (by rw [h.rest_eq]) fun hd => absurd hd hdepth, hmode⟩
  · rename_i child _
    have hstack : Twins { w with stack := (n, cursor + 1) :: stack } g
        { v with stack := (n, cursor + 1) :: stack } k := h.stand rfl (by rw [h.rest_eq]) fun _ => Or.inr rfl
    refine (hstack.isVisited_matches child).bind_eq fun b => ?_
    cases b with
    | true => exact ⟨hstack, hmode⟩
    | false => exact ⟨hstack.stand rfl (by rw [h.rest_eq]) fun _ => Or.inr rfl, hmode⟩

theorem run_matches {mode : Mode} {step : Walk × Graph α → Checked α (Turn (Walk × Graph α) (Walk × Graph α))}
    (hstep : ∀ r r', TwinsIn mode r r' → Matches (Turn.Matches (TwinsIn mode) (TwinsIn mode)) (step r) (step r'))
    (hmode : w.mode = mode) :
    Matches (TwinsIn mode) (Loop.run α (fun (_, g) => .ok (Graph.walkExponent g)) step (w, g))
      (Loop.run α (fun (_, g) => .ok (Graph.walkExponent g)) step (v, k)) := by
  refine Matches.run (I := TwinsIn mode) (fun r r' hr => ?_) hstep ⟨h, hmode⟩
  exact hr.1.exponent_eq.symm

/-- **A step of twins.** -/
theorem next_matches : Matches (TwinsIn w.mode) (w.next g) (v.next k) := by
  rw [next, next, h.mode_eq]
  rcases hmode : w.mode
  · exact h.run_matches (fun r r' hr => hr.1.depthFirstTurn_matches hr.2) hmode
  · exact (h.breadthFirstNext_matches (by simp [hmode])).imp fun _ _ hr => ⟨hr.1, hr.2.trans hmode⟩
  · exact h.run_matches (fun r r' hr => hr.1.reverseTurn_matches hr.2) hmode

omit h in
theorem requireDepthFirst_matches (hmode : v.mode = w.mode) (request : DepthFirstOnly) :
    Matches (fun _ _ => w.mode = .depthFirst) (w.requireDepthFirst request : Checked α Unit)
      (v.requireDepthFirst request) := by
  rw [requireDepthFirst, requireDepthFirst, hmode]
  split
  · assumption
  · exact rfl

theorem restart_matches (root : NodeId) : Matches (TwinsIn .depthFirst) (w.restart g root) (v.restart k root) := by
  rw [restart, restart]
  refine (requireDepthFirst_matches h.mode_eq _).bind fun _ _ hmode => ?_
  refine (h.arrive_matches (fun _ hp => by cases hp) root).bind fun r r' hr => ?_
  dsimp only
  rw [hr.1.stops_eq]
  split
  · exact ⟨hr.1, hr.2.trans hmode⟩
  · exact hr.1.next_matches.imp fun _ _ hr' => ⟨hr'.1, hr'.2.trans (hr.2.trans hmode)⟩

theorem skip_matches : Matches (TwinsIn .depthFirst) (w.skip g) (v.skip k) := by
  have hstage : ∀ stage, Twins { w with stage } g { v with stage } k := fun _ =>
    h.stand rfl (by rw [h.rest_eq]) fun _ => Or.inr rfl
  rw [skip, skip]
  refine (requireDepthFirst_matches h.mode_eq _).bind fun _ _ hmode => ?_
  have hnext : ∀ stage, Matches (TwinsIn .depthFirst) (next { w with stage } g) (next { v with stage } k) :=
    fun stage => (hstage stage).next_matches.imp fun _ _ hr => ⟨hr.1, hr.2.trans hmode⟩
  rw [h.stage_eq]
  cases w.stage with
  | visitingChild => exact hnext _
  | leave => exact rfl
  | enter | visitedChild =>
    dsimp only
    by_cases hstops : w.stops.contains .leave = true
    · rw [if_pos hstops, if_pos (h.stops_eq ▸ hstops)]
      exact ⟨hstage _, hmode⟩
    · rw [if_neg hstops, if_neg (h.stops_eq ▸ hstops)]
      exact hnext _

theorem setOut_matches (root : Option NodeId) (mode : Mode) :
    Matches (fun r r' => Twins r.1 r.2 r'.1 r'.2) (w.setOut g root mode) (v.setOut k root mode) := by
  cases root with
  | none => exact h
  | some root =>
    cases mode with
    | depthFirst => exact (h.restart_matches root).imp fun _ _ hr => hr.1
    | breadthFirst =>
      refine (h.markVisited_matches root).bind fun g' k' htwins => ?_
      have hqueue : Twins { w with queue := w.queue.push root } g' { v with queue := v.queue.push root } k' := by
        rw [h.queue_eq]
        exact htwins.stand rfl (by rw [htwins.rest_eq]) fun _ => Or.inr rfl
      exact hqueue.next_matches.imp fun _ _ hr => hr.1
    | reverseTopological =>
      have hstack : Twins { w with stack := [(root, 0)] } g { v with stack := [(root, 0)] } k :=
        h.stand rfl (by rw [h.rest_eq]) fun _ => Or.inr rfl
      exact hstack.next_matches.imp fun _ _ hr => hr.1

/-! #### Requests -/

theorem currentSlot_matches {n : NodeId} (hmode : w.mode = .depthFirst) (hn : w.current = some n) :
    Matches (fun s t => s.cursor = t.cursor ∧ s.parent = t.parent) (w.currentSlot g) (v.currentSlot k) := by
  simp only [currentSlot, currentNode, h.current_eq, hn]
  refine h.slotIndex_matches.bind fun a b hab => ?_
  refine (h.slot_matches n).imp fun s t hst => ?_
  rw [hst.1, hst.2]
  exact h.scratch_eq hmode hn hab.1 hab.2

theorem sight_matches : Matches Eq (w.sight g) (v.sight k) := by
  rw [sight, sight, h.current_eq, h.mode_eq]
  rcases hn : w.current with _ | n
  · exact rfl
  dsimp only
  by_cases hmode : w.mode = .depthFirst
  · rw [if_pos hmode, if_pos hmode]
    refine Matches.map (R := Eq) ?_ fun _ _ heq => congrArg _ heq
    rw [report_eq hmode hn, report_eq (h.mode_eq.trans hmode) (h.current_eq.trans hn), h.stage_eq]
    refine (h.currentSlot_matches hmode hn).bind fun s t hst => ?_
    rw [hst.1, hst.2]
    exact rfl
  · rw [if_neg hmode, if_neg hmode]
    exact rfl

/-- Both start: they get a new tag each, or none, and the slots they need. Nothing bears the new tags, and from
nowhere no ways lead back. -/
theorem of_readied {mode : Mode} {revisits : Bool} {w₁ v₁ : Walk} {g₁ k₁ : Graph α}
    (htags : g.TagsGiven) (htags' : k.TagsGiven) (hw : Readied w g mode revisits w₁ g₁)
    (hv : Readied v k mode revisits v₁ k₁) : Twins w₁ g₁ v₁ k₁ where
  rest_eq := by rw [hv.rest_eq, hw.rest_eq, h.rest_eq]
  slot_iff := by
    have hslot := hw.slot
    have hslot' := hv.slot
    split at hslot
    · rw [if_pos ‹_›] at hslot'
      obtain ⟨i, hi, -⟩ := hslot
      obtain ⟨j, hj, -⟩ := hslot'
      rw [hi, hj]
      simp
    · rw [if_neg ‹_›] at hslot'
      rw [hslot.1, hslot'.1]
  tag_iff := by
    have htag := hw.tag
    have htag' := hv.tag
    cases revisits with
    | true => exact ⟨fun _ => htag'.1, fun _ => htag.1⟩
    | false =>
      rw [htag.1, htag'.1]
      simp
  children := by
    rw [hw.arena_eq, hv.arena_eq]
    exact h.children
  visited a b _ _ hne n := by
    have htag := hw.tag
    have htag' := hv.tag
    cases revisits with
    | true => exact absurd htag.1 hne
    | false =>
      -- neither tag was given out before
      rw [htag.1, htag'.1, hw.arena_eq, hv.arena_eq]
      have hn := Graph.tagsGiven_iff.mp htags a n
      have hn' := Graph.tagsGiven_iff.mp htags' b n
      exact ⟨fun heq => by omega, fun heq => by omega⟩
  ways _ _ _ _ := by
    refine ⟨fun _ => False, fun _ n hn => ?_, nofun⟩
    rw [hw.rest_eq] at hn
    cases hn

/-- Both are dropped. -/
theorem newWalks (hidentity : k.identity = g.identity) : Twins g.newWalk (w.finish g) k.newWalk (v.finish k) where
  rest_eq := by rw [Graph.newWalk, Graph.newWalk, hidentity]
  slot_iff := Iff.rfl
  tag_iff := Iff.rfl
  children := by
    have harena : ∀ {w : Walk} {g : Graph α}, (w.finish g).arena = g.arena := by
      intro w g
      rw [finish, releaseSlot]
      split
      · rfl
      · rfl
    rw [harena, harena]
    exact h.children
  visited _ _ hnone := nomatch hnone
  ways _ _ hnone := nomatch hnone

end Twins

/-- Where an answer says that the walk has moved. -/
def Answer.sight? : Answer → Option Sight
  | .moved s => some s
  | .done | .word _ => none

/-- The outcomes of the same request to twins. -/
def TwinsServed (r r' : (Walk × Graph α) × Answer) : Prop :=
  Twins r.1.1 r.1.2 r'.1.1 r'.1.2 ∧ r.2.sight? = r'.2.sight?

theorem TwinsServed.of_matches {mode : Mode} {x y : Checked α (Walk × Graph α)} (h : Matches (TwinsIn mode) x y) :
    Matches TwinsServed (x >>= arrived) (y >>= arrived) := by
  refine h.bind fun r r' hr => hr.1.sight_matches.bind fun s t hst => ⟨hr.1, ?_⟩
  exact congrArg some hst

/-- **Any request to twins.** The second walk holds a slot or can have one; the first goes the same way unless it is
refused one. -/
theorem Twins.serve {w v : Walk} {g k : Graph α} (h : Twins w g v k) (htags : g.TagsGiven) (htags' : k.TagsGiven)
    (hhome : w.home = g.identity) (hhome' : v.home = k.identity) (hroom : v.slot ≠ none ∨ k.walks.lowestFree? ≠ none)
    (r : Request) :
    w.serve g r = .error .slotsExhausted ∨ Matches TwinsServed (w.serve g r) (v.serve k r) := by
  cases r with
  | start root mode revisits =>
    rw [Walk.serve, Walk.serve, start_eq_ready, start_eq_ready]
    have hspec := ready_spec mode revisits hhome
    rcases hready : w.ready g mode revisits with e | ⟨w₁, g₁⟩
    · rw [hready] at hspec
      rw [hspec.1]
      exact Or.inl rfl
    · rw [hready] at hspec
      obtain ⟨v₁, k₁, hready', hspec'⟩ := exists_ready mode revisits hhome' hroom
      rw [hready']
      refine Or.inr (((h.of_readied htags htags' hspec hspec').setOut_matches root mode).bind fun r r' hr => ?_)
      exact hr.sight_matches.bind fun s t hst => ⟨hr, congrArg some hst⟩
  | restart root => exact Or.inr (TwinsServed.of_matches (h.restart_matches root))
  | next => exact Or.inr (TwinsServed.of_matches h.next_matches)
  | skip => exact Or.inr (TwinsServed.of_matches h.skip_matches)
  | select stops =>
    have hrest : Twins { w with stops } g { v with stops } k :=
      ⟨by rw [h.rest_eq], h.slot_iff, h.tag_iff, h.children, h.visited, h.ways⟩
    exact Or.inr ⟨hrest, rfl⟩
  | write n word =>
    refine Or.inr (Matches.bind (R := fun g' k' => Twins w g' v k') ?_ fun g' k' htwins => ⟨htwins, rfl⟩)
    refine h.modifySlot_matches_of fun a b ha hb hn => ?_
    exact h.modify ha hb hn (fun _ _ _ hvisited => hvisited) (fun _ _ => id) (fun _ => rfl) fun _ => rfl
  | read n =>
    refine Or.inr (Matches.bind (R := fun _ _ => True) ?_ fun _ _ _ => ⟨h, rfl⟩)
    refine h.slotIndex_matches.bind fun a b _ => ?_
    exact (h.slot_matches n).bind fun _ _ _ => trivial
  | drop =>
    have hidentity : k.identity = g.identity := by rw [← hhome, ← hhome', h.home_eq]
    exact Or.inr ⟨h.newWalks hidentity, rfl⟩

end Walk

end IntervalDag
