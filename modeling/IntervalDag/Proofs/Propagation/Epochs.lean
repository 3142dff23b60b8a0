import IntervalDag.Proofs.Analysis.Evaluation

/-!
# Epochs and freshness

Every tag on a node was given out before: an activity is from the current revision of the bounds or an
earlier one, and bounds propagated onto a node are from the current round or an earlier one
(`Graph.Dated`). Where an activity is fresh, those of the operands are as well (`Graph.FreshClosed`), since
operands are refreshed first.

`Graph.Advanced` says what no step of propagation breaks, and `Graph.Propagated` adds that no walk is left
open. They are proved here for the changes to a graph that such steps are made of.
-/

namespace IntervalDag.Graph

variable {α : Type} {g g₁ g₂ : Graph α}

/-- The epochs of a graph and the tags on its nodes were given out, the tags no later than the epochs. -/
structure Dated (g : Graph α) : Prop where
  boundsEpoch_pos : 0 < g.boundsEpoch
  boundsEpoch_le : g.boundsEpoch ≤ g.epochs.last
  roundEpoch_le : g.roundEpoch ≤ g.epochs.last
  roundBoundsEpoch_le : g.roundBoundsEpoch ≤ g.boundsEpoch
  activityTag_le : ∀ n node, g.arena.node? n = some node → node.activityTag ≤ g.boundsEpoch
  propTag_le : ∀ n node, g.arena.node? n = some node → node.propTag ≤ g.roundEpoch

/-- The activity of a node was computed from the current variable bounds. -/
def IsFreshAt (g : Graph α) (n : NodeId) : Prop :=
  ∃ node, g.arena.node? n = some node ∧ node.activityTag = g.boundsEpoch

/-- The operands of nodes in use are fresh where the nodes are. -/
def FreshClosed (g : Graph α) : Prop :=
  ∀ n c, g.arena.isAlive n = true → g.arena.IsOperand c n → g.IsFreshAt n → g.IsFreshAt c

/-- A graph after steps of propagation, when walks are left aside. -/
structure Advanced (g g' : Graph α) : Prop where
  terms : SameTerms g g'
  dated : g'.Dated
  boundsEpoch_le : g.boundsEpoch ≤ g'.boundsEpoch
  roundEpoch_le : g.roundEpoch ≤ g'.roundEpoch
  roundBoundsEpoch_le : g.roundBoundsEpoch ≤ g'.roundBoundsEpoch
  freshClosed : g.FreshClosed → g'.FreshClosed

/-- A graph after steps of propagation that left no walk open. -/
structure Propagated (g g' : Graph α) : Prop extends Advanced g g', Passed g g'

/-- Entries that keep their tags or get the tags of the day stay tagged. -/
theorem Dated.of_entries (h : g.Dated)
    (hbounds : g.boundsEpoch ≤ g₁.boundsEpoch ∧ g₁.boundsEpoch ≤ g₁.epochs.last)
    (hround : g.roundEpoch ≤ g₁.roundEpoch ∧ g₁.roundEpoch ≤ g₁.epochs.last)
    (hroundBounds : g₁.roundBoundsEpoch ≤ g₁.boundsEpoch)
    (hentries : ∀ n node₁, g₁.arena.node? n = some node₁ → ∃ node, g.arena.node? n = some node ∧
      (node₁.activityTag = node.activityTag ∨ node₁.activityTag = g₁.boundsEpoch) ∧
      (node₁.propTag = node.propTag ∨ node₁.propTag = g₁.roundEpoch)) : g₁.Dated where
  boundsEpoch_pos := Nat.lt_of_lt_of_le h.boundsEpoch_pos hbounds.1
  boundsEpoch_le := hbounds.2
  roundEpoch_le := hround.2
  roundBoundsEpoch_le := hroundBounds
  activityTag_le n node₁ hn := by
    obtain ⟨node, hnode, htag, -⟩ := hentries n node₁ hn
    rcases htag with htag | htag
    · exact htag ▸ Nat.le_trans (h.activityTag_le n node hnode) hbounds.1
    · exact Nat.le_of_eq htag
  propTag_le n node₁ hn := by
    obtain ⟨node, hnode, -, htag⟩ := hentries n node₁ hn
    rcases htag with htag | htag
    · exact htag ▸ Nat.le_trans (h.propTag_le n node hnode) hround.1
    · exact Nat.le_of_eq htag

/-- Freshness is read off the tags. -/
theorem isFreshAt_eq (htags : Arena.AgreeOn (·.activityTag) g.arena g₁.arena)
    (hepoch : g₁.boundsEpoch = g.boundsEpoch) : g₁.IsFreshAt = g.IsFreshAt := by
  funext n
  refine propext ⟨fun ⟨node₁, hnode₁, htag⟩ => ?_, fun ⟨node, hnode, htag⟩ => ?_⟩
  · obtain ⟨node, hnode, heq⟩ := htags.symm.exists_node? hnode₁
    exact ⟨node, hnode, by rw [heq, htag, hepoch]⟩
  · obtain ⟨node₁, hnode₁, heq⟩ := htags.exists_node? hnode
    exact ⟨node₁, hnode₁, by rw [heq, htag, hepoch]⟩

/-- A graph in which a round was opened. No node is in line. -/
def opened (g : Graph α) : Graph α :=
  { g.beginRound with
    arena := { g.arena with nodes := g.arena.nodes.map fun node => { node with queued := false } } }

theorem agreeOn_opened (g : Graph α) {β : Type} (f : Node α → β)
    (hf : ∀ node, f { node with queued := false } = f node) : Arena.AgreeOn f g.arena g.opened.arena := by
  intro n
  have hnode : g.opened.arena.node? n = (g.arena.node? n).map fun node => { node with queued := false } :=
    Array.getElem?_map
  rw [hnode, Option.map_map]
  exact congrArg (fun k => Option.map k (g.arena.node? n)) (funext hf)

namespace Advanced

theorem refl (h : g.Dated) : Advanced g g := ⟨.refl g, h, Nat.le_refl _, Nat.le_refl _, Nat.le_refl _, id⟩

theorem trans (h₁ : Advanced g g₁) (h₂ : Advanced g₁ g₂) : Advanced g g₂ where
  terms := h₁.terms.trans h₂.terms
  dated := h₂.dated
  boundsEpoch_le := Nat.le_trans h₁.boundsEpoch_le h₂.boundsEpoch_le
  roundEpoch_le := Nat.le_trans h₁.roundEpoch_le h₂.roundEpoch_le
  roundBoundsEpoch_le := Nat.le_trans h₁.roundBoundsEpoch_le h₂.roundBoundsEpoch_le
  freshClosed hfresh := h₂.freshClosed (h₁.freshClosed hfresh)

/-- Steps that keep the tags of nodes and do not raise the epoch of the bounds. -/
theorem of_agree (h : g.Dated) (hterms : SameTerms g g₁)
    (htags : Arena.AgreeOn (fun node => (node.activityTag, node.propTag)) g.arena g₁.arena)
    (hepoch : g₁.boundsEpoch = g.boundsEpoch) (hlast : g.epochs.last ≤ g₁.epochs.last)
    (hround : g.roundEpoch ≤ g₁.roundEpoch ∧ g₁.roundEpoch ≤ g₁.epochs.last)
    (hroundBounds : g.roundBoundsEpoch ≤ g₁.roundBoundsEpoch ∧ g₁.roundBoundsEpoch ≤ g.boundsEpoch) :
    Advanced g g₁ := by
  refine ⟨hterms, h.of_entries ⟨Nat.le_of_eq hepoch.symm, ?_⟩ hround ?_ fun n node₁ hn => ?_,
    Nat.le_of_eq hepoch.symm, hround.1, hroundBounds.1, fun hfresh n c => ?_⟩
  · rw [hepoch]
    exact Nat.le_trans h.boundsEpoch_le hlast
  · rw [hepoch]
    exact hroundBounds.2
  · obtain ⟨node, hnode, heq⟩ := htags.symm.exists_node? hn
    rw [Prod.mk.injEq] at heq
    exact ⟨node, hnode, Or.inl heq.1.symm, Or.inl heq.2.symm⟩
  · rw [hterms.isAlive_eq, hterms.children.isOperand_eq, isFreshAt_eq (htags.map Prod.fst) hepoch]
    exact hfresh n c

/-- Walks keep their own tags only. -/
theorem of_walked (h : g.Dated) (hwalked : Walked g g₁) : Advanced g g₁ := by
  refine of_agree h (.of_walked hwalked)
    (hwalked.agree.map fun node => (node.activityTag, node.propTag)) ?_ ?_ ⟨?_, ?_⟩ ⟨?_, ?_⟩
  all_goals rw [hwalked.rest_eq]
  · exact h.roundEpoch_le
  · exact h.roundBoundsEpoch_le

/-- Values are cached beside tags. -/
theorem of_valued (h : g.Dated) (hvalued : Valued g g₁) : Advanced g g₁ := by
  refine of_agree h hvalued.sameTerms
    (hvalued.agree.map fun node => (node.activityTag, node.propTag)) ?_ ?_ ⟨?_, ?_⟩ ⟨?_, ?_⟩
  all_goals rw [hvalued.rest_eq]
  · exact h.roundEpoch_le
  · exact h.roundBoundsEpoch_le

/-- Handlers may report. -/
theorem of_reported (h : g.Dated) (reported : Op → Bool) :
    Advanced g { g with operators := ⟨g.operators.handler, reported⟩ } :=
  of_agree h ⟨.refl _ _, rfl, rfl, rfl, rfl, rfl⟩ (.refl _ _) rfl (Nat.le_refl _)
    ⟨Nat.le_refl _, h.roundEpoch_le⟩ ⟨Nat.le_refl _, h.roundBoundsEpoch_le⟩

/-- An entry may get bounds of the current round, and also a fresh activity if the operands are fresh. -/
theorem of_modify (h : g.Dated) {n : NodeId} {f : Node α → Node α} (hterm : ∀ node, (f node).term = node.term)
    (hprop : ∀ node, (f node).propTag = node.propTag ∨ (f node).propTag = g.roundEpoch)
    (hact : (∀ node, (f node).activityTag = node.activityTag) ∨
      (∀ node, (f node).activityTag = g.boundsEpoch) ∧ ∀ c, g.arena.IsOperand c n → g.IsFreshAt c) :
    Advanced g (g.modify n f) ∧ ∀ m, g.IsFreshAt m → (g.modify n f).IsFreshAt m := by
  have hterms : SameTerms g (g.modify n f) := .of_modify hterm
  have hentry : ∀ m node₁, (g.modify n f).arena.node? m = some node₁ →
      ∃ node, g.arena.node? m = some node ∧ (node₁ = node ∨ m = n ∧ node₁ = f node) := by
    intro m node₁ hm
    rw [Graph.modify, Arena.node?_modify] at hm
    split at hm
    · obtain ⟨node, hnode, rfl⟩ := Option.map_eq_some_iff.mp hm
      exact ⟨node, hnode, Or.inr ⟨‹_›, rfl⟩⟩
    · exact ⟨node₁, hm, Or.inl rfl⟩
  have htag : ∀ node, (f node).activityTag = node.activityTag ∨ (f node).activityTag = g.boundsEpoch :=
    fun node => hact.imp (fun hkeep => hkeep node) fun hset => hset.1 node
  -- an activity that was fresh stays so, as the epoch is the same
  have hmono : ∀ m, g.IsFreshAt m → (g.modify n f).IsFreshAt m := by
    rintro m ⟨node, hm, hfresh⟩
    by_cases hmn : m = n
    · refine ⟨f node, by rw [Graph.modify, Arena.node?_modify, if_pos hmn, hm]; rfl, ?_⟩
      exact (htag node).elim (fun hkeep => hkeep.trans hfresh) id
    · exact ⟨node, by rw [Graph.modify, Arena.node?_modify, if_neg hmn, hm], hfresh⟩
  refine ⟨⟨hterms, h.of_entries ⟨Nat.le_refl _, h.boundsEpoch_le⟩ ⟨Nat.le_refl _, h.roundEpoch_le⟩
    h.roundBoundsEpoch_le fun m node₁ hm => ?_, Nat.le_refl _, Nat.le_refl _, Nat.le_refl _,
    fun hclosed m c halive hop hfresh => ?_⟩, hmono⟩
  · obtain ⟨node, hnode, rfl | ⟨-, rfl⟩⟩ := hentry m node₁ hm
    · exact ⟨node₁, hnode, Or.inl rfl, Or.inl rfl⟩
    · exact ⟨node, hnode, htag node, hprop node⟩
  · rw [hterms.isAlive_eq] at halive
    rw [hterms.children.isOperand_eq] at hop
    refine hmono c ?_
    obtain ⟨node₁, hm, hfresh⟩ := hfresh
    obtain ⟨node, hnode, rfl | ⟨rfl, rfl⟩⟩ := hentry m node₁ hm
    · exact hclosed m c halive hop ⟨node₁, hnode, hfresh⟩
    · rcases hact with hkeep | ⟨-, hops⟩
      · exact hclosed m c halive hop ⟨node, hnode, (hkeep node).symm.trans hfresh⟩
      · exact hops c hop

/-- A change of variable bounds leaves no activity fresh. -/
theorem bumpBoundsEpoch (h : g.Dated) : Advanced g g.bumpBoundsEpoch := by
  have hlt : g.boundsEpoch < g.epochs.last + 1 := Nat.lt_succ_of_le h.boundsEpoch_le
  refine ⟨⟨.refl _ _, rfl, rfl, rfl, rfl, rfl⟩, h.of_entries ⟨Nat.le_of_lt hlt, Nat.le_refl _⟩
    ⟨Nat.le_refl _, Nat.le_succ_of_le h.roundEpoch_le⟩
    (Nat.le_trans h.roundBoundsEpoch_le (Nat.le_of_lt hlt)) fun n node hn => ⟨node, hn, Or.inl rfl, Or.inl rfl⟩,
    Nat.le_of_lt hlt, Nat.le_refl _, Nat.le_refl _, ?_⟩
  rintro - n c - - ⟨node, hn, hfresh⟩
  have hle := h.activityTag_le n node hn
  rw [hfresh] at hle
  exact absurd hle (Nat.not_le_of_lt hlt)

/-- A new round. -/
theorem opened (h : g.Dated) : Advanced g g.opened :=
  of_agree h ⟨g.agreeOn_opened Node.term fun _ => rfl, rfl, rfl, rfl, rfl, rfl⟩
    (g.agreeOn_opened _ fun _ => rfl) rfl (Nat.le_succ _)
    ⟨Nat.le_succ_of_le h.roundEpoch_le, Nat.le_refl _⟩ ⟨h.roundBoundsEpoch_le, Nat.le_refl _⟩

end Advanced

namespace Propagated

theorem refl (h : g.Dated) (htags : g.TagsGiven) : Propagated g g := ⟨.refl h, .refl htags⟩

theorem trans (h₁ : Propagated g g₁) (h₂ : Propagated g₁ g₂) : Propagated g g₂ where
  toAdvanced := h₁.toAdvanced.trans h₂.toAdvanced
  toPassed := h₁.toPassed.trans h₂.toPassed

/-- Steps that take no part in walks. -/
theorem of_sameWay (h : Advanced g g₁) (htags : g.TagsGiven) (hsame : SameWay g g₁) : Propagated g g₁ :=
  ⟨h, .of_sameWay htags hsame⟩

end Propagated

end IntervalDag.Graph
