import IntervalDag.Proofs.Walk.ReverseTopological
import IntervalDag.Proofs.Walk.Scratch

/-!
# Guests

A pass over a graph that starts a walk of its own and ends it is a guest there: other walks may be open, and they
find what they wrote to their scratch slots. `Graph.Passed` says so of the graph after the pass, and `Walk.Guest` of
the time while the pass goes on.
-/

namespace IntervalDag

variable {α : Type} {g₀ g g' : Graph α} {w w' : Walk}

/-- The slots that are taken are as they were, and all tags are still known. -/
structure Graph.Passed (g g' : Graph α) : Prop where
  tagsGiven : g'.TagsGiven
  taken_eq : g'.walks.taken = g.walks.taken
  last_le : g.walks.visitTags.last ≤ g'.walks.visitTags.last
  scratch_eq : ∀ i ∈ g.walks.taken, ∀ n, g'.arena.scratch i n = g.arena.scratch i n

namespace Graph.Passed

variable {g₁ g₂ : Graph α}

theorem refl (htags : g.TagsGiven) : Passed g g := ⟨htags, rfl, Nat.le_refl _, fun _ _ _ => rfl⟩

theorem trans (h₁ : Passed g g₁) (h₂ : Passed g₁ g₂) : Passed g g₂ where
  tagsGiven := h₂.tagsGiven
  taken_eq := h₂.taken_eq.trans h₁.taken_eq
  last_le := h₁.last_le.trans h₂.last_le
  scratch_eq i hi n := (h₂.scratch_eq i (h₁.taken_eq ▸ hi) n).trans (h₁.scratch_eq i hi n)

theorem of_sameWay (htags : g.TagsGiven) (hsame : g.SameWay g') : Passed g g' where
  tagsGiven := hsame.tagsGiven htags
  taken_eq := by rw [hsame.walks_eq]
  last_le := by rw [hsame.walks_eq]
  scratch_eq i _ n := by rw [(hsame.agree.map Prod.snd).scratch_eq]

end Graph.Passed

/-- A walk is under way that began on `g₀`, with a slot that was free there. -/
structure Walk.Guest (g₀ : Graph α) (w : Walk) (g : Graph α) : Prop where
  tagsGiven : g.TagsGiven
  visitTag_le : w.visitTag ≤ g.walks.visitTags.last
  last_le : g₀.walks.visitTags.last ≤ g.walks.visitTags.last
  slot : ∃ i, w.slot = some i ∧ i ∉ g₀.walks.taken ∧ g.walks.taken = i :: g₀.walks.taken
  scratch_eq : ∀ i ∈ g₀.walks.taken, ∀ n, g.arena.scratch i n = g₀.arena.scratch i n

namespace Walk.Guest

/-- A guest takes steps. -/
theorem moved (h : Guest g₀ w g) (hmoved : Moved w g w' g') : Guest g₀ w' g' where
  tagsGiven := hmoved.tagsGiven h.tagsGiven h.visitTag_le
  visitTag_le := by
    rw [hmoved.visitTag_eq, hmoved.walks_eq]
    exact h.visitTag_le
  last_le := hmoved.walks_eq ▸ h.last_le
  slot := by
    rw [hmoved.slot_eq, hmoved.walks_eq]
    exact h.slot
  scratch_eq i hi n := by
    obtain ⟨j, hj, hfree, -⟩ := h.slot
    refine (hmoved.scratch_eq i n fun hij => ?_).trans (h.scratch_eq i hi n)
    rw [hj] at hij
    exact hfree (Option.some.inj hij ▸ hi)

/-- What is not kept for walks may change. -/
theorem sameWay (h : Guest g₀ w g) (hsame : g.SameWay g') : Guest g₀ w g' where
  tagsGiven := hsame.tagsGiven h.tagsGiven
  visitTag_le := hsame.walks_eq ▸ h.visitTag_le
  last_le := hsame.walks_eq ▸ h.last_le
  slot := hsame.walks_eq ▸ h.slot
  scratch_eq i hi n := by
    rw [(hsame.agree.map Prod.snd).scratch_eq]
    exact h.scratch_eq i hi n

/-- A word is put into the own slot of a node. -/
theorem setUserData (h : Guest g₀ w g) {n : NodeId} {word : UInt64} (hrun : w.setUserData g n word = .ok g') :
    Guest g₀ w g' := by
  obtain ⟨i, hi, hn, rfl⟩ := modifySlot_eq_ok_iff.mp hrun
  refine ⟨?_, h.visitTag_le, h.last_le, h.slot, fun j hj m => ?_⟩
  · have htags := Graph.tagsGiven_iff.mp h.tagsGiven
    refine Graph.tagsGiven_iff.mpr fun j m => ?_
    rw [Graph.modify, Arena.scratch_modify_slot hn]
    split
    · exact htags i n
    · exact htags j m
  · obtain ⟨j', hj', hfree, -⟩ := h.slot
    rw [Graph.modify, Arena.scratch_modify_slot hn, if_neg, h.scratch_eq j hj m]
    rintro ⟨-, rfl⟩
    rw [hi] at hj'
    exact hfree (Option.some.inj hj' ▸ hj)

/-- A guest takes a slot and a tag, and sets out. -/
theorem meets_start (htags : g.TagsGiven) (hhome : w.home = g.identity) (hslot : w.slot = none) {mode : Mode}
    {revisits : Bool} (htracks : tracks mode revisits = true) (root : Option NodeId) :
    Meets (w.start g root mode revisits) () (fun _ => True) fun r _ => Guest g r.1 r.2 ∧ g.Walked r.2 := by
  rw [start_eq_ready]
  have hready := ready_spec mode revisits hhome
  rcases hrun : w.ready g mode revisits with e | ⟨w₁, g₁⟩
  · trivial
  rw [hrun] at hready
  refine moves_setOut.imp fun r _ hr => ⟨moved ?_ hr, hready.walked.trans hr.walked⟩
  have hslot₁ := hready.slot
  rw [if_pos htracks] at hslot₁
  obtain ⟨i, hi, hkept | htaken⟩ := hslot₁
  · rw [hslot] at hkept
    cases hkept.1
  · exact ⟨hready.tagsGiven htags, hready.visitTag_le, hready.last_le, ⟨i, hi, htaken.2⟩, fun j _ n => by
      rw [hready.arena_eq]⟩

/-- A guest leaves. -/
theorem passed_finish (h : Guest g₀ w g) : g₀.Passed (w.finish g) := by
  obtain ⟨i, hi, -, htaken⟩ := h.slot
  have hrun : w.finish g = { g with walks := g.walks.giveBack i } := by rw [finish, releaseSlot, hi]
  rw [hrun]
  refine ⟨h.tagsGiven, ?_, h.last_le, h.scratch_eq⟩
  change g.walks.taken.erase i = _
  rw [htaken, List.erase_cons_head]

/-- Leaving changes nothing on nodes. -/
theorem walked_finish : g.Walked (w.finish g) := by
  rw [finish, releaseSlot]
  split
  · exact ⟨.refl _ _, rfl, rfl⟩
  · exact .refl g

end Walk.Guest

/-- Going on to the end of a walk keeps what visits and steps keep. -/
theorem Walk.meets_visitAll {σ : Type} {visit : Walk → NodeId → Graph α × σ → Checked α (Graph α × σ)}
    {I : Walk → Graph α → Prop}
    (hvisit : ∀ w n g s, I w g → Meets (visit w n (g, s)) () (fun _ => True) fun r _ => I w r.1)
    (hnext : ∀ w g, I w g → Meets (w.next g) () (fun _ => True) fun r _ => I r.1 r.2) (h : I w g) (s : σ) :
    Meets (w.visitAll visit g s) () (fun _ => True) fun r _ => I r.1 r.2.1 := by
  refine meets_run_of_diverged (I := fun r _ => I r.1 r.2.1) trivial (fun _ _ _ => meets_pure.mpr rfl)
    (fun r _ hr => ?_) h
  obtain ⟨w, g, s⟩ := r
  dsimp only
  split
  · exact meets_pure.mpr hr
  · refine (hvisit w _ g s hr).bind fun r _ hr => ?_
    exact (hnext w r.1 hr).bind fun r' _ hr' => meets_pure.mpr hr'

end IntervalDag
