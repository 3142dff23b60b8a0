import IntervalDag.Proofs.Walk.DepthFirst
import IntervalDag.Proofs.Walk.Postorder
import IntervalDag.Proofs.Walk.Twins
import IntervalDag.Proofs.Walk.Visits

/-!
# Courses of walks

The course of a walk is the list of the nodes that it is yet to be at. A caller does not divert a walk by what it
changes between two steps, as long as operands stay and so does what walks wrote to scratch slots, words of callers
excepted (`Walk.Follows.next`). So a pass that goes on to the end of a walk can be followed along its course
(`Walk.Follows.meets_visitAll`, `Walk.Follows.visits`).

Reverse topological walks and depth-first walks that stop where nodes are left have courses of one kind: they visit
all nodes at or below the root, operands first (`Walk.exists_departs_reverseTopological`,
`Walk.exists_departs_depthFirst`). `Walk.Departs` is what the two kinds of passes have in common.
-/

namespace IntervalDag

variable {α σ : Type}

/-! ### Courses -/

/-- What a walk goes by in a scratch slot. -/
def Slot.track (slot : Slot) : Nat × Nat × Option NodeId := (slot.visited, slot.cursor, slot.parent)

/-- Two graphs have the same operands, and walks go by the same on both. -/
structure Graph.SameTracks (g g' : Graph α) : Prop where
  children : Arena.AgreeOn (·.children) g.arena g'.arena
  track_eq : ∀ i n, (g'.arena.scratch i n).track = (g.arena.scratch i n).track

namespace Graph.SameTracks

variable {g g' : Graph α}

theorem visited_eq (h : SameTracks g g') (i : Nat) (n : NodeId) :
    (g'.arena.scratch i n).visited = (g.arena.scratch i n).visited := congrArg Prod.fst (h.track_eq i n)

theorem cursor_eq (h : SameTracks g g') (i : Nat) (n : NodeId) :
    (g'.arena.scratch i n).cursor = (g.arena.scratch i n).cursor := congrArg (·.2.1) (h.track_eq i n)

theorem parent_eq (h : SameTracks g g') (i : Nat) (n : NodeId) :
    (g'.arena.scratch i n).parent = (g.arena.scratch i n).parent := congrArg (·.2.2) (h.track_eq i n)

theorem exponent_eq (h : SameTracks g g') : g'.walkExponent = g.walkExponent := by
  rw [walkExponent, walkExponent, h.children.edgeCount_eq]

theorem of_sameWay (h : g.SameWay g') : SameTracks g g' where
  children := h.children
  track_eq i n := by rw [(h.agree.map Prod.snd).scratch_eq]

/-- A word of a caller is nothing that walks go by. -/
theorem of_word {n : NodeId} (hn : n < g.arena.capacity) (i : Nat) (word : UInt64) :
    SameTracks g (g.modify n (·.modifySlot i fun slot => { slot with userData := word })) where
  children := .of_modify fun _ => rfl
  track_eq j m := by
    rw [Graph.modify, Arena.scratch_modify_slot hn]
    split_ifs with hm
    · rw [hm.1, hm.2]
      rfl
    · rfl

end Graph.SameTracks

namespace Walk

/-- The nodes that a walk is at from now on, if nothing is changed in between. -/
inductive Course : Walk → Graph α → List NodeId → Prop where
  | ended {w : Walk} {g : Graph α} (h : w.current = none) : Course w g []
  | step {w w₁ : Walk} {g g₁ : Graph α} {n : NodeId} {ns : List NodeId} (hn : w.current = some n)
      (hnext : w.next g = .ok (w₁, g₁)) (hrest : Course w₁ g₁ ns) : Course w g (n :: ns)

/-- A walk is in step with one that has the course. -/
def Follows (v : Walk) (k : Graph α) (ns : List NodeId) : Prop := ∃ w g, Course w g ns ∧ Twins w g v k

variable {w v w' : Walk} {g k g' k' : Graph α} {n : NodeId} {ns ms : List NodeId}

/-- The graph of one walk changes where it does not matter. -/
theorem Twins.of_sameTracks (h : Twins w g v k) (hsame : k.SameTracks k') : Twins w g v k' where
  rest_eq := h.rest_eq
  slot_iff := h.slot_iff
  tag_iff := h.tag_iff
  children := h.children.trans hsame.children
  visited a b ha hb htag n := by
    rw [hsame.visited_eq]
    exact h.visited a b ha hb htag n
  ways a b ha hb := by
    simp only [hsame.cursor_eq, hsame.parent_eq]
    exact h.ways a b ha hb

theorem Course.follows (h : Course w g ns) : Follows w g ns := ⟨w, g, h, .refl w g⟩

namespace Follows

theorem current_eq (h : Follows v k ns) : v.current = ns.head? := by
  obtain ⟨w, g, hcourse, htwins⟩ := h
  rw [htwins.current_eq]
  cases hcourse with
  | ended hnone => exact hnone
  | step hn => exact hn

/-- **A step.** The walk goes on along its course, though words of callers and what walks do not look at were
changed. -/
theorem next (h : Follows v k (n :: ns)) (hsame : k.SameTracks k') :
    ∃ v₁ k₁, v.next k' = .ok (v₁, k₁) ∧ Follows v₁ k₁ ns ∧ Moved v k' v₁ k₁ := by
  obtain ⟨w, g, hcourse, htwins⟩ := h
  cases hcourse with
  | step hn hnext hrest =>
    have hmatches := (htwins.of_sameTracks hsame).next_matches
    have hmoves := moves_next (w := v) (g := k')
    rw [hnext] at hmatches
    rcases hrun : v.next k' with e | ⟨v₁, k₁⟩
    · rw [hrun] at hmatches
      cases hmatches
    · rw [hrun] at hmatches hmoves
      exact ⟨v₁, k₁, rfl, ⟨_, _, hrest, hmatches.1⟩, hmoves⟩

end Follows

/-! ### Passes -/

section Passes

variable {visit : Walk → NodeId → Graph α × σ → Checked α (Graph α × σ)} {s s' : σ}

/-- A pass visits the nodes `ns` on its way, or up to its end. -/
inductive Visits (visit : Walk → NodeId → Graph α × σ → Checked α (Graph α × σ)) :
    Walk → Graph α → σ → List NodeId → Walk → Graph α → σ → Prop where
  | none (w : Walk) (g : Graph α) (s : σ) : Visits visit w g s [] w g s
  | visit {w w₁ w' : Walk} {g g₁ g₂ g' : Graph α} {s s₁ s' : σ} {n : NodeId} {ns : List NodeId}
      (hn : w.current = some n) (hvisit : visit w n (g, s) = .ok (g₁, s₁)) (hnext : w.next g₁ = .ok (w₁, g₂))
      (hrest : Visits visit w₁ g₂ s₁ ns w' g' s') : Visits visit w g s (n :: ns) w' g' s'

/-- **Visits** come as the course has them. -/
theorem Follows.visits (h : Follows w g ns)
    (hvisit : ∀ w n g s, Meets (visit w n (g, s)) () (fun _ => True) fun r _ => g.SameTracks r.1)
    (hvisits : Visits visit w g s ms w' g' s') : ∃ rest, ns = ms ++ rest ∧ Follows w' g' rest := by
  induction hvisits generalizing ns with
  | none => exact ⟨ns, rfl, h⟩
  | @visit w w₁ w' g g₁ g₂ g' s s₁ s' n ms hn hrun hnext _ ih =>
    have hsame := hvisit w n g s
    rw [hrun] at hsame
    cases ns with
    | nil =>
      rw [h.current_eq] at hn
      cases hn
    | cons m ns =>
      obtain rfl : m = n := Option.some.inj (h.current_eq.symm.trans hn)
      obtain ⟨v₁, k₁, hnext', hfollows, -⟩ := h.next hsame
      rw [hnext] at hnext'
      cases hnext'
      obtain ⟨rest, rfl, hrest⟩ := ih hfollows
      exact ⟨rest, rfl, hrest⟩

theorem Visits.trans {w₁ : Walk} {g₁ : Graph α} {s₁ : σ} (h : Visits visit w g s ns w₁ g₁ s₁)
    (h' : Visits visit w₁ g₁ s₁ ms w' g' s') : Visits visit w g s (ns ++ ms) w' g' s' := by
  induction h with
  | none => exact h'
  | visit hn hrun hnext _ ih => exact .visit hn hrun hnext (ih h')

/-- A pass that comes to an end has visited nodes up to there. -/
theorem exists_visits_of_visitAll (hrun : w.visitAll visit g s = .ok (w', g', s')) :
    ∃ ns, Visits visit w g s ns w' g' s' ∧ w'.current = .none := by
  have hmeets : Meets (w.visitAll visit g s) () (fun _ => True) fun r _ =>
      ∃ ns, Visits visit w g s ns r.1 r.2.1 r.2.2 ∧ r.1.current = .none := by
    refine meets_run_of_diverged (I := fun r _ => ∃ ns, Visits visit w g s ns r.1 r.2.1 r.2.2) trivial
      (fun _ _ _ => meets_pure.mpr rfl) (fun r _ hr => ?_) ⟨[], .none w g s⟩
    obtain ⟨w₁, g₁, s₁⟩ := r
    obtain ⟨ns, hns⟩ := hr
    rcases hn : w₁.current with _ | n
    · simp only [hn]
      exact meets_pure.mpr ⟨ns, hns, hn⟩
    · simp only [hn]
      rcases hvisit : visit w₁ n (g₁, s₁) with e | ⟨g₂, s₂⟩
      · trivial
      rcases hnext : w₁.next g₂ with e | ⟨w₂, g₃⟩
      · refine meets_bind.mpr (meets_bind.mpr ?_)
        rw [hnext]
        trivial
      · refine meets_bind.mpr (meets_bind.mpr ?_)
        rw [hnext]
        exact ⟨ns ++ [n], hns.trans (.visit hn hvisit hnext (.none w₂ g₃ s₂))⟩
  rw [hrun] at hmeets
  exact hmeets

/-- A pass visits none but the nodes of a kind and each of them at most once, and all of them if it comes to an end. -/
structure VisitsOnce (visit : Walk → NodeId → Graph α × σ → Checked α (Graph α × σ)) (w : Walk) (g : Graph α) (s : σ)
    (P : NodeId → Prop) : Prop where
  once : ∀ {ns w' g' s'}, Visits visit w g s ns w' g' s' → ns.Nodup ∧ ∀ n ∈ ns, P n
  all : ∀ {w' g' s'}, w.visitAll visit g s = .ok (w', g', s') →
    ∃ ns, Visits visit w g s ns w' g' s' ∧ ∀ n, P n → n ∈ ns

/-- **Passes.** What holds of the nodes that were visited, last one first, and is handed on by every visit, holds of
the whole course in the end. -/
theorem Follows.meets_visitAll {root : NodeId} (h : Follows w g ns) {operands : NodeId → List NodeId}
    (hns : OperandsFirst operands root [] ns) (hlen : ns.length < 2 ^ g.walkExponent) {E : Fault α → Prop}
    {I : List NodeId → Walk → Graph α → σ → Prop} (hI : I [] w g s)
    (hvisit : ∀ {left n rest w g s}, I left w g s → (∀ c ∈ operands n, c ∈ left) →
      Pending operands (· ∈ left) root n rest →
      Meets (visit w n (g, s)) () E fun r _ =>
        g.SameTracks r.1 ∧ ∀ w' g', Moved w r.1 w' g' → I (n :: left) w' g' r.2) :
    Meets (w.visitAll visit g s) () E fun r _ => I ns.reverse r.1 r.2.1 r.2.2 := by
  -- the nodes ahead of the walk bound the turns to come
  refine meets_run (I := fun k r _ => ∃ left ahead, Follows r.1 r.2.1 ahead ∧ OperandsFirst operands root left ahead ∧
    I left r.1 r.2.1 r.2.2 ∧ ahead.reverse ++ left = ns.reverse ∧ ahead.length = k ∧ k ≤ ns.length ∧
    r.2.1.walkExponent = g.walkExponent) (fun k r _ hr => ?_) (fun k r _ hr => ?_)
    ⟨[], ns, h, hns, hI, List.append_nil _, rfl, Nat.le_refl _, rfl⟩
  · obtain ⟨left, ahead, -, -, -, -, -, hk, hexp⟩ := hr
    exact meets_pure.mpr ⟨rfl, hexp ▸ Nat.lt_of_le_of_lt hk hlen⟩
  · obtain ⟨v, k₁, s₁⟩ := r
    obtain ⟨left, ahead, hfollows, hahead, hI, hall, hlength, hk, hexp⟩ := hr
    cases hahead with
    | done =>
      have hn : v.current = .none := hfollows.current_eq
      simp only [hn]
      rw [List.reverse_nil, List.nil_append] at hall
      exact meets_pure.mpr (hall ▸ hI)
    | @leave _ ahead n rest hnew hops hpending hrest =>
      have hn : v.current = some n := hfollows.current_eq
      simp only [hn]
      refine (hvisit hI hops hpending).bind fun r _ hr => ?_
      obtain ⟨hsame, hI'⟩ := hr
      obtain ⟨v₁, k₂, hnext, hfollows', hmoved⟩ := hfollows.next hsame
      rw [hnext]
      refine meets_pure.mpr ⟨ahead.length, ?_, n :: left, ahead, hfollows', hrest, hI' _ _ hmoved, ?_, rfl, ?_, ?_⟩
      · rw [← hlength]
        exact Nat.lt_succ_self _
      · rw [← hall, List.reverse_cons, List.append_assoc]
        rfl
      · exact Nat.le_trans (Nat.le_of_lt (hlength ▸ Nat.lt_succ_self _)) hk
      · rw [hmoved.exponent_eq, hsame.exponent_eq, hexp]

end Passes

end Walk

/-! ### Reverse topological courses -/

/-- From where it is, a reverse topological walk visits what is left below its root. -/
theorem Visiting.exists_course {root : NodeId} {slot : Nat} {g : Graph α} {w : Walk} {left : List NodeId}
    (h : Visiting root slot g w (· ∈ left)) (hacc : Acc g.arena.IsOperand root)
    (hinside : ∀ n, g.arena.Below n root → n < g.arena.capacity) :
    ∃ ns, w.Course g ns ∧ OperandsFirst g.arena.operands root left ns ∧ (root ∈ left ∨ root ∈ ns) := by
  induction hturns : w.turns g slot using Nat.strong_induction_on generalizing w g left with
  | _ k ih =>
    rcases hn : w.current with _ | n
    · exact ⟨[], .ended hn, .done left, Or.inl ((h.atEnd hn root).mpr (.refl _ root))⟩
    · obtain ⟨-, hnew, hops, hpending, -⟩ := h.atNode n hn
      obtain ⟨⟨w₁, g₁⟩, hnext, hvisiting, hwalked, -, hlt⟩ := meets_noFault_iff.mp
        (h.meets_next hn (Or.inl ⟨hacc, hinside⟩) ⟨.refl _ _, rfl⟩)
      have hvisiting : Visiting root slot g₁ w₁ (· ∈ n :: left) := by
        simpa only [List.mem_cons] using hvisiting
      have hchildren := hwalked.children
      obtain ⟨ns, hcourse, hns, hroot⟩ := ih (w₁.turns g₁ slot) (hturns ▸ hlt hacc) hvisiting
        (by rwa [hchildren.isOperand_eq]) (by rwa [hchildren.below_eq, hchildren.capacity_eq]) rfl
      rw [hchildren.operands_eq] at hns
      refine ⟨n :: ns, .step hn hnext hcourse, .leave hnew hops hpending hns, ?_⟩
      rw [List.mem_cons] at hroot ⊢
      tauto

/-! ### Depth-first courses -/

theorem Walk.current_of_report {w : Walk} {g : Graph α} {r : Report} (h : w.report g = .ok r) :
    w.current = some r.node := by
  obtain ⟨n, hn, h⟩ := Checked.bind_eq_ok.mp h
  obtain ⟨stage, -, h⟩ := Checked.bind_eq_ok.mp h
  have hnode : r.node = n := by
    dsimp only at h
    split_ifs at h
    all_goals
      obtain ⟨child, -, h⟩ := Checked.bind_eq_ok.mp h
      obtain ⟨parent, -, h⟩ := Checked.bind_eq_ok.mp h
      cases h
      rfl
  rw [currentNode] at hn
  split at hn
  · rename_i hcurrent
    rw [hcurrent, hnode, Except.ok.inj hn]
  · cases hn

/-- A caller who never skips sees the walk take its course. -/
theorem Walk.Tours.course {skips : List Report → Bool} (hskips : ∀ shown, skips shown = false) {w w' : Walk}
    {g g' : Graph α} {shown shown' : List Report} (h : Tours skips w g shown w' g' shown') :
    ∃ reports, shown' = shown ++ reports ∧ w.Course g (reports.map Report.node) := by
  induction h with
  | ended hnone => exact ⟨[], (List.append_nil _).symm, .ended hnone⟩
  | @go w w₁ w' g g₁ g' shown shown' r hreport hstep _ ih =>
    obtain ⟨reports, rfl, hcourse⟩ := ih
    rw [if_neg (by simp [hskips])] at hstep
    exact ⟨r :: reports, List.append_assoc _ _ _, .step (current_of_report hreport) hstep hcourse⟩

/-! ### Setting out -/

namespace Walk

/-- A walk has set out from a root, to visit the nodes `ns`, which are all below the root, operands first. -/
structure Departs (g : Graph α) (root : NodeId) (w : Walk) (g₁ : Graph α) (ns : List NodeId) : Prop where
  course : w.Course g₁ ns
  postorder : Postorder g.arena.operands root ns
  guest : Guest g w g₁
  walked : g.Walked g₁

section

variable {g : Graph α} (htags : g.TagsGiven) (hacyclic : g.arena.Acyclic) (hinside : g.arena.OperandsInside)
  (hslot : g.walks.lowestFree? ≠ none) {root : NodeId} (hroot : root < g.arena.capacity)

include htags hacyclic hinside hslot hroot

/-- **Reverse topological walks** without revisits. -/
theorem exists_departs_reverseTopological :
    ∃ w g₁ ns, g.newWalk.start g (some root) .reverseTopological false = .ok (w, g₁) ∧ Departs g root w g₁ ns := by
  have hbelow : ∀ n, g.arena.Below n root → n < g.arena.capacity := by
    intro n hn
    rcases Relation.ReflTransGen.cases_head hn with rfl | ⟨m, hop, -⟩
    · exact hroot
    · exact hinside n m hop
  have hacc := hacyclic.apply root
  obtain ⟨⟨w, g₁⟩, hstart, slot, hvisiting, hbegun⟩ := meets_noFault_iff.mp
    (meets_start htags (Or.inl ⟨hacc, hbelow⟩) (Or.inl hslot))
  have hchildren := hbegun.walked.children
  have hvisiting : Visiting root slot g₁ w (· ∈ []) := by simpa only [List.not_mem_nil] using hvisiting
  obtain ⟨ns, hcourse, hns, hmem⟩ := hvisiting.exists_course (by rwa [hchildren.isOperand_eq])
    (by rwa [hchildren.below_eq, hchildren.capacity_eq])
  rw [hchildren.operands_eq] at hns
  obtain ⟨hguest, hwalked⟩ := (Guest.meets_start htags rfl rfl rfl (some root)).of_observe
    (r := ((w, g₁), ())) (by rw [hstart]; rfl)
  exact ⟨w, g₁, ns, hstart, hcourse, ⟨hns, hmem.resolve_left List.not_mem_nil⟩, hguest, hwalked⟩

/-- **Depth-first walks** without revisits that stop where nodes are left. -/
theorem exists_departs_depthFirst :
    ∃ w g₁ ns, { g.newWalk with stops := .ofList [.leave] }.start g (some root) .depthFirst false = .ok (w, g₁) ∧
      Departs g root w g₁ ns := by
  let p : Plan := ⟨.ofList [.leave], false, fun _ => false⟩
  obtain ⟨w, g₁, w', g', hstart, htours⟩ := exists_tours (w := { g.newWalk with stops := .ofList [.leave] }) (p := p)
    htags hacyclic hinside rfl (Or.inr hslot) rfl hroot
  obtain ⟨shown, heq, hcourse⟩ := htours.course fun _ => rfl
  have hpending : Pending g.arena.operands (· ∈ Progress.start.left) root root [] := .root
  obtain ⟨reports, hretires, hmem⟩ := Plan.retires_search (p := p) rfl (fun _ => rfl) hacyclic none root
    List.not_mem_nil hpending
  have hshown : shown.map Report.node = Plan.nodesAt .leave reports := by
    have htrace : (p.search hacyclic none root .start).trace = reports := hretires.trace_eq
    rw [List.nil_append, htrace] at heq
    rw [← heq, Plan.shown, Plan.nodesAt]
    congr 1
    refine List.filter_congr fun r _ => ?_
    cases r.stage <;> rfl
  have hleft := hretires.left_eq
  rw [hleft, List.mem_append, List.mem_reverse] at hmem
  obtain ⟨hguest, hwalked⟩ := (Guest.meets_start htags rfl rfl rfl (some root)).of_observe
    (r := ((w, g₁), ())) (by rw [hstart]; rfl)
  refine ⟨w, g₁, _, hstart, hcourse, ?_, hguest, hwalked⟩
  rw [hshown]
  exact ⟨hretires.operandsFirst, hmem.resolve_right List.not_mem_nil⟩

end

namespace Departs

variable {g g₁ : Graph α} {root : NodeId} {w : Walk} {ns : List NodeId} (h : Departs g root w g₁ ns)
  {visit : Walk → NodeId → Graph α × σ → Checked α (Graph α × σ)} {s : σ}

include h

/-- **A whole pass.** What is handed on by every visit, of a node whose operands were visited, holds in the end of all
nodes at or below the root. -/
theorem meets_visitAll {E : Fault α → Prop} {I : List NodeId → Walk → Graph α → σ → Prop} (hI : I [] w g₁ s)
    (hvisit : ∀ {left n rest w g₁ s}, I left w g₁ s → (∀ c ∈ g.arena.operands n, c ∈ left) →
      Pending g.arena.operands (· ∈ left) root n rest →
      Meets (visit w n (g₁, s)) () E fun r _ =>
        g₁.SameTracks r.1 ∧ ∀ w' g', Moved w r.1 w' g' → I (n :: left) w' g' r.2) :
    Meets (w.visitAll visit g₁ s) () E fun r _ =>
      ∃ left, (∀ n, n ∈ left ↔ g.arena.Below n root) ∧ I left r.1 r.2.1 r.2.2 := by
  have hlen : ns.length < 2 ^ g₁.walkExponent := by
    have hle := h.postorder.length_le
    have hpow : g.arena.edgeCount < 2 ^ g.arena.edgeCount := Nat.lt_two_pow_self
    rw [Graph.walkExponent, h.walked.children.edgeCount_eq, Nat.pow_add]
    omega
  refine (h.course.follows.meets_visitAll h.postorder.operandsFirst hlen hI hvisit).imp fun r _ hr => ?_
  refine ⟨ns.reverse, fun n => ?_, hr⟩
  rw [List.mem_reverse, h.postorder.mem_iff]

/-- **Visits.** A pass visits each node at or below the root once. -/
theorem visitsOnce (hvisit : ∀ w n g s, Meets (visit w n (g, s)) () (fun _ => True) fun r _ => g.SameTracks r.1) :
    VisitsOnce visit w g₁ s (g.arena.Below · root) := by
  have hnodup := h.postorder.operandsFirst.nodup.1
  have hmem := h.postorder.mem_iff
  refine ⟨fun hvisits => ?_, fun {w' g' s'} hrun => ?_⟩
  · obtain ⟨rest, rfl, -⟩ := h.course.follows.visits hvisit hvisits
    exact ⟨(List.nodup_append.mp hnodup).1, fun n hn => (hmem n).mp (List.mem_append_left _ hn)⟩
  · obtain ⟨ms, hvisits, hnone⟩ := exists_visits_of_visitAll hrun
    obtain ⟨rest, rfl, hfollows⟩ := h.course.follows.visits hvisit hvisits
    rw [hfollows.current_eq, List.head?_eq_none_iff] at hnone
    rw [hnone, List.append_nil] at hmem
    exact ⟨ms, hvisits, fun n hn => (hmem n).mpr hn⟩

end Departs

end Walk

end IntervalDag
