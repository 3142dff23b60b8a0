import IntervalDag.Proofs.Propagation.Settling
import IntervalDag.Proofs.Propagation.Workspace
import IntervalDag.Scalar.Binary64

/-!
# Rounds

Opening a round drops the bounds that were propagated in earlier ones, but not what they did to activities.
`tighten` narrows a usable activity in place, and a pass meets the activities that it computes with the bounds
of its round. The tag of an activity tells neither. A pass that keeps fresh activities is therefore the same as
one that computes all of them again exactly where every fresh activity is the range of its node
(`Workspace.agree_iff_current`), and there are workspaces where it is not (`Workspace.not_forall_agree`).
-/

namespace IntervalDag

variable {σ α : Type} [Scalar α]

/-- What a caller sees of a forward pass at the start of a new round: the activity and whether there is a
contradiction, or nothing if the pass meets a fault. -/
def Propagation.answer [BoundStore σ α] (s : Propagation σ α) (root : NodeId) (force : Bool) :
    Option (Interval α × Bool) :=
  let pass : PropagationM σ α (Forwarded α) := do
    beginRound
    forward root force
  match pass.run s with
  | .ok f _ => some (f.activity, f.infeasible)
  | .error _ _ => none

namespace Graph

/-- If the activity of a node is fresh, and none below it is empty, then it is the range over the operands'
activities, where one empty interval is as good as another. -/
def Current (g : Graph α) (vars : VarId → Interval α) (n : NodeId) : Prop :=
  ∀ node, g.arena.node? n = some node → g.isFresh node = true →
    (∀ m, Relation.TransGen g.arena.IsOperand m n → (g.activityAt m).isEmpty = false) →
    ∃ x, g.rangeOver vars node.kind (node.children.map g.activityAt) = .ok x ∧
      (node.activity = x ∨ node.activity.isEmpty = true ∧ x.isEmpty = true)

namespace Settles

variable {g g' : Graph α} {vars : VarId → Interval α} {force : Bool} {n root : NodeId} {r r' : Settled α}

/-- Another graph in which all is the same that matters to a pass. -/
theorem of_agree (h : Settles g vars force n r)
    (hagree : Arena.AgreeOn (fun node => (node.kind, node.children, node.activity, node.activityTag))
      g.arena g'.arena)
    (hepoch : g'.boundsEpoch = g.boundsEpoch) (hhandler : g'.handlerFor = g.handlerFor) :
    Settles g' vars force n r := by
  induction h with
  | node ops hn _ ih =>
    rename_i node _
    obtain ⟨node', hn', heq⟩ := hagree.exists_node? hn
    simp only [Prod.mk.injEq] at heq
    obtain ⟨hkind, hchildren, hactivity, htag⟩ := heq
    have hown : g.settleOwn vars force node = g'.settleOwn vars force node' := by
      funext operands
      simp only [settleOwn, isFresh, rangeOver, hepoch, hhandler, hkind, hactivity, htag]
      rfl
    rw [hown, ← hchildren]
    exact .node ops hn' fun c hc => ih c (hchildren ▸ hc)

/-- A fresh node keeps the activity that it has. -/
theorem settleOwn_of_fresh {node : Node α} (hn : g.arena.node? n = some node) (hfresh : g.IsFreshAt n)
    (operands : List (Interval α)) :
    g.settleOwn vars false node operands = .ofInterval (g.activityAt n) := by
  obtain ⟨node', hn', htag⟩ := hfresh
  rw [hn] at hn'
  cases hn'
  have hkept : (false || !g.isFresh node) = false := by simp [isFresh, htag]
  rw [settleOwn, hkept, activityAt, hn]
  rfl

/-- A fresh node keeps its activity if none at or below it is empty. -/
theorem eq_range_of_fresh (h : Settles g vars false n r) (hclosed : g.FreshClosed)
    (halive : ∀ m, g.arena.Below m n → g.arena.isAlive m = true) (hfresh : g.IsFreshAt n)
    (hnonempty : ∀ m, g.arena.Below m n → (g.activityAt m).isEmpty = false) :
    r = .range (g.activityAt n) := by
  induction h with
  | node ops hn _ ih =>
    rename_i n node _
    have hop : ∀ c ∈ node.children, g.arena.IsOperand c n := fun c hc => by
      rwa [Arena.isOperand_iff hn]
    have hops : ∀ c ∈ node.children, ops c = .range (g.activityAt c) := fun c hc =>
      ih c hc (fun m hm => halive m (hm.trans (hop c hc).below))
        (hclosed n c (halive n (.refl _ _)) (hop c hc) hfresh) fun m hm => hnonempty m (hm.trans (hop c hc).below)
    rw [List.map_congr_left hops, Settled.combine_map_range, settleOwn_of_fresh hn hfresh, Settled.ofInterval,
      if_neg (by simp [hnonempty n (.refl _ _)])]

/-- A fresh node that has a range keeps its activity, and none at or below it is empty. -/
theorem nonempty_of_fresh (h : Settles g vars false n r) (hclosed : g.FreshClosed)
    (halive : ∀ m, g.arena.Below m n → g.arena.isAlive m = true) (hfresh : g.IsFreshAt n)
    {x : Interval α} (hr : r = .range x) :
    x = g.activityAt n ∧ ∀ m, g.arena.Below m n → (g.activityAt m).isEmpty = false := by
  induction h generalizing x with
  | node ops hn _ ih =>
    rename_i n node _
    have hop : ∀ c ∈ node.children, g.arena.IsOperand c n := fun c hc => by
      rwa [Arena.isOperand_iff hn]
    rcases Settled.combine_cases (node.children.map ops) (g.settleOwn vars false node) with
      ⟨xs, hxs, hown⟩ | ⟨bad, -, hbad, hall⟩
    · rw [hown, settleOwn_of_fresh hn hfresh, Settled.ofInterval] at hr
      split at hr
      · cases hr
      rename_i hnonempty
      refine ⟨(Settled.range.inj hr).symm, fun m hm => ?_⟩
      rcases Arena.below_iff.mp hm with rfl | ⟨c, hc, hmc⟩
      · simpa using hnonempty
      · have hmem : c ∈ node.children := by rwa [Arena.isOperand_iff hn] at hc
        have hrange : ops c ∈ xs.map Settled.range := hxs ▸ List.mem_map_of_mem hmem
        obtain ⟨y, -, hy⟩ := List.mem_map.mp hrange
        exact (ih c hmem (fun m hm => halive m (hm.trans hc.below))
          (hclosed n c (halive n (.refl _ _)) hc hfresh) hy.symm).2 m hmc
    · rw [hall] at hr
      exact absurd hr (hbad x)

/-- Where keeping and computing again come to the same everywhere below, an activity is current. -/
theorem current_of_agree (halive : ∀ m, g.arena.Below m n → g.arena.isAlive m = true) (hclosed : g.FreshClosed)
    (hagree : ∀ m, g.arena.Below m n → ∃ r, Settles g vars false m r ∧ Settles g vars true m r) :
    g.Current vars n := by
  intro node hn hfresh hnonempty
  have hfresh' : g.IsFreshAt n := ⟨node, hn, by simpa [isFresh] using hfresh⟩
  -- the operands keep their activities, and by agreement are given the same ones again
  have hops : ∀ force, ∀ c ∈ node.children, Settles g vars force c (.range (g.activityAt c)) := by
    intro force c hc
    have hop : g.arena.IsOperand c n := (Arena.isOperand_iff hn).mpr hc
    obtain ⟨r, hkeep, hagain⟩ := hagree c hop.below
    have hr := hkeep.eq_range_of_fresh hclosed (fun m hm => halive m (hm.trans hop.below))
      (hclosed n c (halive n (.refl _ _)) hop hfresh') fun m hm => hnonempty m (Relation.TransGen.tail' hm hop)
    cases force with
    | false => exact hr ▸ hkeep
    | true => exact hr ▸ hagain
  have hself : ∀ force, Settles g vars force n
      (g.settleOwn vars force node (node.children.map g.activityAt)) := by
    intro force
    rw [← Settled.combine_map_range node.children g.activityAt (g.settleOwn vars force node)]
    exact .node _ hn (hops force)
  obtain ⟨r, hkeep, hagain⟩ := hagree n (.refl _ _)
  have heq := ((hself true).unique hagain).trans (hkeep.unique (hself false))
  rw [settleOwn_of_fresh hn hfresh', settleOwn, Bool.true_or, if_pos rfl, activityAt, hn] at heq
  rcases hrange : g.rangeOver vars node.kind (node.children.map g.activityAt) with e | x
  · rw [hrange] at heq
    exact absurd heq.symm (Settled.ofInterval_ne_fault _)
  · rw [hrange] at heq
    exact ⟨x, rfl, Settled.ofInterval_eq_iff.mp heq.symm⟩

/-- Over operands that settled, a node with a current activity comes to the same when it is computed again. -/
theorem combine_eq_of_current {node : Node α} {ops : NodeId → Settled α}
    (halive : ∀ m, g.arena.Below m n → g.arena.isAlive m = true) (hclosed : g.FreshClosed)
    (hn : g.arena.node? n = some node) (hops : ∀ c ∈ node.children, Settles g vars false c (ops c))
    (hcurrent : g.Current vars n) :
    Settled.combine (node.children.map ops) (g.settleOwn vars true node) =
      .combine (node.children.map ops) (g.settleOwn vars false node) := by
  rcases hfresh : g.isFresh node with _ | _
  · have hown : g.settleOwn vars true node = g.settleOwn vars false node := by
      funext operands
      simp only [settleOwn, hfresh, Bool.not_false, Bool.or_true, if_true]
    rw [hown]
  have hfresh' : g.IsFreshAt n := ⟨node, hn, by simpa [isFresh] using hfresh⟩
  rcases Settled.combine_cases (node.children.map ops) (g.settleOwn vars false node) with
    ⟨xs, hxs, -⟩ | ⟨bad, -, -, hall⟩
  · -- all operands were given ranges, so these are their activities
    have hranges : ∀ c ∈ node.children, ops c = .range (g.activityAt c) ∧
        ∀ m, g.arena.Below m c → (g.activityAt m).isEmpty = false := by
      intro c hc
      have hop : g.arena.IsOperand c n := (Arena.isOperand_iff hn).mpr hc
      have hrange : ops c ∈ xs.map Settled.range := hxs ▸ List.mem_map_of_mem hc
      obtain ⟨x, -, hx⟩ := List.mem_map.mp hrange
      obtain ⟨rfl, hnonempty⟩ := (hops c hc).nonempty_of_fresh hclosed
        (fun m hm => halive m (hm.trans hop.below)) (hclosed n c (halive n (.refl _ _)) hop hfresh') hx.symm
      exact ⟨hx.symm, hnonempty⟩
    obtain ⟨x, hx, heq⟩ := hcurrent node hn hfresh fun m hm => by
      obtain ⟨c, hmc, hc⟩ := Relation.TransGen.tail'_iff.mp hm
      exact (hranges c ((Arena.isOperand_iff hn).mp hc)).2 m hmc
    rw [List.map_congr_left fun c hc => (hranges c hc).1, Settled.combine_map_range,
      Settled.combine_map_range, settleOwn_of_fresh hn hfresh', settleOwn, Bool.true_or, if_pos rfl, hx,
      activityAt, hn]
    exact (Settled.ofInterval_eq_iff.mpr heq).symm
  · rw [hall, hall]

/-- Where all activities below are current, keeping and computing again come to the same. -/
theorem agree_of_current (hacc : Acc g.arena.IsOperand n)
    (halive : ∀ m, g.arena.Below m n → g.arena.isAlive m = true) (hclosed : g.FreshClosed)
    (hcurrent : ∀ m, g.arena.Below m n → g.Current vars m) :
    ∃ r, Settles g vars false n r ∧ Settles g vars true n r := by
  induction hacc with
  | intro n hacc ih =>
    obtain ⟨r, hkeep⟩ : ∃ r, Settles g vars false n r := exists_of_acc (.intro n hacc) fun m hm =>
      Arena.lt_capacity_of_isAlive (halive m hm)
    refine ⟨r, hkeep, ?_⟩
    cases hkeep with
    | node ops hn hops =>
      rw [← combine_eq_of_current halive hclosed hn hops (hcurrent n (.refl _ _))]
      refine .node ops hn fun c hc => ?_
      have hop : g.arena.IsOperand c n := (Arena.isOperand_iff hn).mpr hc
      obtain ⟨r, hkeep, hagain⟩ := ih c hop (fun m hm => halive m (hm.trans hop.below))
        fun m hm => hcurrent m (hm.trans hop.below)
      exact (hops c hc).unique hkeep ▸ hagain

/-- **Keeping and computing again.** On nodes in use, where fresh activities lie above fresh ones, they come to
the same at and below a root exactly if all activities there are current. -/
theorem eq_iff_current (hacc : Acc g.arena.IsOperand root)
    (halive : ∀ m, g.arena.Below m root → g.arena.isAlive m = true) (hclosed : g.FreshClosed) :
    (∀ n, g.arena.Below n root → ∃ r, Settles g vars false n r ∧ Settles g vars true n r) ↔
      ∀ n, g.arena.Below n root → g.Current vars n := by
  have halive' : ∀ n, g.arena.Below n root → ∀ m, g.arena.Below m n → g.arena.isAlive m = true :=
    fun n hn m hm => halive m (hm.trans hn)
  constructor
  · intro hagree n hn
    exact current_of_agree (halive' n hn) hclosed fun m hm => hagree m (hm.trans hn)
  · intro hcurrent n hn
    exact agree_of_current (Arena.acc_of_below hacc hn) (halive' n hn) hclosed fun m hm => hcurrent m (hm.trans hn)

end Settles

end Graph

/-- **A pass at the start of a round** answers with what its root settles to, and leaves the activities that the
nodes below it settle to. -/
theorem Propagation.meets_pass [BoundStore σ α] {s : Propagation σ α} {root : NodeId} {force : Bool}
    {r : Settled α} (hdated : s.graph.Dated) (htags : s.graph.TagsGiven) (hslot : s.graph.walks.taken = [])
    (hacc : Acc s.graph.arena.IsOperand root)
    (halive : ∀ m, s.graph.arena.Below m root → s.graph.arena.isAlive m = true)
    (hroot : s.graph.Settles (BoundStore.bounds s.store) force root r) :
    Meets (do beginRound; forward root force : PropagationM σ α (Forwarded α)) s (fun _ => r = .fault) fun f s' =>
      r.answer = some (f.activity, f.infeasible) ∧ (f.infeasible = false → ∀ n, s.graph.arena.Below n root →
        ∃ node, s'.graph.arena.node? n = some node ∧
          s.graph.Settles (BoundStore.bounds s.store) force n (.range node.activity)) := by
  have hchildren := s.graph.agreeOn_opened Node.children fun _ => rfl
  have hagree := s.graph.agreeOn_opened
    (fun node => (node.kind, node.children, node.activity, node.activityTag)) fun _ => rfl
  refine meets_bind.mpr (meets_beginRound.mpr ?_)
  refine (meets_forward_settles (s := { s with
      graph := s.graph.opened
      propagator := { s.propagator with queue := .empty, infeasible := false } })
    (hroot.of_agree hagree rfl rfl) ?_ ?_ (fun n node hn => ?_) ?_ ?_).imp fun f s' hf => ?_
  · rw [hchildren.isOperand_eq]
    exact hacc
  · rw [hchildren.below_eq, (s.graph.agreeOn_opened Node.refs fun _ => rfl).isAlive_eq]
    exact halive
  · obtain ⟨node₀, hn₀, heq⟩ := (s.graph.agreeOn_opened Node.propTag fun _ => rfl).symm.exists_node? hn
    have hle := hdated.propTag_le n node₀ hn₀
    have hlast := hdated.roundEpoch_le
    change node.propTag ≠ s.graph.epochs.last + 1
    omega
  · exact Graph.SameWay.tagsGiven ⟨s.graph.agreeOn_opened _ fun _ => rfl, rfl⟩ htags
  · exact SlotPool.lowestFree?_ne_none hslot
  · refine ⟨hf.1, fun hfeasible n hn => ?_⟩
    obtain ⟨node, hnode, hsettles⟩ := hf.2 hfeasible n (by rwa [hchildren.below_eq])
    exact ⟨node, hnode, hsettles.of_agree hagree.symm rfl rfl⟩

theorem Propagation.answer_eq [BoundStore σ α] {s : Propagation σ α} {root : NodeId} {force : Bool}
    {r : Settled α} (hdated : s.graph.Dated) (htags : s.graph.TagsGiven) (hslot : s.graph.walks.taken = [])
    (hacc : Acc s.graph.arena.IsOperand root)
    (halive : ∀ m, s.graph.arena.Below m root → s.graph.arena.isAlive m = true)
    (hroot : s.graph.Settles (BoundStore.bounds s.store) force root r) : s.answer root force = r.answer := by
  have hmeets := meets_pass hdated htags hslot hacc halive hroot
  rw [meets_iff_run] at hmeets
  rw [answer]
  split at hmeets
  · rename_i f s' hpass
    simp only [hpass, hmeets.1]
  · rename_i e s' hpass
    simp only [hpass, hmeets]
    rfl

namespace Workspace

/-- At and below a root in use, a pass that keeps fresh activities and one that computes all of them again have
the same answer everywhere exactly if all activities there are current. -/
theorem agree_below_iff_current {w : Workspace α} (h : w.Tidy) {root : NodeId}
    (hroot : w.state.graph.isAlive root = true) :
    (∀ n, w.state.graph.arena.Below n root → w.state.answer n false = w.state.answer n true) ↔
      ∀ n, w.state.graph.arena.Below n root → w.state.graph.Current w.state.store.bounds n := by
  have halive : ∀ m, w.state.graph.arena.Below m root → w.state.graph.arena.isAlive m = true := fun m hm =>
    h.sound.counted.isAlive_of_below hm hroot
  have hacc := fun n => h.sound.acyclic.apply n
  have hanswer : ∀ {n force r}, w.state.graph.arena.Below n root →
      w.state.graph.Settles w.state.store.bounds force n r → w.state.answer n force = r.answer := by
    intro n force r hn hr
    exact Propagation.answer_eq h.resting.dated h.resting.tagsGiven h.resting.taken_eq (hacc n)
      (fun m hm => halive m (hm.trans hn)) hr
  rw [← Graph.Settles.eq_iff_current (hacc root) halive h.freshClosed]
  refine forall₂_congr fun n hn => ⟨fun heq => ?_, fun ⟨r, hkeep, hagain⟩ => ?_⟩
  · have hex : ∀ force, ∃ r, w.state.graph.Settles w.state.store.bounds force n r := fun force =>
      Graph.Settles.exists_of_acc (hacc n) fun m hm => Arena.lt_capacity_of_isAlive (halive m (hm.trans hn))
    obtain ⟨r, hkeep⟩ := hex false
    obtain ⟨r', hagain⟩ := hex true
    rw [hanswer hn hkeep, hanswer hn hagain] at heq
    exact ⟨r, hkeep, Settled.answer_injective heq ▸ hagain⟩
  · rw [hanswer hn hkeep, hanswer hn hagain]

/-- **Rounds leak exactly through narrowed activities.** Take a workspace whose callers have kept to the rules,
and passes at the start of a new round, one that keeps fresh activities and one that computes all of them
again. Their answers are the same from every root in use exactly if the activities of all nodes in use are
current. For one root it is enough that those at and below it are. -/
theorem agree_iff_current [BitPattern α] (settings : Settings α) (identity : Nat) (store : BoundTable α)
    {cs : List (Command α)} {w : Workspace α} (hcs : (new settings identity store).PermitsAll cs)
    (hrun : (new settings identity store).serveAll cs = .ok w) :
    ((∀ root, w.state.graph.isAlive root = true → w.state.answer root false = w.state.answer root true) ↔
      ∀ n, w.state.graph.isAlive n = true → w.state.graph.Current w.state.store.bounds n) ∧
    ∀ root, w.state.graph.isAlive root = true →
      (∀ n, w.state.graph.arena.Below n root → w.state.graph.Current w.state.store.bounds n) →
      w.state.answer root false = w.state.answer root true := by
  have htidy := tidy_of_serveAll (tidy_new settings identity store) hcs hrun
  have hbelow : ∀ root, w.state.graph.isAlive root = true → ∀ n, w.state.graph.arena.Below n root →
      w.state.graph.isAlive n = true := fun root hroot n hn => htidy.sound.counted.isAlive_of_below hn hroot
  refine ⟨⟨fun hagree n hn => ?_, fun hcurrent root hroot => ?_⟩, fun root hroot hcurrent => ?_⟩
  · exact (agree_below_iff_current htidy hn).mp (fun m hm => hagree m (hbelow n hn m hm)) n (.refl _ _)
  · exact (agree_below_iff_current htidy hroot).mpr (fun n hn => hcurrent n (hbelow root hroot n hn)) root
      (.refl _ _)
  · exact (agree_below_iff_current htidy hroot).mpr hcurrent root (.refl _ _)

/-- A sum over a variable between -10 and 10 is tightened to lie between 0 and 1. In the next round, a pass that
keeps fresh activities still finds it there, and one that computes them again does not. -/
theorem leaking_session :
    let cs : List (Command Float) :=
      [.request (.var 0), .request (.add (.sum [1] 0) [0]), .call (.forward 1 false), .call (.tighten 1 ⟨0, 1⟩)]
    (new default 0 (.ofList [⟨-10, 10⟩])).PermitsAll cs ∧
      ∃ w, (new default 0 (.ofList [⟨-10, 10⟩])).serveAll cs = .ok w ∧ w.state.graph.isAlive 1 = true ∧
        (w.state.answer 1 false).map (fun r => (r.1.sup == 1, r.2)) = some (true, false) ∧
        (w.state.answer 1 true).map (fun r => (r.1.sup == 10, r.2)) = some (true, false) ∧
        w.state.answer 1 false ≠ w.state.answer 1 true := by
  intro cs
  have hvar := serve_var_new default 0 (BoundTable.ofList [⟨-10, 10⟩] : BoundTable Float) 0
  constructor
  · refine ⟨trivial, fun w₁ hw₁ => ?_⟩
    rw [hvar] at hw₁
    cases hw₁
    decide +kernel
  have hfirst : (new default 0 (BoundTable.ofList [⟨-10, 10⟩])).serveAll cs = _ >>= fun w => serveAll w cs.tail :=
    List.foldlM_cons ..
  rw [hfirst, hvar, Checked.ok_bind]
  have hread : ∀ {x : Checked Float (Workspace Float)}, x.toOption.map (fun w => (w.state.graph.isAlive 1,
      (w.state.answer 1 false).map fun r => (r.1.sup == 1, r.2),
      (w.state.answer 1 true).map fun r => (r.1.sup == 10, r.2),
      (w.state.answer 1 true).map fun r => (r.1.sup == 1, r.2))) =
        some (true, some (true, false), some (true, false), some (false, false)) →
      ∃ w, x = .ok w ∧ w.state.graph.isAlive 1 = true ∧
        (w.state.answer 1 false).map (fun r => (r.1.sup == 1, r.2)) = some (true, false) ∧
        (w.state.answer 1 true).map (fun r => (r.1.sup == 10, r.2)) = some (true, false) ∧
        w.state.answer 1 false ≠ w.state.answer 1 true := by
    intro x hx
    obtain ⟨w, hrun, hread⟩ := Checked.exists_ok_of_toOption hx
    simp only [Prod.mk.injEq] at hread
    obtain ⟨halive, hkeep, hagain, hother⟩ := hread
    refine ⟨w, hrun, halive, hkeep, hagain, fun heq => ?_⟩
    rw [heq, hother] at hkeep
    cases hkeep
  exact hread (by decide +kernel)

/-- Rounds can leak: no run of commands need come between a narrowed activity and the next round. -/
theorem not_forall_agree : ¬ ∀ (cs : List (Command Float)) (w : Workspace Float),
    (new default 0 (.ofList [⟨-10, 10⟩])).PermitsAll cs →
      (new default 0 (.ofList [⟨-10, 10⟩])).serveAll cs = .ok w →
      ∀ root, w.state.graph.isAlive root = true → w.state.answer root false = w.state.answer root true := by
  intro hall
  obtain ⟨hcs, w, hrun, halive, -, -, hne⟩ := leaking_session
  exact hne (hall _ w hcs hrun 1 halive)

/-- Where a round leaks, some activity is not current. -/
theorem exists_not_current :
    let cs : List (Command Float) :=
      [.request (.var 0), .request (.add (.sum [1] 0) [0]), .call (.forward 1 false), .call (.tighten 1 ⟨0, 1⟩)]
    (new default 0 (.ofList [⟨-10, 10⟩])).PermitsAll cs ∧
      ∃ w, (new default 0 (.ofList [⟨-10, 10⟩])).serveAll cs = .ok w ∧
        ∃ n, w.state.graph.isAlive n = true ∧ ¬ w.state.graph.Current w.state.store.bounds n := by
  intro cs
  obtain ⟨hcs, w, hrun, halive, -, -, hne⟩ := leaking_session
  refine ⟨hcs, w, hrun, ?_⟩
  by_contra hnone
  push Not at hnone
  exact hne ((agree_iff_current default 0 _ hcs hrun).1.mpr hnone 1 halive)

end Workspace

end IntervalDag
