import IntervalDag.Proofs.Walk.Ownership

/-!
# Freshness below fresh nodes

A forward pass leaves out what is fresh and does not look below it. That misses nothing as long as no stale activity
lies below a fresh one (`Commons.fresh_below`). Commands keep to that operand by operand
(`Commons.freshClosed_of_serve`): passes refresh operands first, also those that stop early, new bounds and new
operands raise the epoch, and a number that a new node takes over is nobody's operand. The last needs callers who give
back only what they hold (`Commons.exists_stale_below_of_overrelease`).
-/

namespace IntervalDag

variable {α : Type}

/-- What lies below a node in use is fresh where the node is. -/
theorem Graph.FreshClosed.of_below {g : Graph α} (h : g.FreshClosed) {held : Holding} (hcounted : g.arena.Counted held)
    {m n : NodeId} (hm : g.arena.Below m n) (hn : g.isAlive n = true) (hfresh : g.IsFreshAt n) : g.IsFreshAt m := by
  -- the induction goes up from the lower end, so what is in use must be known of every operand on the way
  induction hm using Relation.ReflTransGen.head_induction_on with
  | refl => exact hfresh
  | head hop hbelow ih => exact h _ _ (hcounted.isAlive_of_below hbelow hn) hop ih

namespace Commons

variable [Scalar α] [BitPattern α] [NumberText α] {s s' : Commons α} {answers : List (Nat × Walk.Answer)}

/-- **One command.** -/
theorem freshClosed_of_serve (h : s.Orderly) (hwf : s.graph.WellFormed s.workspace.held)
    (hclosed : s.graph.FreshClosed) {c : Command α} (hc : s.Owns c) (hrun : s.serve c = .ok (s', answers)) :
    s'.graph.FreshClosed := by
  have hsound' := (wellFormed_of_serve h hwf hc hrun).toSound
  have hdated' := (orderly_of_serve h hrun).ordered.dated
  rcases serve_cases h hrun with ⟨r, -, hserve⟩ | ⟨op, handler, -, hgraph, -⟩ | ⟨hadvanced, -⟩
  · rw [Session.serve] at hserve
    obtain ⟨⟨given, g'⟩, hrequest, hserve⟩ := Checked.bind_eq_ok.mp hserve
    obtain rfl : g' = s'.graph := congrArg Session.graph (Except.ok.inj hserve)
    exact (Graph.Served.stable.serve hrequest h.ordered.intact).freshClosed hwf.toSound hsound' h.ordered.dated hdated'
      hclosed
  · rw [hgraph]
    exact hclosed
  · exact hadvanced.freshClosed hclosed

/-- **Runs of commands.** -/
theorem freshClosed_of_serveAll (h : s.Orderly) (hwf : s.graph.WellFormed s.workspace.held)
    (hclosed : s.graph.FreshClosed) {cs : List (Command α)} (hcs : s.OwnsAll cs)
    (hrun : s.serveAll cs = .ok (s', answers)) : s'.graph.FreshClosed := by
  refine (Run.invariant_collect (I := fun s => s.Orderly ∧ s.graph.WellFormed s.workspace.held ∧ s.graph.FreshClosed) ?_
    ⟨h, hwf, hclosed⟩ hcs hrun).2.2
  exact fun ⟨h, hwf, hclosed⟩ hc hserve =>
    ⟨orderly_of_serve h hserve, wellFormed_of_serve h hwf hc hserve, freshClosed_of_serve h hwf hclosed hc hserve⟩

/-- **Fresh activities are downward closed.** After every run, no activity is from a later revision of the bounds than
the current one, and no propagated bounds are from a later round than the current one, on any entry and whatever the
callers did. If they gave back only what they held, then everything below a fresh node in use is fresh. -/
theorem fresh_below (settings : Settings α) (identity : Nat) (store : BoundTable α) {cs : List (Command α)}
    (hrun : (new settings identity store).serveAll cs = .ok (s, answers)) :
    (∀ n node, s.graph.arena.node? n = some node →
      node.activityTag ≤ s.graph.boundsEpoch ∧ node.propTag ≤ s.graph.roundEpoch) ∧
    ((new settings identity store).OwnsAll cs →
      ∀ m n, s.graph.isAlive n = true → s.graph.arena.Below m n → s.graph.IsFreshAt n → s.graph.IsFreshAt m) := by
  have hnew := orderly_new settings identity store
  have hwf := Graph.WellFormed.empty settings identity
  have hdated := (orderly_of_serveAll hnew hrun).ordered.dated
  refine ⟨fun n node hn => ⟨hdated.activityTag_le n node hn, hdated.propTag_le n node hn⟩,
    fun hcs m n hn hbelow hfresh => ?_⟩
  have hclosed := freshClosed_of_serveAll hnew hwf (Workspace.tidy_new settings identity store).freshClosed hcs hrun
  exact hclosed.of_below (wellFormed_of_serveAll hnew hwf hcs hrun).counted hbelow hn hfresh

/-- A pass over the exponential stops at the logarithm of a negative variable, whose activity is empty. The logarithm
and the variable are fresh then. The exponential is not, nor is the node that takes over the entry of an earlier one. -/
theorem fresh_below_of_early_stop :
    let cs : List (Command Float) :=
      [.work (.request (.var 0)), .work (.request (.apply .abs 0 rfl)), .work (.request (.apply .log 0 rfl)),
        .work (.request (.apply .exp 2 rfl)), .work (.call (.forward 3 false)), .work (.request (.release 1)),
        .work (.request (.apply .sin 2 rfl))]
    (new default 0 (.ofList [⟨-2, -1⟩])).OwnsAll cs ∧ ∃ s answers,
      (new default 0 (.ofList [⟨-2, -1⟩])).serveAll cs = .ok (s, answers) ∧ s.graph.isAlive 2 = true ∧
      s.graph.IsFreshAt 2 ∧ s.graph.IsFreshAt 0 ∧
      (∀ n node, s.graph.arena.node? n = some node → node.activityTag ≤ s.graph.boundsEpoch) ∧
      ¬ s.graph.IsFreshAt 3 ∧ s.graph.arena.operands 1 = [2] ∧ ¬ s.graph.IsFreshAt 1 := by
  intro cs
  have hcs : (new default 0 (.ofList [⟨-2, -1⟩])).OwnsAll cs := by decide +kernel
  obtain ⟨⟨s, answers⟩, hrun, hread⟩ := Checked.exists_ok_of_toOption
    (x := (new default 0 (.ofList [⟨-2, -1⟩])).serveAll cs)
    (f := fun r => (r.1.graph.boundsEpoch, r.1.graph.isAlive 2, [1, 2].map r.1.graph.arena.operands,
      [1, 2, 3].map fun n => (r.1.graph.arena.node? n).map (·.activityTag)))
    (c := (1, true, [[2], [0]], [some 0, some 1, some 0])) (by decide +kernel)
  simp only [List.map_cons, List.map_nil, Prod.mk.injEq, List.cons.injEq, and_true] at hread
  obtain ⟨hepoch, halive, ⟨hops₁, hops₂⟩, htag₁, htag₂, htag₃⟩ := hread
  have hfresh : ∀ n, s.graph.IsFreshAt n ↔ (s.graph.arena.node? n).map (·.activityTag) = some 1 := fun n => by
    rw [Graph.IsFreshAt, hepoch, Option.map_eq_some_iff]
  obtain ⟨htags, hbelow⟩ := fresh_below default 0 (.ofList [⟨-2, -1⟩]) hrun
  have hfresh₂ : s.graph.IsFreshAt 2 := (hfresh 2).mpr htag₂
  refine ⟨hcs, s, answers, hrun, halive, hfresh₂, ?_, fun n node hn => (htags n node hn).1, ?_, hops₁, ?_⟩
  · exact hbelow hcs 0 2 halive (Arena.IsOperand.below (by simp [Arena.IsOperand, hops₂])) hfresh₂
  · rw [hfresh, htag₃]
    decide
  · rw [hfresh, htag₁]
    decide

/-- A node released once too often is freed below its own user. The constant that takes over its number is stale, and
lies below a fresh node. -/
theorem exists_stale_below_of_overrelease :
    let cs : List (Command Float) := [.work (.request (.var 0)), .work (.request (.apply .abs 0 rfl)),
      .work (.request (.release 0)), .work (.call (.forward 1 false)), .work (.request (.release 0)),
      .work (.request (.value 1))]
    ∃ s answers, (new default 0 (.ofList [])).serveAll cs = .ok (s, answers) ∧ s.graph.isAlive 1 = true ∧
      s.graph.isAlive 0 = true ∧ s.graph.arena.Below 0 1 ∧ s.graph.IsFreshAt 1 ∧ ¬ s.graph.IsFreshAt 0 := by
  intro cs
  obtain ⟨⟨s, answers⟩, hrun, hread⟩ := Checked.exists_ok_of_toOption (x := (new default 0 (.ofList [])).serveAll cs)
    (f := fun r => (r.1.graph.boundsEpoch, [0, 1].map r.1.graph.isAlive, r.1.graph.arena.operands 1,
      [0, 1].map fun n => (r.1.graph.arena.node? n).map (·.activityTag)))
    (c := (1, [true, true], [0], [some 0, some 1])) (by decide +kernel)
  simp only [List.map_cons, List.map_nil, Prod.mk.injEq, List.cons.injEq, and_true] at hread
  obtain ⟨hepoch, ⟨halive₀, halive₁⟩, hops, htag₀, htag₁⟩ := hread
  have hfresh : ∀ n, s.graph.IsFreshAt n ↔ (s.graph.arena.node? n).map (·.activityTag) = some 1 := fun n => by
    rw [Graph.IsFreshAt, hepoch, Option.map_eq_some_iff]
  refine ⟨s, answers, hrun, halive₁, halive₀, Arena.IsOperand.below (by simp [Arena.IsOperand, hops]),
    (hfresh 1).mpr htag₁, ?_⟩
  rw [hfresh, htag₀]
  decide

end Commons

end IntervalDag
