import IntervalDag.Proofs.Propagation.Lines
import IntervalDag.Proofs.Propagation.Worklist
import IntervalDag.Scalar.Binary64

/-!
# Teams of propagators

Several propagators may work on one graph and one bound store. Each has a line of its own, but a node has one mark,
and opening a round takes the marks of all nodes away.

* `Team.inOrder_of_serveAll`: whatever the members of a team do, no marked node is lost. It stands in the line of
  one of them.
* `Team.inTurn_of_serveAll`: as long as the members take turns, each of them tightening and working off its line in
  rounds that it opened itself, the line of the one whose turn it is consists of the marked nodes, once each.
* A team of one takes turns with itself. So its line is in order all the time, and working it off leaves no mark
  (`Team.lined_of_serveAll`).
* A member that tightens a node out of turn may leave it in the line of another one, and may put it in its own line
  twice (`Team.not_forall_in_own_line`).
-/

namespace IntervalDag

variable {σ α : Type} {k : Nat}

/-- The node is marked as waiting for reverse propagation. -/
def Graph.IsMarked (g : Graph α) (n : NodeId) : Prop := ∃ node, g.arena.node? n = some node ∧ node.queued = true

/-- A graph with its callers, a bound store, and propagators that share them. -/
structure Team (σ α : Type) (k : Nat) where
  /-- The number of references to each node that callers hold. -/
  held : Holding
  /-- The graph. -/
  graph : Graph α
  /-- The bound store. -/
  store : σ
  /-- The propagators. -/
  propagators : Fin k → Propagator
  /-- The records made, last one first. -/
  records : List (LogRecord α)

namespace Team

/-- A command to a team. -/
inductive Command (σ α : Type) (k : Nat) where
  /-- Builds, or takes or gives back a reference. -/
  | request (r : Request α)
  /-- Has a member propagate. -/
  | call (p : Fin k) (c : Call α)
  /-- Changes variable bounds and raises their epoch. -/
  | changeBounds (f : σ → σ)
  /-- Replaces a handler. -/
  | register (op : Op) (h : Handler α)

/-- A team of new propagators on a new graph. -/
def new [Scalar α] [BitPattern α] (settings : Settings α) (identity : Nat) (store : σ) : Team σ α k :=
  ⟨fun _ => 0, Graph.empty settings identity, store, fun _ => default, []⟩

/-- The graph and its callers. -/
def session (t : Team σ α k) : Session α := ⟨t.graph, t.held⟩

/-- A member at work. -/
def view (t : Team σ α k) (p : Fin k) : Propagation σ α := ⟨t.graph, t.store, t.propagators p, t.records⟩

/-- The nodes in the line of a member. -/
def line (t : Team σ α k) (p : Fin k) : List NodeId := (t.propagators p).queue.toList

/-- The team after the work of a member. -/
def after (t : Team σ α k) (p : Fin k) (s : Propagation σ α) : Team σ α k where
  held := t.held
  graph := s.graph
  store := s.store
  propagators := Function.update t.propagators p s.propagator
  records := s.records

variable [Scalar α] [BoundStore σ α]

/-- Serves a command. -/
def serve (t : Team σ α k) : Command σ α k → Checked α (Team σ α k)
  | .request r => do
    let s ← t.session.serve r
    return { t with graph := s.graph, held := s.held }
  | .call p c => do
    let (_, s) ← Observed.observe c.run (t.view p)
    return t.after p s
  | .changeBounds f => .ok { t with graph := t.graph.bumpBoundsEpoch, store := f t.store }
  | .register op h => .ok { t with graph := t.graph.register op h }

/-- Serves commands one after another. -/
def serveAll (t : Team σ α k) (cs : List (Command σ α k)) : Checked α (Team σ α k) := cs.foldlM serve t

omit [BoundStore σ α] in
/-- The rules are those for requests to the graph. Besides, a request frees no node that stands in line. -/
def Permits (t : Team σ α k) : Command σ α k → Prop
  | .request r => t.session.Permits r ∧
    ∀ s, t.session.serve r = .ok s → ∀ p, ∀ n ∈ t.line p, s.graph.isAlive n = true
  | _ => True

/-- Each of the commands keeps to the rules when its turn comes. -/
def PermitsAll (t : Team σ α k) (cs : List (Command σ α k)) : Prop := Run.Keeps serve Permits t cs

instance (t : Team σ α k) : (c : Command σ α k) → Decidable (t.Permits c)
  | .request r =>
    match h : t.session.serve r with
    | .ok s => decidable_of_iff (t.session.Permits r ∧ ∀ p, ∀ n ∈ t.line p, s.graph.isAlive n = true)
        (by simp [Permits, h])
    | .error _ => decidable_of_iff (t.session.Permits r) (by simp [Permits, h])
  | .call _ _ | .changeBounds _ | .register _ _ => isTrue trivial

instance (t : Team σ α k) (cs : List (Command σ α k)) : Decidable (t.PermitsAll cs) :=
  inferInstanceAs (Decidable (Run.Keeps serve Permits t cs))

variable {t t' : Team σ α k} {c : Command σ α k} {cs : List (Command σ α k)} {p q : Fin k} {s : Propagation σ α}

omit [Scalar α] [BoundStore σ α] in
@[simp] theorem line_after : (t.after p s).line q = if q = p then s.propagator.queue.toList else t.line q := by
  simp only [line, after, Function.update_apply]
  split_ifs
  · rfl
  · rfl

/-! ### Marks -/

/-- A team whose callers have kept to the rules. The marked nodes stand in line. -/
structure InOrder (t : Team σ α k) : Prop where
  ordered : t.graph.Ordered
  sound : t.graph.Sound t.held
  markedIn : t.graph.MarkedIn fun n => ∃ p, n ∈ t.line p

omit [BoundStore σ α] in
theorem inOrder_new [BitPattern α] (settings : Settings α) (identity : Nat) (store : σ) :
    (new settings identity store : Team σ α k).InOrder where
  ordered := (Graph.Resting.empty settings identity).toOrdered
  sound := .empty settings identity
  markedIn n node hnode := by cases hnode

omit [Scalar α] [BoundStore σ α] in
/-- The lines of a team are that of a member and those of the others. -/
theorem exists_mem_line_after {n : NodeId} :
    (∃ q, n ∈ (t.after p s).line q) ↔ n ∈ s.propagator.queue.toList ∨ ∃ q, q ≠ p ∧ n ∈ t.line q := by
  constructor
  · rintro ⟨q, hn⟩
    rw [line_after] at hn
    split_ifs at hn with hq
    · exact Or.inl hn
    · exact Or.inr ⟨q, hq, hn⟩
  · rintro (hn | ⟨q, hq, hn⟩)
    · exact ⟨p, by rwa [line_after, if_pos rfl]⟩
    · exact ⟨q, by rwa [line_after, if_neg hq]⟩

omit [Scalar α] [BoundStore σ α] in
theorem exists_mem_line (t : Team σ α k) (p : Fin k) {n : NodeId} :
    (∃ q, n ∈ t.line q) ↔ n ∈ t.line p ∨ ∃ q, q ≠ p ∧ n ∈ t.line q := by
  have hsame : t.after p (t.view p) = t := by
    rw [after, view, Function.update_eq_self]
  have hlines := exists_mem_line_after (t := t) (p := p) (s := t.view p) (n := n)
  rwa [hsame] at hlines

/-- **One command.** No marked node is lost. -/
theorem InOrder.serve (h : t.InOrder) (hc : t.Permits c) (hrun : t.serve c = .ok t') : t'.InOrder := by
  cases c with
  | request r =>
    obtain ⟨s, hserve, hrun⟩ := Checked.bind_eq_ok.mp hrun
    cases hrun
    obtain ⟨s', hserve', hsound⟩ := Session.exists_serve (s := t.session) h.sound hc.1
    cases hserve.symm.trans hserve'
    have halive : ∀ n, (∃ p, n ∈ t.line p) → s.graph.arena.isAlive n = true := fun n ⟨p, hn⟩ => hc.2 s hserve p n hn
    rw [Session.serve] at hserve
    obtain ⟨⟨given, g'⟩, hgraph, hserve⟩ := Checked.bind_eq_ok.mp hserve
    cases hserve
    have hinherits := Graph.Inherits.stable.serve hgraph h.ordered.intact
    exact ⟨(h.ordered.serve hgraph).1, hsound, h.markedIn.inherits hinherits halive⟩
  | call p c =>
    obtain ⟨⟨b, s⟩, hcall, hrun⟩ := Checked.bind_eq_ok.mp hrun
    cases hrun
    have hmarked : (t.view p).MarkedIn fun n => ∃ q, q ≠ p ∧ n ∈ t.line q :=
      h.markedIn.mono fun n => (t.exists_mem_line p).mp
    obtain ⟨hmarked', hpropagated⟩ := ((Propagation.lasting_markedIn _).meets_run hmarked h.ordered.dated
      h.ordered.tagsGiven c fun _ _ => trivial).of_observe hcall
    exact ⟨h.ordered.of_advanced hpropagated.toAdvanced hpropagated.tagsGiven,
      h.sound.of_sameTerms hpropagated.terms, Graph.MarkedIn.mono hmarked' fun n => exists_mem_line_after.mpr⟩
  | changeBounds f =>
    cases hrun
    have hadvanced := Graph.Advanced.bumpBoundsEpoch h.ordered.dated
    exact ⟨h.ordered.of_advanced hadvanced h.ordered.tagsGiven, h.sound.of_sameTerms hadvanced.terms, h.markedIn⟩
  | register op handler =>
    cases hrun
    exact ⟨h.ordered.register op handler, ⟨h.sound.counted, h.sound.acyclic, h.sound.var_alive⟩, h.markedIn⟩

/-- **Runs of commands.** -/
theorem inOrder_of_serveAll (h : t.InOrder) (hcs : t.PermitsAll cs) (hrun : t.serveAll cs = .ok t') :
    t'.InOrder :=
  Run.invariant InOrder.serve h hcs hrun

/-! ### Turns -/

omit [Scalar α] [BoundStore σ α] in
/-- Whose turn it is after a command, if the members take turns. A member takes the turn by opening a round, and it
has to be its turn when it tightens nodes or works off its line. -/
def Command.turn (current : Fin k) : Command σ α k → Option (Fin k)
  | .call p .beginRound => some p
  | .call p (.tighten _ _) | .call p .drain | .call p (.propagate _) => if p = current then some current else none
  | _ => some current

omit [Scalar α] [BoundStore σ α] in
/-- Whose turn it is after commands, if the members take turns. -/
def turnAfter (first : Fin k) (cs : List (Command σ α k)) : Option (Fin k) := cs.foldlM Command.turn first

omit [Scalar α] [BoundStore σ α] in
/-- The line of the member whose turn it is consists of the marked nodes. None is twice in a line. -/
structure InTurn (t : Team σ α k) (current : Fin k) : Prop where
  lined : t.graph.Lined (t.line current)
  nodup : ∀ q, (t.line q).Nodup

variable {current next first last : Fin k}

omit [BoundStore σ α] in
theorem inTurn_new [BitPattern α] (settings : Settings α) (identity : Nat) (store : σ) (first : Fin k) :
    (new settings identity store : Team σ α k).InTurn first where
  lined := by
    refine ⟨List.nodup_nil, fun n node hnode => ?_, nofun⟩
    cases hnode
  nodup _ := List.nodup_nil

omit [Scalar α] [BoundStore σ α] in
/-- A member that leaves its line in order has the turn then. -/
theorem InTurn.after (h : t.InTurn current) (hs : s.Lined) : (t.after p s).InTurn p where
  lined := by
    rw [line_after, if_pos rfl]
    exact hs
  nodup q := by
    rw [line_after]
    split_ifs
    · exact hs.nodup
    · exact h.nodup q

/-- Anyone may compute activities. -/
theorem InTurn.forward (h : t.InTurn current) (htags : t.graph.TagsGiven) {root : NodeId} {force b : Bool}
    (hcall : Observed.observe (Call.run (.forward root force)) (t.view p) = .ok (b, s)) :
    (t.after p s).InTurn current := by
  have hunmoved : Propagation.Unmoved fun s : Propagation σ α =>
      s.graph.Lined (t.line current) ∧ s.propagator.queue = (t.propagators p).queue :=
    Propagation.unmoved_of_standing fun h hsame hround hqueue => ⟨h.1.of_agree hsame hround, hqueue.trans h.2⟩
  have hmeets : Meets (Call.run (.forward root force)) (t.view p) (fun _ => True) fun _ s =>
      s.graph.Lined (t.line current) ∧ s.propagator.queue = (t.propagators p).queue :=
    (hunmoved.meets_forward ⟨h.lined, rfl⟩ htags root force).bind fun _ _ hs => meets_pure.mpr hs
  obtain ⟨hlined, hqueue⟩ := hmeets.of_observe hcall
  have hline : ∀ q, (t.after p s).line q = t.line q := by
    intro q
    rw [line_after, hqueue]
    split_ifs with hq
    · rw [hq, line]
    · rfl
  refine ⟨?_, fun q => ?_⟩
  · rw [hline]
    exact hlined
  · rw [hline]
    exact h.nodup q

/-- **One command.** -/
theorem InTurn.serve (h : t.InTurn current) (horder : t.InOrder) (hc : t.Permits c) (hrun : t.serve c = .ok t')
    (hturn : c.turn current = some next) : t'.InTurn next := by
  cases c with
  | request r =>
    cases hturn
    obtain ⟨s, hserve, hrun⟩ := Checked.bind_eq_ok.mp hrun
    cases hrun
    have halive : ∀ n ∈ t.line current, s.graph.arena.isAlive n = true := hc.2 s hserve current
    rw [Session.serve] at hserve
    obtain ⟨⟨given, g'⟩, hgraph, hserve⟩ := Checked.bind_eq_ok.mp hserve
    cases hserve
    have hinherits := Graph.Inherits.stable.serve hgraph horder.ordered.intact
    exact ⟨h.lined.inherits hinherits horder.sound.counted halive, h.nodup⟩
  | call p c =>
    obtain ⟨⟨b, s⟩, hcall, hrun⟩ := Checked.bind_eq_ok.mp hrun
    cases hrun
    have hwork : p = current → s.Lined := by
      rintro rfl
      exact ((Propagation.lasting_lined.meets_run (s := t.view p) h.lined horder.ordered.dated
        horder.ordered.tagsGiven c fun _ _ => trivial).of_observe hcall).1
    cases c with
    | beginRound =>
      cases hturn
      cases hcall
      exact h.after (.opened _)
    | forward root force =>
      cases hturn
      exact h.forward horder.ordered.tagsGiven hcall
    | tighten n x | drain | propagate constraints =>
      obtain ⟨hp, hnext⟩ := Option.ite_none_right_eq_some.mp hturn
      cases hnext
      exact hp ▸ h.after (hwork hp)
  | changeBounds f =>
    cases hturn
    cases hrun
    exact ⟨h.lined.of_agree (.refl _ _) rfl, h.nodup⟩
  | register op handler =>
    cases hturn
    cases hrun
    exact ⟨h.lined.of_agree (.refl _ _) rfl, h.nodup⟩

/-- **Runs of commands.** -/
theorem inTurn_of_serveAll (h : t.InTurn first) (horder : t.InOrder) (hcs : t.PermitsAll cs)
    (hrun : t.serveAll cs = .ok t') (hturn : turnAfter first cs = some last) : t'.InTurn last := by
  suffices hrest : ∀ first, t.InTurn first → t.InOrder → t.PermitsAll cs → turnAfter first cs = some last →
      t'.InTurn last from hrest first h horder hcs hturn
  refine Run.induct (motive := fun t cs => ∀ first, t.InTurn first → t.InOrder → t.PermitsAll cs →
    turnAfter first cs = some last → t'.InTurn last) hrun ?_ ?_
  · intro first h _ _ hturn
    cases hturn
    exact h
  · intro t c t₁ cs hserve _ ih first h horder hcs hturn
    rw [turnAfter, List.foldlM_cons] at hturn
    obtain ⟨next, hnext, hlast⟩ := Option.bind_eq_some_iff.mp hturn
    exact ih next (h.serve horder hcs.1 hserve hnext) (horder.serve hcs.1 hserve) (hcs.2 t₁ hserve) hlast

/-! ### What is tightened waits -/

/-- What tightening an operator's node leaves behind, if it returns a tightening: the node is marked. It was put in
line then if it was not marked before, and otherwise the line stays as it was. -/
theorem marked_of_tighten {n : NodeId} {x : Interval α} {r : Tightened} {s₁ : Propagation σ α} {entry : Node α}
    (hentry : s.graph.arena.node? n = some entry) (hinner : entry.kind.isLeaf = false) (hr : 0 < r.count)
    (ht : Propagation.Tightens n x s r s₁) : s₁.graph.IsMarked n ∧ s₁.propagator.queue.toList =
      if entry.queued then s.propagator.queue.toList else s.propagator.queue.toList ++ [n] := by
  cases ht with
  | disjoint | kept => exact absurd hr (Nat.lt_irrefl 0)
  | taken hknown hempty htight hentry' hpass =>
    cases hentry.symm.trans hentry'
    rename_i known
    have hwritten := s.node?_written n known (known.inter x) n
    rw [if_pos rfl, hentry] at hwritten
    cases hpass with
    | tightened hkind | unchanged hkind | refused hkind | constant hkind =>
      rw [hkind] at hinner
      cases hinner
    | waiting _ hqueued => exact ⟨⟨_, hwritten, hqueued⟩, by rw [if_pos hqueued]; rfl⟩
    | lined _ hqueued =>
      refine ⟨?_, ?_⟩
      · rw [Graph.IsMarked, Propagation.lined, Graph.modify, Arena.node?_modify, if_pos rfl, hwritten]
        exact ⟨_, rfl, rfl⟩
      · rw [hqueued]
        exact Fifo.toList_push ..

/-- **Nothing that is tightened is lost.** After any run of a team's commands, let a member return a tightening of an
operator's node. Then the node is marked and stands in the line of a member. It stands in the member's own line exactly
if it did before or was not marked. So it does whenever the members take turns, and then no node is twice in a line. -/
theorem tightened_in_line [BitPattern α] (settings : Settings α) (identity : Nat) (store : σ)
    (hcs : (new settings identity store).PermitsAll cs) (hrun : (new settings identity store).serveAll cs = .ok t)
    {n : NodeId} {entry : Node α} {x : Interval α} {r : Tightened} (hentry : t.graph.arena.node? n = some entry)
    (hinner : entry.kind.isLeaf = false) (htighten : (Propagation.tighten n x).run (t.view p) = .ok r s)
    (hr : 0 < r.count) :
    (s.graph.IsMarked n ∧ ∃ q, n ∈ (t.after p s).line q) ∧
      (n ∈ (t.after p s).line p ↔ n ∈ t.line p ∨ ¬ t.graph.IsMarked n) ∧
      ∀ first last, turnAfter first cs = some last → (∀ q, (t.line q).Nodup) ∧
        (last = p → n ∈ (t.after p s).line p ∧ ∀ q, ((t.after p s).line q).Nodup) := by
  have horder := inOrder_of_serveAll (inOrder_new settings identity store) hcs hrun
  have htightens : Propagation.Tightens n x (t.view p) r s := by
    have hmeets := Propagation.meets_iff_run.mp (Propagation.meets_tighten_cases (s := t.view p) n x)
    rwa [htighten] at hmeets
  obtain ⟨hmarked, hqueue⟩ := marked_of_tighten (s := t.view p) hentry hinner hr htightens
  have hown : n ∈ (t.after p s).line p ↔ n ∈ t.line p ∨ ¬ t.graph.IsMarked n := by
    have hflag : t.graph.IsMarked n ↔ entry.queued = true := by
      constructor
      · rintro ⟨node, hnode, hqueued⟩
        cases hentry.symm.trans hnode
        exact hqueued
      · exact fun hqueued => ⟨entry, hentry, hqueued⟩
    rw [line_after, if_pos rfl, hqueue, hflag]
    split_ifs with hqueued
    · simp only [hqueued, not_true_eq_false, or_false]
      rfl
    · simp [hqueued]
  refine ⟨⟨hmarked, ?_⟩, hown, fun first last hturn => ?_⟩
  · by_cases hbefore : t.graph.IsMarked n
    · obtain ⟨node, hnode, hqueued⟩ := hbefore
      obtain ⟨q, hq⟩ := (horder.markedIn n node hnode hqueued).2
      by_cases hqp : q = p
      · exact ⟨p, hown.mpr (Or.inl (hqp ▸ hq))⟩
      · exact ⟨q, by rwa [line_after, if_neg hqp]⟩
    · exact ⟨p, hown.mpr (Or.inr hbefore)⟩
  · have hturns := inTurn_of_serveAll (inTurn_new settings identity store first)
      (inOrder_new settings identity store) hcs hrun hturn
    refine ⟨hturns.nodup, ?_⟩
    rintro rfl
    have hlined : (t.view last).Lined := hturns.lined
    refine ⟨hown.mpr ?_, (hturns.after (hlined.tightens htightens)).nodup⟩
    by_cases hbefore : t.graph.IsMarked n
    · obtain ⟨node, hnode, hqueued⟩ := hbefore
      exact Or.inl (hturns.lined.markedIn n node hnode hqueued).2
    · exact Or.inr hbefore

/-! ### Teams on a graph with one variable -/

/-- A team of new propagators on a graph with one variable, to which a caller holds a reference. -/
def withVar [BitPattern α] (settings : Settings α) (identity : Nat) (store : σ) (v : VarId) : Team σ α k :=
  { (new settings identity store : Team σ α k) with
    held := (Holding.plus (fun _ => 0) [0]).minus []
    graph := { Graph.empty settings identity with
      arena := ⟨#[Node.fresh (.var v) [] 1], []⟩
      varNodes := (Graph.empty settings identity).varNodes.insert v 0 } }

/-- Asking for the first variable. -/
theorem serve_var_new [BitPattern α] (settings : Settings α) (identity : Nat) (store : σ) (v : VarId) :
    (new settings identity store : Team σ α k).serve (.request (.var v)) =
      .ok (withVar settings identity store v) := by
  have hnone : (new settings identity store : Team σ α k).graph.varNode? v = none := Std.HashMap.getElem?_empty
  simp only [serve, Session.serve, Graph.serve, session, Graph.var, hnone]
  rfl

theorem serveAll_var_new [BitPattern α] (settings : Settings α) (identity : Nat) (store : σ) (v : VarId)
    (cs : List (Command σ α k)) : (new settings identity store).serveAll (.request (.var v) :: cs) =
      (withVar settings identity store v).serveAll cs := by
  rw [serveAll, List.foldlM_cons, serve_var_new]
  rfl

theorem permitsAll_var_new [BitPattern α] {settings : Settings α} {identity : Nat} {store : σ} {v : VarId}
    (h : (withVar settings identity store v).PermitsAll cs) :
    (new settings identity store).PermitsAll (.request (.var v) :: cs) := by
  refine ⟨⟨trivial, fun s _ p n hn => ?_⟩, fun t ht => ?_⟩
  · cases hn
  · rw [serve_var_new] at ht
    cases ht
    exact h

/-- Two members tighten a sum in turn, and it stands in both lines. -/
theorem tightened_in_line_of_turns :
    let cs : List (Command (BoundTable Float) Float 2) :=
      [.request (.var 0), .request (.add (.sum [1] 0) [0]), .call 0 .beginRound, .call 0 (.tighten 1 ⟨0, 5⟩),
        .call 1 .beginRound]
    (new default 0 (.ofList [⟨-10, 10⟩])).PermitsAll cs ∧ turnAfter 0 cs = some 1 ∧
      ∃ t entry r s, (new default 0 (.ofList [⟨-10, 10⟩])).serveAll cs = .ok t ∧
        t.graph.arena.node? 1 = some entry ∧ entry.kind.isLeaf = false ∧
        (Propagation.tighten 1 ⟨0, 2⟩).run (t.view 1) = .ok r s ∧ 0 < r.count ∧ t.line 0 = [1] ∧
        1 ∈ (t.after 1 s).line 1 ∧ ∀ q, ((t.after 1 s).line q).Nodup := by
  intro cs
  have hcs : (new default 0 (BoundTable.ofList [⟨-10, 10⟩])).PermitsAll cs :=
    permitsAll_var_new (by decide +kernel)
  have hread : ((new default 0 (BoundTable.ofList [⟨-10, 10⟩])).serveAll cs).toOption.map (fun t =>
      ((t.graph.arena.node? 1).map fun entry => entry.kind.isLeaf, t.line 0,
        ((Propagation.tighten 1 ⟨0, 2⟩).run' (t.view 1)).map Tightened.count)) = some (some false, [1], some 1) := by
    rw [serveAll_var_new]
    decide +kernel
  have hturn : turnAfter 0 cs = some 1 := rfl
  obtain ⟨t, hrun, hread⟩ := Checked.exists_ok_of_toOption hread
  simp only [Prod.mk.injEq, Option.map_eq_some_iff] at hread
  obtain ⟨⟨entry, hentry, hinner⟩, hline, r, hresult, hr⟩ := hread
  obtain ⟨s, htighten⟩ := Propagation.exists_run_of_result hresult
  have hpos : 0 < r.count := hr ▸ Nat.one_pos
  obtain ⟨-, -, hturns⟩ := tightened_in_line default 0 _ hcs hrun hentry hinner htighten hpos
  exact ⟨hcs, hturn, t, entry, r, s, hrun, hentry, hinner, htighten, hpos, hline, (hturns 0 1 hturn).2 rfl⟩

/-- A member tightens a sum that another one has in line: it does not get into its own. A member tightens a sum that
it has in line after another one opened a round: it gets there twice. -/
theorem out_of_turn_session :
    let cs : List (Command (BoundTable Float) Float 2) :=
      [.request (.var 0), .request (.add (.sum [1] 0) [0]), .call 0 .beginRound, .call 0 (.tighten 1 ⟨0, 5⟩)]
    let cs' := cs ++ [.call 1 .beginRound, .call 0 (.tighten 1 ⟨0, 2⟩)]
    (new default 0 (.ofList [⟨-10, 10⟩])).PermitsAll cs ∧ (new default 0 (.ofList [⟨-10, 10⟩])).PermitsAll cs' ∧
      ∃ t t' entry r s, (new default 0 (.ofList [⟨-10, 10⟩])).serveAll cs = .ok t ∧
        t.graph.arena.node? 1 = some entry ∧ entry.kind.isLeaf = false ∧
        (Propagation.tighten 1 ⟨0, 2⟩).run (t.view 1) = .ok r s ∧ 0 < r.count ∧ s.propagator.queue.toList = [] ∧
        (new default 0 (.ofList [⟨-10, 10⟩])).serveAll cs' = .ok t' ∧ t'.line 0 = [1, 1] := by
  intro cs cs'
  have hcs : (new default 0 (BoundTable.ofList [⟨-10, 10⟩])).PermitsAll cs :=
    permitsAll_var_new (by decide +kernel)
  have hcs' : (new default 0 (BoundTable.ofList [⟨-10, 10⟩])).PermitsAll cs' :=
    permitsAll_var_new (by decide +kernel)
  have hread : ((new default 0 (BoundTable.ofList [⟨-10, 10⟩])).serveAll cs).toOption.map (fun t =>
      ((t.graph.arena.node? 1).map fun entry => entry.kind.isLeaf,
        match (Propagation.tighten 1 ⟨0, 2⟩).run (t.view 1) with
        | .ok r s => some (r.count, s.propagator.queue.toList)
        | .error _ _ => none)) = some (some false, some (1, [])) := by
    rw [serveAll_var_new]
    decide +kernel
  have hread' : ((new default 0 (BoundTable.ofList [⟨-10, 10⟩])).serveAll cs').toOption.map (fun t => t.line 0) =
      some [1, 1] := by
    simp only [cs', cs, List.cons_append, List.nil_append, serveAll_var_new]
    decide +kernel
  obtain ⟨t, hrun, hread⟩ := Checked.exists_ok_of_toOption hread
  obtain ⟨t', hrun', hline⟩ := Checked.exists_ok_of_toOption hread'
  simp only [Prod.mk.injEq, Option.map_eq_some_iff] at hread
  obtain ⟨⟨entry, hentry, hinner⟩, hresult⟩ := hread
  cases htighten : (Propagation.tighten 1 ⟨0, 2⟩).run (t.view 1) with
  | ok r s =>
    rw [htighten] at hresult
    simp only [Option.some.injEq, Prod.mk.injEq] at hresult
    have hpos : 0 < r.count := hresult.1 ▸ Nat.one_pos
    exact ⟨hcs, hcs', t, t', entry, r, s, hrun, hentry, hinner, htighten, hpos, hresult.2, hrun', hline⟩
  | error e s =>
    rw [htighten] at hresult
    cases hresult

/-- Out of turn, a node that a member tightens need not get into its own line, and may get there twice. -/
theorem not_forall_in_own_line :
    (¬ ∀ (cs : List (Command (BoundTable Float) Float 2)) (t : Team (BoundTable Float) Float 2) (p : Fin 2)
      (n : NodeId) (entry : Node Float) (x : Interval Float) (r : Tightened) (s : Propagation (BoundTable Float) Float),
      (new default 0 (.ofList [⟨-10, 10⟩])).PermitsAll cs →
        (new default 0 (.ofList [⟨-10, 10⟩])).serveAll cs = .ok t → t.graph.arena.node? n = some entry →
        entry.kind.isLeaf = false → (Propagation.tighten n x).run (t.view p) = .ok r s → 0 < r.count →
        n ∈ (t.after p s).line p) ∧
    ¬ ∀ (cs : List (Command (BoundTable Float) Float 2)) (t : Team (BoundTable Float) Float 2),
      (new default 0 (.ofList [⟨-10, 10⟩])).PermitsAll cs →
        (new default 0 (.ofList [⟨-10, 10⟩])).serveAll cs = .ok t → ∀ p, (t.line p).Nodup := by
  obtain ⟨hcs, hcs', t, t', entry, r, s, hrun, hentry, hinner, htighten, hr, hempty, hrun', hline⟩ :=
    out_of_turn_session
  constructor
  · intro hall
    have hown := hall _ t 1 1 entry _ r s hcs hrun hentry hinner htighten hr
    rw [line_after, if_pos rfl, hempty] at hown
    cases hown
  · intro hall
    have hnodup := hall _ t' hcs' hrun' 0
    rw [hline] at hnodup
    exact absurd hnodup (by decide)

/-! ### A team of one -/

omit [Scalar α] [BoundStore σ α] in
theorem turnAfter_of_one (cs : List (Command σ α 1)) : turnAfter 0 cs = some 0 := by
  have hturn : ∀ c : Command σ α 1, c.turn 0 = some 0 := by
    rintro (r | ⟨p, c⟩ | f | ⟨op, h⟩)
    · rfl
    · obtain rfl := Subsingleton.elim p 0
      cases c <;> rfl
    · rfl
    · rfl
  induction cs with
  | nil => rfl
  | cons c cs ih =>
    rw [turnAfter, List.foldlM_cons, hturn]
    exact ih

/-- **The line of a single propagator.** After any run of commands its nodes are the marked ones, each once. They are
in use, and bounds were propagated onto them in the current round, but they are no variables or constants. Working off
the line leaves nothing in it and no mark, whether or not it finds a contradiction, and it is not cut off. -/
theorem lined_of_serveAll [BitPattern α] (settings : Settings α) (identity : Nat) (store : σ)
    {cs : List (Command σ α 1)} {t : Team σ α 1} (hcs : (new settings identity store).PermitsAll cs)
    (hrun : (new settings identity store).serveAll cs = .ok t) :
    (t.line 0).Nodup ∧ (∀ n, t.graph.IsMarked n ↔ n ∈ t.line 0) ∧
      (∀ n ∈ t.line 0, t.graph.isAlive n = true ∧ ∃ entry, t.graph.arena.node? n = some entry ∧
        entry.kind.isLeaf = false ∧ t.graph.entryBounds? entry = some entry.propBounds) ∧
      match Propagation.drain.run (t.view 0) with
      | .ok _ s => s.propagator.queue.toList = [] ∧ ∀ n, ¬ s.graph.IsMarked n
      | .error e _ =>
        (∀ op kind x xs, ((t.graph.operators.handler op).reverse kind x xs).Ends) → e ≠ .diverged := by
  have horder := inOrder_of_serveAll (inOrder_new settings identity store) hcs hrun
  have hlined := (inTurn_of_serveAll (inTurn_new settings identity store 0) (inOrder_new settings identity store)
    hcs hrun (turnAfter_of_one cs)).lined
  refine ⟨hlined.nodup, fun n => ?_, fun n hn => ?_, ?_⟩
  · constructor
    · rintro ⟨node, hnode, hqueued⟩
      exact (hlined.markedIn n node hnode hqueued).2
    · intro hn
      obtain ⟨node, hnode, hqueued, -⟩ := hlined.waiting n hn
      exact ⟨node, hnode, hqueued⟩
  · obtain ⟨node, hnode, -, hinner, htag⟩ := hlined.waiting n hn
    exact ⟨hlined.isAlive hn, node, hnode, hinner, if_pos htag⟩
  · have hends : Meets Propagation.drain (t.view 0) (fun e =>
        (∀ op kind x xs, ((t.graph.operators.handler op).reverse kind x xs).Ends) → e ≠ .diverged) _ :=
      Propagation.meets_drain horder.sound.acyclic fun n m _ _ e he hhandlers => he.ne_diverged hhandlers
    have hdrain := Propagation.meets_iff_run.mp
      (hends.and (Propagation.Lined.meets_drain (s := t.view 0) hlined))
    cases hresult : Propagation.drain.run (t.view 0) with
    | ok r s =>
      rw [hresult] at hdrain
      obtain ⟨-, hline, hempty⟩ := hdrain
      refine ⟨hempty, ?_⟩
      rintro n ⟨node, hnode, hqueued⟩
      have hn := (hline.markedIn n node hnode hqueued).2
      rw [hempty] at hn
      cases hn
    | error e s =>
      rw [hresult] at hdrain
      exact hdrain

/-- A sum and a sum of it are in line with bounds that contradict each other. -/
theorem lined_of_serveAll_of_sums :
    let cs : List (Command (BoundTable Float) Float 1) :=
      [.request (.var 0), .request (.add (.sum [1] 0) [0]), .request (.add (.sum [1] 0) [1]), .call 0 .beginRound,
        .call 0 (.tighten 2 ⟨0, 5⟩), .call 0 (.tighten 1 ⟨6, 8⟩), .call 0 (.forward 2 false)]
    (new default 0 (.ofList [⟨-10, 10⟩])).PermitsAll cs ∧
      ∃ t r s, (new default 0 (.ofList [⟨-10, 10⟩])).serveAll cs = .ok t ∧ t.line 0 = [2, 1] ∧
        (∀ n, t.graph.IsMarked n ↔ n = 2 ∨ n = 1) ∧ Propagation.drain.run (t.view 0) = .ok r s ∧
        r.infeasible = true ∧ s.propagator.queue.toList = [] ∧ ∀ n, ¬ s.graph.IsMarked n := by
  intro cs
  have hcs : (new default 0 (BoundTable.ofList [⟨-10, 10⟩])).PermitsAll cs :=
    permitsAll_var_new (by decide +kernel)
  have hread : ((new default 0 (BoundTable.ofList [⟨-10, 10⟩])).serveAll cs).toOption.map (fun t =>
      (t.line 0, (Propagation.drain.run' (t.view 0)).map Tightened.infeasible)) = some ([2, 1], some true) := by
    rw [serveAll_var_new]
    decide +kernel
  obtain ⟨t, hrun, hread⟩ := Checked.exists_ok_of_toOption hread
  simp only [Prod.mk.injEq, Option.map_eq_some_iff] at hread
  obtain ⟨hline, r, hresult, hinfeasible⟩ := hread
  obtain ⟨s, hdrain⟩ := Propagation.exists_run_of_result hresult
  obtain ⟨-, hmarked, -, hdrained⟩ := lined_of_serveAll default 0 _ hcs hrun
  rw [hdrain] at hdrained
  refine ⟨hcs, t, r, s, hrun, hline, fun n => ?_, hdrain, hinfeasible, hdrained⟩
  rw [hmarked, hline]
  simp

end Team

end IntervalDag
