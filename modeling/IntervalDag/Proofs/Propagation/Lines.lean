import IntervalDag.Proofs.Graph.Inheritance
import IntervalDag.Proofs.Propagation.Calls

/-!
# Lines and marks

A node that waits for reverse propagation stands in the line of a propagator and is marked on the graph. The mark
does not tell whose line it is. `Graph.MarkedIn` says where the marked nodes are, and `Graph.Lined` that a list is
the line that the marks are about: it names the marked nodes once each, and all of them wait rightly.

Both are shown for every single step of propagation and for requests in between, and from there for every call
(`Propagation.lasting_markedIn`, `Propagation.lasting_lined`).
-/

namespace IntervalDag

variable {σ α : Type}

/-- What of an entry matters for its place in line. -/
def Node.standing (node : Node α) : Bool × Nat × Bool × Nat :=
  (node.queued, node.refs, node.kind.isLeaf, node.propTag)

namespace Graph

/-- Nodes that are marked as waiting are in use and have the property `P`. -/
def MarkedIn (g : Graph α) (P : NodeId → Prop) : Prop :=
  ∀ n node, g.arena.node? n = some node → node.queued = true → 0 < node.refs ∧ P n

/-- The nodes `ns` stand in line: these are the marked ones, each of them once. They are operators' nodes, and bounds
were propagated onto them in the current round. -/
structure Lined (g : Graph α) (ns : List NodeId) : Prop where
  nodup : ns.Nodup
  markedIn : g.MarkedIn (· ∈ ns)
  waiting : ∀ n ∈ ns, ∃ node, g.arena.node? n = some node ∧ node.queued = true ∧ node.kind.isLeaf = false ∧
    node.propTag = g.roundEpoch

variable {g g' : Graph α} {P Q : NodeId → Prop} {n : NodeId} {ns : List NodeId}

/-! ### Marks -/

/-- Clearing a line changes nothing but marks. -/
theorem agreeOn_unqueue (g : Graph α) (ns : List NodeId) {β : Type} {f : Node α → β}
    (hf : ∀ node, f { node with queued := false } = f node) : Arena.AgreeOn f g.arena (g.unqueue ns).arena := by
  induction ns generalizing g with
  | nil => exact .refl _ _
  | cons n ns ih =>
    rw [unqueue, List.foldl_cons]
    split_ifs
    · have hsame : Arena.AgreeOn f g.arena (g.modify n fun entry => { entry with queued := false }).arena :=
        .of_modify hf
      exact hsame.trans (ih _)
    · exact ih _

namespace MarkedIn

theorem mono (h : g.MarkedIn P) (hPQ : ∀ n, P n → Q n) : g.MarkedIn Q := fun n node hnode hqueued =>
  (h n node hnode hqueued).imp_right (hPQ n)

theorem of_agree (h : g.MarkedIn P) (hsame : Arena.AgreeOn (fun node => (node.queued, node.refs)) g.arena g'.arena) :
    g'.MarkedIn P := by
  intro n node' hnode' hqueued
  obtain ⟨node, hnode, heq⟩ := hsame.symm.exists_node? hnode'
  rw [Prod.mk.injEq] at heq
  rw [← heq.2]
  exact h n node hnode (heq.1.trans hqueued)

theorem opened (g : Graph α) : g.opened.MarkedIn P := by
  intro n node hnode hqueued
  rw [queued_of_opened hnode] at hqueued
  cases hqueued

/-- A node may be marked if it is in use. -/
theorem mark (h : g.MarkedIn P) (hn : g.arena.isAlive n = true) :
    (g.modify n fun entry => { entry with queued := true }).MarkedIn fun m => P m ∨ m = n := by
  intro m node hnode hqueued
  rw [modify, Arena.node?_modify] at hnode
  split_ifs at hnode with hmn
  · obtain ⟨old, hold, rfl⟩ := Option.map_eq_some_iff.mp hnode
    rw [← hmn, Arena.isAlive_iff, Arena.refs_eq_of_node? hold] at hn
    exact ⟨hn, Or.inr hmn⟩
  · exact (h m node hnode hqueued).imp_right Or.inl

theorem unmark (h : g.MarkedIn P) (n : NodeId) :
    (g.modify n fun entry => { entry with queued := false }).MarkedIn fun m => P m ∧ m ≠ n := by
  intro m node hnode hqueued
  rw [modify, Arena.node?_modify] at hnode
  split_ifs at hnode with hmn
  · obtain ⟨old, -, rfl⟩ := Option.map_eq_some_iff.mp hnode
    cases hqueued
  · exact (h m node hnode hqueued).imp_right fun hm => ⟨hm, hmn⟩

/-- Marked nodes are in use, so clearing a line leaves none of its nodes marked. -/
theorem unqueue (h : g.MarkedIn P) (ns : List NodeId) : (g.unqueue ns).MarkedIn fun m => P m ∧ m ∉ ns := by
  intro m node hnode hqueued
  obtain ⟨entry, hentry, hmarked, hdead⟩ := exists_queued_of_unqueue hnode hqueued
  obtain ⟨hpos, hm⟩ := h m entry hentry hmarked
  obtain ⟨node₁, hnode₁, hrefs⟩ := (g.agreeOn_unqueue ns (f := Node.refs) fun _ => rfl).exists_node? hentry
  cases hnode.symm.trans hnode₁
  refine ⟨hrefs ▸ hpos, hm, fun hmem => ?_⟩
  have halive : g.arena.isAlive m = true := by rwa [Arena.isAlive_iff, Arena.refs_eq_of_node? hentry]
  rw [hdead hmem] at halive
  cases halive

/-- Requests mark no node. -/
theorem inherits [Scalar α] (h : g.MarkedIn P) (hinherits : g.Inherits g')
    (halive : ∀ n, P n → g'.arena.isAlive n = true) : g'.MarkedIn P := by
  intro n node' hnode' hqueued
  rcases hinherits.entry n node' hnode' with ⟨kind, children, refs, rfl, -⟩ | ⟨node, hnode, hfrom⟩
  · cases hqueued
  · rw [hfrom.eq] at hqueued
    have hn := (h n node hnode hqueued).2
    refine ⟨?_, hn⟩
    have hpos := Arena.isAlive_iff.mp (halive n hn)
    rwa [Arena.refs_eq_of_node? hnode'] at hpos

end MarkedIn

/-! ### Lines -/

namespace Lined

theorem isAlive (h : g.Lined ns) (hn : n ∈ ns) : g.arena.isAlive n = true := by
  obtain ⟨node, hnode, hqueued, -⟩ := h.waiting n hn
  rw [Arena.isAlive_iff, Arena.refs_eq_of_node? hnode]
  exact (h.markedIn n node hnode hqueued).1

theorem of_agree (h : g.Lined ns) (hsame : Arena.AgreeOn Node.standing g.arena g'.arena)
    (hround : g'.roundEpoch = g.roundEpoch) : g'.Lined ns where
  nodup := h.nodup
  markedIn := h.markedIn.of_agree (hsame.map fun standing => (standing.1, standing.2.1))
  waiting n hn := by
    obtain ⟨node, hnode, hqueued, hinner, htag⟩ := h.waiting n hn
    obtain ⟨node', hnode', heq⟩ := hsame.exists_node? hnode
    simp only [Node.standing, Prod.mk.injEq] at heq
    exact ⟨node', hnode', heq.1.trans hqueued, heq.2.2.1.trans hinner, heq.2.2.2.trans (htag.trans hround.symm)⟩

theorem opened (g : Graph α) : g.opened.Lined [] := ⟨List.nodup_nil, .opened g, nofun⟩

/-- A node that bounds were propagated onto in the current round may be put in line if it is not marked. -/
theorem mark (h : g.Lined ns) (hn : g.arena.isAlive n = true) {node : Node α} (hnode : g.arena.node? n = some node)
    (hqueued : node.queued = false) (hinner : node.kind.isLeaf = false) (htag : node.propTag = g.roundEpoch) :
    (g.modify n fun entry => { entry with queued := true }).Lined (ns ++ [n]) where
  nodup := by
    have hnew : n ∉ ns := by
      intro hmem
      obtain ⟨node', hnode', hqueued', -⟩ := h.waiting n hmem
      cases hnode.symm.trans hnode'
      rw [hqueued] at hqueued'
      cases hqueued'
    rw [← List.concat_eq_append]
    exact h.nodup.concat hnew
  markedIn := (h.markedIn.mark hn).mono fun m hm => List.mem_append.mpr (hm.imp_right List.mem_singleton.mpr)
  waiting m hm := by
    rw [modify, Arena.node?_modify]
    by_cases hmn : m = n
    · rw [if_pos hmn, hmn, hnode]
      exact ⟨_, rfl, rfl, hinner, htag⟩
    · rw [if_neg hmn]
      rw [List.mem_append, List.mem_singleton] at hm
      exact h.waiting m (hm.resolve_right hmn)

/-- The first node may be taken out. -/
theorem unmark (h : g.Lined (n :: ns)) : (g.modify n fun entry => { entry with queued := false }).Lined ns where
  nodup := (List.nodup_cons.mp h.nodup).2
  markedIn := (h.markedIn.unmark n).mono fun m hm => (List.mem_cons.mp hm.1).resolve_left hm.2
  waiting m hm := by
    have hmn : m ≠ n := fun heq => (List.nodup_cons.mp h.nodup).1 (heq ▸ hm)
    rw [modify, Arena.node?_modify, if_neg hmn]
    exact h.waiting m (List.mem_cons_of_mem n hm)

theorem unqueue (h : g.Lined ns) : (g.unqueue ns).Lined [] :=
  ⟨List.nodup_nil, (h.markedIn.unqueue ns).mono fun _ hm => absurd hm.1 hm.2, nofun⟩

/-- Requests that leave the nodes in line in use leave the line in order. -/
theorem inherits [Scalar α] (h : g.Lined ns) (hinherits : g.Inherits g') {held : Holding}
    (hcounted : g.arena.Counted held) (halive : ∀ n ∈ ns, g'.arena.isAlive n = true) : g'.Lined ns where
  nodup := h.nodup
  markedIn := h.markedIn.inherits hinherits halive
  waiting n hn := by
    obtain ⟨node, hnode, hqueued, hinner, htag⟩ := h.waiting n hn
    obtain ⟨node₁, node', hnode₁, hnode', hfrom⟩ := hinherits.of_isAlive hcounted (h.isAlive hn) (halive n hn)
    cases hnode.symm.trans hnode₁
    refine ⟨node', hnode', ?_, hfrom.isLeaf_eq.trans hinner, ?_⟩
    · rw [hfrom.eq]
      exact hqueued
    · rw [hfrom.eq, hinherits.roundEpoch_eq]
      exact htag

end Lined

end Graph

namespace Propagation

/-! ### Steps -/

variable {s s' s₁ : Propagation σ α} {n : NodeId} {P O : NodeId → Prop}

/-- The marked nodes stand in the line of the propagator, or have the property `O`. -/
def MarkedIn (O : NodeId → Prop) (s : Propagation σ α) : Prop :=
  s.graph.MarkedIn fun n => n ∈ s.propagator.queue.toList ∨ O n

/-- The line of the propagator is in order. -/
def Lined (s : Propagation σ α) : Prop := s.graph.Lined s.propagator.queue.toList

/-- A node that is taken from the line is not marked any more. -/
theorem MarkedIn.takenOut (h : s.MarkedIn O) {queue : Fifo NodeId} (hpop : s.propagator.queue.pop? = some (n, queue)) :
    (s.takenOut n queue).MarkedIn O := by
  refine (Graph.MarkedIn.unmark h n).mono fun m hm => ?_
  obtain ⟨hm, hmn⟩ := hm
  rw [Fifo.pop?_eq_some hpop, List.mem_cons] at hm
  exact hm.imp_left fun hm => hm.resolve_left hmn

theorem Lined.takenOut (h : s.Lined) {queue : Fifo NodeId} (hpop : s.propagator.queue.pop? = some (n, queue)) :
    (s.takenOut n queue).Lined := by
  rw [Lined, Fifo.pop?_eq_some hpop] at h
  exact h.unmark

theorem MarkedIn.dropped (h : s.MarkedIn O) : s.dropped.MarkedIn O :=
  (Graph.MarkedIn.unqueue h s.propagator.queue.toList).mono fun _ hm => Or.inr (hm.1.resolve_left hm.2)

theorem Lined.dropped (h : s.Lined) : s.dropped.Lined := Graph.Lined.unqueue h

variable [Scalar α]

theorem node?_written (s : Propagation σ α) (n : NodeId) (known x : Interval α) (m : NodeId) :
    (s.written n known x).graph.arena.node? m =
      if m = n then (s.graph.arena.node? m).map fun entry =>
        { entry with
          propBounds := x
          propTag := s.graph.roundEpoch
          activity := if s.graph.isUsable entry then entry.activity.inter x else entry.activity }
      else s.graph.arena.node? m :=
  Arena.node?_modify _ _ _ _

/-- Writing down bounds marks no node. -/
theorem MarkedIn.written (h : s.MarkedIn O) (n : NodeId) (known x : Interval α) : (s.written n known x).MarkedIn O :=
  Graph.MarkedIn.of_agree h (.of_modify fun _ => rfl)

/-- Writing down bounds puts a node into the current round. -/
theorem Lined.written (h : s.Lined) (n : NodeId) (known x : Interval α) : (s.written n known x).Lined where
  nodup := h.nodup
  markedIn := h.markedIn.of_agree (.of_modify fun _ => rfl)
  waiting m hm := by
    obtain ⟨node, hnode, hqueued, hinner, htag⟩ := h.waiting m hm
    rw [node?_written]
    split_ifs
    · rw [hnode]
      exact ⟨_, rfl, hqueued, hinner, rfl⟩
    · exact ⟨node, hnode, hqueued, hinner, htag⟩

variable [BoundStore σ α] {x : Interval α} {t : Tightened}

/-- **Tightening a node** leaves the marks right. -/
theorem MarkedIn.tightens (h : s.MarkedIn O) (ht : Tightens n x s t s') : s'.MarkedIn O := by
  cases ht with
  | disjoint | kept => exact h
  | taken hknown hempty htight hentry hpass =>
    rename_i known entry
    have hwritten := h.written n known (known.inter x)
    cases hpass with
    | tightened | unchanged | refused | constant | waiting => exact hwritten
    | lined =>
      have hsame : Arena.AgreeOn Node.refs s.graph.arena (s.written n known (known.inter x)).graph.arena :=
        .of_modify fun _ => rfl
      have halive := (currentBounds_eq_ok_iff.mp hknown).1
      rw [← hsame.isAlive_eq] at halive
      refine (Graph.MarkedIn.mark hwritten halive).mono fun m hm => ?_
      have hqueue : ((s.written n known (known.inter x)).lined n).propagator.queue.toList =
          s.propagator.queue.toList ++ [n] := Fifo.toList_push ..
      rw [hqueue, List.mem_append, List.mem_singleton]
      rcases hm with (hm | hm) | hm
      · exact Or.inl (Or.inl hm)
      · exact Or.inr hm
      · exact Or.inl (Or.inr hm)

/-- **Tightening a node** leaves the line in order. -/
theorem Lined.tightens (h : s.Lined) (ht : Tightens n x s t s') : s'.Lined := by
  cases ht with
  | disjoint | kept => exact h
  | taken hknown hempty htight hentry hpass =>
    rename_i known entry
    have hwritten := h.written n known (known.inter x)
    cases hpass with
    | tightened | unchanged | refused | constant | waiting => exact hwritten.of_agree (.refl _ _) rfl
    | lined hinner hqueued =>
      have hsame : Arena.AgreeOn Node.refs s.graph.arena (s.written n known (known.inter x)).graph.arena :=
        .of_modify fun _ => rfl
      have halive := (currentBounds_eq_ok_iff.mp hknown).1
      rw [← hsame.isAlive_eq] at halive
      have hnode := s.node?_written n known (known.inter x) n
      rw [if_pos rfl, hentry] at hnode
      have hline := Graph.Lined.mark hwritten halive hnode hqueued hinner rfl
      rwa [← Fifo.toList_push] at hline

/-! ### Calls -/

section Forward

omit [Scalar α] [BoundStore σ α]

/-- A property of the line and of the places of nodes in it outlives forward propagation. -/
theorem unmoved_of_standing {I : Propagation σ α → Prop}
    (hI : ∀ {s s'}, I s → Arena.AgreeOn Node.standing s.graph.arena s'.graph.arena →
      s'.graph.roundEpoch = s.graph.roundEpoch → s'.propagator.queue = s.propagator.queue → I s') : Unmoved I where
  walked h hwalked := hI h (hwalked.agree.map Node.standing) (by rw [hwalked.rest_eq]) rfl
  recomputed n x reported records stats _ h := hI h (.of_modify fun _ => rfl) rfl rfl
  contradicted records _ h := hI h (.refl _ _) rfl rfl

theorem MarkedIn.of_standing (h : s.MarkedIn O) (hsame : Arena.AgreeOn Node.standing s.graph.arena s'.graph.arena)
    (hqueue : s'.propagator.queue = s.propagator.queue) : s'.MarkedIn O := by
  rw [MarkedIn, hqueue]
  exact Graph.MarkedIn.of_agree h (hsame.map fun standing => (standing.1, standing.2.1))

theorem Lined.of_standing (h : s.Lined) (hsame : Arena.AgreeOn Node.standing s.graph.arena s'.graph.arena)
    (hround : s'.graph.roundEpoch = s.graph.roundEpoch) (hqueue : s'.propagator.queue = s.propagator.queue) :
    s'.Lined := by
  rw [Lined, hqueue]
  exact Graph.Lined.of_agree h hsame hround

end Forward

/-- **No call** marks a node that stands in no line. -/
theorem lasting_markedIn (O : NodeId → Prop) : Lasting (fun _ => True) (MarkedIn O : Propagation σ α → Prop) where
  toUnmoved := unmoved_of_standing fun h hsame _ hqueue => h.of_standing hsame hqueue
  reopened _ := .opened _
  noted _ _ _ _ h := h.of_standing (.refl _ _) rfl
  tightens h _ ht := h.tightens ht
  drained h := by
    have hpreserves : Preserves (fun _ => True) (MarkedIn O : Propagation σ α → Prop) (MarkedIn O) := by
      refine ⟨fun h hpop => ⟨h.takenOut hpop, fun _ _ => trivial⟩, fun _ _ _ _ h => h.of_standing (.refl _ _) rfl,
        fun h _ ht => ?_, id⟩
      rw [ite_self]
      exact h.tightens ht
    exact (hpreserves.meets_drain_of_dropped id MarkedIn.dropped h).imp fun _ _ hs => hs.1

/-- **Working off the line** leaves nothing in it, and it in order. -/
theorem Lined.meets_drain (h : s.Lined) :
    Meets drain s (fun _ => True) fun _ s' => s'.Lined ∧ s'.propagator.queue.toList = [] := by
  have hpreserves : Preserves (fun _ => True) (Lined : Propagation σ α → Prop) Lined := by
    refine ⟨fun h hpop => ⟨h.takenOut hpop, fun _ _ => trivial⟩,
      fun _ _ _ _ h => h.of_standing (.refl _ _) rfl rfl, fun h _ ht => ?_, id⟩
    rw [ite_self]
    exact h.tightens ht
  exact hpreserves.meets_drain_of_dropped id Lined.dropped h

/-- **No call** leaves the line in disorder. -/
theorem lasting_lined : Lasting (fun _ => True) (Lined : Propagation σ α → Prop) where
  toUnmoved := unmoved_of_standing Lined.of_standing
  reopened _ := .opened _
  noted _ _ _ _ h := h.of_standing (.refl _ _) rfl rfl
  tightens h _ ht := h.tightens ht
  drained h := h.meets_drain.imp fun _ _ hs => hs.1

end Propagation

end IntervalDag
