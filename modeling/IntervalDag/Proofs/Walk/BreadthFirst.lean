import IntervalDag.Proofs.Graph.Layers
import IntervalDag.Proofs.Graph.Search
import IntervalDag.Proofs.Walk.Commons
import IntervalDag.Proofs.Walk.Memory

/-!
# Breadth-first walks

A breadth-first walk has its nodes stand in line: it marks a node when the node gets in line, so that without revisits
none gets there twice. What it shows is what is served in this way (`Walk.exists_shows_served`), and that comes in
layers.

`Commons.breadthFirst_layered`: whatever was done with a graph before, a breadth-first walk shows every node below its
root once, closest nodes first, or with revisits every way down from the root once, shortest ways first.
-/

namespace IntervalDag

variable {α : Type}

namespace Walk

variable {revisits : Bool} {a : Arena α} {w : Walk} {g : Graph α}

/-- Those of some places get in line that are to. -/
theorem Remembers.exists_enqueue {seen : List NodeId} (h : Remembers revisits a w g seen) {ps : List Place}
    (hps : ∀ p ∈ ps, p.node < a.capacity) :
    ∃ w' g', w.enqueue g (ps.map Place.node) = .ok (w', g') ∧ w' = { w with queue := w'.queue } ∧
      w'.queue.toList = w.queue.toList ++ (newcomers revisits seen ps).map Place.node ∧
      Remembers revisits a w' g' (seen ++ (newcomers revisits seen ps).map Place.node) := by
  induction ps generalizing w g seen with
  | nil =>
    refine ⟨w, g, rfl, rfl, (List.append_nil _).symm, ?_⟩
    rwa [newcomers, List.map_nil, List.append_nil]
  | cons p ps ih =>
    have hp := hps p List.mem_cons_self
    have hps' : ∀ q ∈ ps, q.node < a.capacity := fun q hq => hps q (List.mem_cons_of_mem _ hq)
    rw [List.map_cons, enqueue, h.isVisited_eq hp, Checked.ok_bind, newcomers]
    cases !revisits && seen.contains p.node with
    | true => exact ih h hps'
    | false =>
      obtain ⟨g₁, hmark, hremembers⟩ := h.exists_markVisited hp
      have hpushed := hremembers.stand w.current w.stack (w.queue.push p.node)
      obtain ⟨w', g', hrun, hw', hqueue, hremembers'⟩ := ih hpushed hps'
      simp only [Bool.false_eq_true, if_false, List.map_cons]
      refine ⟨w', g', ?_, hw', ?_, ?_⟩
      · rw [hmark]
        exact hrun
      · rw [hqueue, Fifo.toList_push, List.append_assoc]
        rfl
      · rwa [List.append_assoc] at hremembers'

/-- A breadth-first walk has been to the places `done` and has the places `line` in line. -/
structure Serving (a : Arena α) (revisits : Bool) (w : Walk) (g : Graph α) (done line : List Place) : Prop
    extends Remembers revisits a w g ((done ++ line).map Place.node) where
  mode_eq : w.mode = .breadthFirst
  queue_eq : w.queue.toList = line.map Place.node
  inside : ∀ p ∈ line, p.node < a.capacity

variable {done line : List Place}

/-- **A step** goes to the first place in line, or to the end when nothing is in line. -/
theorem Serving.next (h : Serving a revisits w g done line) (hacyclic : a.Acyclic) (hinside : a.OperandsInside) :
    ∃ w' g' done' line', w.next g = .ok (w', g') ∧ Serving a revisits w' g' done' line' ∧
      w'.current = ((hacyclic.served revisits done line).map Place.node).head? ∧
      hacyclic.served revisits done' line' = (hacyclic.served revisits done line).tail := by
  rw [Walk.next, h.mode_eq]
  simp only [breadthFirstNext]
  rcases hpop : w.queue.pop? with _ | ⟨n, queue⟩
  · have hqueue := h.queue_eq
    rw [Fifo.pop?_eq_none hpop] at hqueue
    obtain rfl : line = [] := List.map_eq_nil_iff.mp hqueue.symm
    refine ⟨{ w with current := none }, g, done, [], rfl,
      ⟨h.stand none w.stack w.queue, h.mode_eq, h.queue_eq, h.inside⟩, ?_, ?_⟩
    · rw [Arena.Acyclic.served]
      rfl
    · rw [Arena.Acyclic.served]
      rfl
  · have hqueue := h.queue_eq
    rw [Fifo.pop?_eq_some hpop] at hqueue
    rcases line with _ | ⟨p, line⟩
    · cases hqueue
    obtain ⟨rfl, hrest⟩ := List.cons.inj hqueue
    have hpopped : Remembers revisits a { w with current := some p.node, queue } g ((done ++ p :: line).map Place.node) :=
      h.stand (some p.node) w.stack queue
    have hsteps : ∀ q ∈ p.steps a, q.node < a.capacity := fun q hq => by
      refine hinside q.node p.node ?_
      rw [Arena.IsOperand, ← Place.map_node_steps]
      exact List.mem_map_of_mem hq
    obtain ⟨w', g', hrun, hw', hline, hremembers⟩ := hpopped.exists_enqueue hsteps
    have hsub := newcomers_sublist revisits ((done ++ p :: line).map Place.node) (p.steps a)
    refine ⟨w', g', done ++ [p], line ++ newcomers revisits ((done ++ p :: line).map Place.node) (p.steps a), ?_,
      ⟨?_, ?_, ?_, fun q hq => ?_⟩, ?_, ?_⟩
    · change (g.arena.children p.node >>= _) = _
      rw [h.children_eq (h.inside p List.mem_cons_self), ← Place.map_node_steps]
      exact hrun
    · rwa [Arena.serve_append, List.map_append]
    · rw [hw']
      exact h.mode_eq
    · refine hline.trans ?_
      change queue.toList ++ _ = _
      rw [hrest]
      exact List.map_append.symm
    · rcases List.mem_append.mp hq with hq | hq
      · exact h.inside q (List.mem_cons_of_mem _ hq)
      · exact hsteps q (hsub.subset hq)
    · rw [hw', Arena.Acyclic.served]
      rfl
    · rw [Arena.Acyclic.served, List.tail_cons]

/-- **Walks.** A breadth-first walk that gets the slot it needs shows what is served to those who stand in line from the
root on, and has ended then for good. -/
theorem exists_shows_served (htags : g.TagsGiven) (hacyclic : g.arena.Acyclic) (hinside : g.arena.OperandsInside)
    (hhome : w.home = g.identity) (hslot : revisits = true ∨ w.slot ≠ none ∨ g.walks.lowestFree? ≠ none) {root : NodeId}
    (hroot : root < g.arena.capacity) :
    ∃ w' g', w.start g (some root) .breadthFirst revisits = .ok (w', g') ∧
      w'.Shows g' ((hacyclic.served revisits [] [⟨[], root⟩]).map Place.node) := by
  obtain ⟨w₁, g₁, hrun, hready⟩ := exists_ready_of_tracks .breadthFirst revisits hhome fun htracks =>
    hslot.resolve_left (by simpa [tracks] using htracks)
  obtain ⟨g₂, hmark, hremembers⟩ := (hready.remembers htags).exists_markVisited hroot
  have hserving : Serving g.arena revisits { w₁ with queue := w₁.queue.push root } g₂ [] [⟨[], root⟩] := by
    refine ⟨hremembers.stand w₁.current w₁.stack (w₁.queue.push root), hready.mode_eq, ?_, fun p hp => ?_⟩
    · rw [Fifo.toList_push, hready.rest_eq]
      rfl
    · rw [List.mem_singleton.mp hp]
      exact hroot
  obtain ⟨w', g', done, line, hnext, hserving', hcurrent, hrest⟩ := hserving.next hacyclic hinside
  refine ⟨w', g', ?_, ?_⟩
  · rw [start_eq_ready, hrun]
    change (w₁.markVisited g₁ root >>= _) = _
    rw [hmark]
    exact hnext
  · refine .of_steps (I := fun w g ns => w.current = ns.head? ∧ ∃ done line, Serving _ revisits w g done line ∧
      ns.tail = (hacyclic.served revisits done line).map Place.node) And.left (fun {w g ns} hI => ?_)
      ⟨hcurrent, done, line, hserving', ?_⟩
    · obtain ⟨-, done, line, hserving, hns⟩ := hI
      obtain ⟨w', g', done', line', hnext, hserving', hcurrent, hrest⟩ := hserving.next hacyclic hinside
      exact ⟨w', g', hnext, hns ▸ hcurrent, done', line', hserving', by rw [hns, hrest, List.map_tail]⟩
    · rw [hrest, List.map_tail]

end Walk

/-! ### Any state of a graph -/

namespace Commons

variable [Scalar α] [BitPattern α] [NumberText α]

/-- **Breadth-first walks come in layers.** Take any state that a new workspace and its walks can be brought to. The
graph has no cycles if callers kept to the rules, and whenever it has none, a breadth-first walk started at any node
meets no fault, however many steps it takes, and it ends. With revisits the nodes it shows are where the ways down from
the root lead: each way comes once, and none before a shorter one. Without revisits, if the walk holds a slot or can
have one, it shows every node at or below the root once. Of two nodes the one closer to the root comes first and, at one
distance, the one that is used first: by a node shown earlier, or by the same node as an earlier operand. -/
theorem breadthFirst_layered (settings : Settings α) (identity : Nat) (store : BoundTable α) {cs : List (Command α)}
    {s : Commons α} {answers : List (Nat × Walk.Answer)}
    (hrun : (new settings identity store).serveAll cs = .ok (s, answers)) :
    ((new settings identity store).PermitsAll cs → s.graph.arena.Acyclic) ∧
    ∀ (i : Nat) (root : NodeId), s.graph.arena.Acyclic → root < s.graph.arena.capacity →
      (∃ (order : List NodeId) (ways : List (List Nat)),
        (∃ w g, (s.walks i).start s.graph (some root) .breadthFirst true = .ok (w, g) ∧ w.Shows g order) ∧
        ways.map (s.graph.arena.descend root) = order.map some ∧ ways.Nodup ∧
        (∀ way, way ∈ ways ↔ way ∈ s.graph.arena.ways root) ∧
        ways.Pairwise fun way way' => way.length ≤ way'.length) ∧
      ((s.walks i).slot ≠ none ∨ s.graph.walks.lowestFree? ≠ none →
        ∃ order,
          (∃ w g, (s.walks i).start s.graph (some root) .breadthFirst false = .ok (w, g) ∧ w.Shows g order) ∧
          order.Nodup ∧ (∀ n, n ∈ order ↔ s.graph.arena.Below n root) ∧
          order.Pairwise fun m n =>
            s.graph.arena.distance root m < s.graph.arena.distance root n ∨
              s.graph.arena.distance root m = s.graph.arena.distance root n ∧
                Prod.Lex (· < ·) (· < ·) (s.graph.arena.firstUse order m) (s.graph.arena.firstUse order n)) := by
  have horderly : s.Orderly := orderly_of_serveAll (orderly_new settings identity store) hrun
  have htags := horderly.ordered.tagsGiven
  have hinside := horderly.ordered.intact.operandsInside
  refine ⟨fun hcs => ?_, fun i root hacyclic hroot => ⟨?_, fun hslot => ?_⟩⟩
  · exact (sound_of_serveAll (orderly_new settings identity store) (.empty settings identity) hcs hrun).acyclic
  · obtain ⟨hway, hnodup, hall, hsorted⟩ := hacyclic.served_ways root
    refine ⟨_, (hacyclic.served true [] [⟨[], root⟩]).map Place.way,
      Walk.exists_shows_served htags hacyclic hinside (horderly.home i) (Or.inl rfl) hroot, ?_, hnodup, fun way => ?_,
      List.pairwise_map.mpr hsorted⟩
    · rw [List.map_map, List.map_map]
      exact List.map_congr_left hway
    · rw [List.mem_map]
      constructor
      · rintro ⟨p, hp, rfl⟩
        exact Option.isSome_iff_exists.mpr ⟨_, hway p hp⟩
      · intro hmem
        obtain ⟨n, hn⟩ := Option.isSome_iff_exists.mp hmem
        exact ⟨_, hall way n hn, rfl⟩
  · exact ⟨_, Walk.exists_shows_served htags hacyclic hinside (horderly.home i) (Or.inr hslot) hroot,
      hacyclic.served_nodes root rfl⟩

/-- A product of a sum with its own operand, which is reached at two depths. -/
theorem breadthFirst_layered_of_shared :
    let cs : List (Command Float) :=
      [.work (.request (.value 1)), .work (.request (.apply .exp 0 rfl)),
        .work (.request (.add (.sum [1, 1] 0) [1, 0])), .work (.request (.add (.product 1) [0, 2])),
        .walk 7 (.start (some 3) .breadthFirst false), .walk 7 .next]
    ∃ s answers, (new default 0 (.ofList [])).PermitsAll cs ∧
      (new default 0 (.ofList [])).serveAll cs = .ok (s, answers) ∧
      ∃ w g w' g' order order', (s.walks 7).start s.graph (some 3) .breadthFirst false = .ok (w, g) ∧
        w.Shows g order ∧ order.Nodup ∧ 0 ∈ order ∧
        (s.walks 7).start s.graph (some 3) .breadthFirst true = .ok (w', g') ∧ w'.Shows g' order' := by
  intro cs
  have hcs : (new default 0 (.ofList [])).PermitsAll cs := by decide +kernel
  have hreturns : (match (new default 0 (.ofList [])).serveAll cs with
      | .ok (s, _) => decide (3 < s.graph.arena.capacity) && (s.walks 7).slot.isSome &&
          decide (s.graph.arena.operands 3 = [0, 2])
      | .error _ => false) = true := by decide +kernel
  rcases hrun : (new default 0 (.ofList [])).serveAll cs with e | ⟨s, answers⟩
  · rw [hrun] at hreturns
    cases hreturns
  rw [hrun] at hreturns
  simp only [Bool.and_eq_true, decide_eq_true_eq] at hreturns
  obtain ⟨⟨hroot, hslot⟩, hoperands⟩ := hreturns
  obtain ⟨hacyclic, hwalks⟩ := breadthFirst_layered default 0 (.ofList []) hrun
  obtain ⟨⟨order', -, ⟨w', g', hstart', hshows'⟩, -⟩, hwithout⟩ := hwalks 7 3 (hacyclic hcs) hroot
  obtain ⟨order, ⟨w, g, hstart, hshows⟩, hnodup, hmem, -⟩ := hwithout (Or.inl (Option.isSome_iff_ne_none.mp hslot))
  have hop : s.graph.arena.IsOperand 0 3 := by
    rw [Arena.IsOperand, hoperands]
    exact List.mem_cons_self
  exact ⟨s, answers, hcs, rfl, w, g, w', g', order, order', hstart, hshows, hnodup, (hmem 0).mpr hop.below, hstart',
    hshows'⟩

end Commons

end IntervalDag
