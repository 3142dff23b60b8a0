import IntervalDag.Proofs.Graph.WellFormed
import IntervalDag.Proofs.Walk.Commons

/-!
# Callers who own what they give back

Callers of a commons may ask for anything, also for nodes over operands that are no longer in use. The only rule is to
give back references that they hold (`Commons.OwnsAll`). The graph is well formed after every such run
(`Commons.wellFormed_of_serveAll`). `Commons.parts_in_step` spells out what that comes to.
-/

namespace IntervalDag.Commons

variable {α : Type} [Scalar α] [BitPattern α] [NumberText α] {s s' : Commons α} {answers : List (Nat × Walk.Answer)}

/-- Callers give back only references that they hold. -/
def Owns (s : Commons α) : Command α → Prop
  | .work (.request r) => s.workspace.session.Owns r
  | _ => True

/-- Each of the commands keeps to that when its turn comes. -/
def OwnsAll (s : Commons α) (cs : List (Command α)) : Prop := Run.Keeps (Run.state serve) Owns s cs

omit [BitPattern α] [NumberText α] in
instance (s : Commons α) : (c : Command α) → Decidable (s.Owns c)
  | .work (.request r) => inferInstanceAs (Decidable (s.workspace.session.Owns r))
  | .work (.call _) | .work (.changeBounds _) | .work (.evaluate _ _) | .work (.register _ _) | .work .renew
  | .analyse _ | .walk _ _ => isTrue trivial

instance (s : Commons α) (cs : List (Command α)) : Decidable (s.OwnsAll cs) :=
  inferInstanceAs (Decidable (Run.Keeps (Run.state serve) Owns s cs))

/-- **One command.** -/
theorem wellFormed_of_serve (h : s.Orderly) (hwf : s.graph.WellFormed s.workspace.held) {c : Command α}
    (hc : s.Owns c) (hrun : s.serve c = .ok (s', answers)) : s'.graph.WellFormed s'.workspace.held := by
  rcases serve_cases h hrun with ⟨r, rfl, hserve⟩ | ⟨op, handler, -, hgraph, hheld⟩ | ⟨hadvanced, hheld⟩
  · exact Session.wellFormed_of_serve (s := s.workspace.session) hwf h.ordered.intact hc hserve
  · rw [hgraph, hheld]
    exact ⟨⟨hwf.counted, hwf.acyclic, hwf.var_alive⟩, hwf.fitting, hwf.registered, hwf.roundEpoch_pos⟩
  · rw [hheld]
    exact hwf.of_advanced hadvanced

/-- **Runs of commands.** -/
theorem wellFormed_of_serveAll (h : s.Orderly) (hwf : s.graph.WellFormed s.workspace.held) {cs : List (Command α)}
    (hcs : s.OwnsAll cs) (hrun : s.serveAll cs = .ok (s', answers)) : s'.graph.WellFormed s'.workspace.held := by
  refine (Run.invariant_collect (I := fun s => s.Orderly ∧ s.graph.WellFormed s.workspace.held) ?_ ⟨h, hwf⟩ hcs hrun).2
  exact fun h hc hserve => ⟨orderly_of_serve h.1 hserve, wellFormed_of_serve h.1 h.2 hc hserve⟩

/-- **All parts stay in step.** After every run of callers who give back only what they hold, the operands of a node in
use are in use, and there are as many as its kind takes, for a sum one per coefficient. A variable has a node exactly
if there is one in use that stands for it, and there is at most one. A request for a node is declined exactly if the
kind does not take that many operands, and then changes nothing. Otherwise it is served if the operands are in use, and
hands out the node that the variable already has or one that was not in use before, of which nothing is cached. -/
theorem parts_in_step (settings : Settings α) (identity : Nat) (store : BoundTable α) {cs : List (Command α)}
    (hcs : (new settings identity store).OwnsAll cs)
    (hrun : (new settings identity store).serveAll cs = .ok (s, answers)) :
    (∀ n node, s.graph.node n = .ok node →
      (∀ c ∈ node.children, s.graph.isAlive c = true) ∧
      (∀ k, node.kind.arity = some k → node.children.length = k) ∧
      ∀ coefs constant, node.kind = .sum coefs constant → coefs.length = node.children.length) ∧
    (∀ v n, s.graph.varNode? v = some n ↔ s.graph.kind n = .ok (.var v)) ∧
    (∀ v m n, s.graph.kind m = .ok (.var v) → s.graph.kind n = .ok (.var v) → m = n) ∧
    (∀ r kind ops, r.asks? = some (kind, ops) →
      (∀ n g', s.graph.serve r = .ok ([n], g') →
        (∃ v, kind = .var v ∧ s.graph.varNode? v = some n) ∨
        s.graph.isAlive n = false ∧ g'.HasFresh n kind ops) ∧
      (kind.Takes ops.length → (∀ c ∈ ops, s.graph.isAlive c = true) →
        ∃ n g', s.graph.serve r = .ok ([n], g'))) ∧
    ∀ kind ops, ((∃ e, s.graph.add kind ops = .ok (.error e)) ↔ ¬ kind.Takes ops.length) ∧
      (¬ kind.Takes ops.length → s.serve (.work (.request (.add kind ops))) = .ok (s, [])) := by
  have hordered := orderly_of_serveAll (orderly_new settings identity store) hrun
  have hwf := wellFormed_of_serveAll (orderly_new settings identity store) (.empty settings identity) hcs hrun
  refine ⟨fun n node hn => ?_, fun v n => hwf.varNode?_eq_some_iff, fun v m n hm hn => ?_, fun r kind ops hr => ?_,
    fun kind ops => ⟨Graph.exists_add_eq_error_iff, fun htakes => ?_⟩⟩
  · have hnode := Graph.node?_of_node hn
    obtain ⟨harity, hcoefs⟩ := hwf.fitting n node hnode
    refine ⟨fun c hc => ?_, fun k hk => (harity k hk).symm, hcoefs⟩
    exact hwf.counted.isAlive_operand ((Arena.isOperand_iff hnode).mpr hc)
  · rw [← hwf.varNode?_eq_some_iff] at hm hn
    exact Option.some.inj (hm.symm.trans hn)
  · exact ⟨fun n g' hserve => (Graph.responds_of_serve hserve).shared_or_hasFresh hwf hr,
      hwf.toSound.exists_serve_of_takes hr⟩
  · obtain ⟨e, he⟩ := Graph.exists_add_eq_error_iff.mpr htakes
    have hserve : s.workspace.session.serve (.add kind ops) = .ok s.workspace.session :=
      Session.serve_eq_self (by rw [Graph.serve, Workspace.session, he]; rfl) rfl
    rw [serve, Workspace.serve, hserve]
    rfl

/-- A node was propagated to, evaluated and walked over before its entry became free. The node that takes over has
nothing of that. -/
theorem parts_in_step_of_recycled :
    let cs : List (Command Float) :=
      [.work (.request (.var 0)), .work (.request (.apply .exp 0 rfl)),
        .work (.request (.add (.sum [2, 3] 1) [0, 1])), .work (.request (.append 2 0 4)),
        .work (.call .beginRound), .work (.call (.tighten 1 ⟨1, 2⟩)), .work (.evaluate 2 fun _ => some 7),
        .walk 0 (.start (some 2) .depthFirst false), .walk 0 (.write 1 9), .walk 0 .drop,
        .work (.request (.add (.sum [1] 0) [7, 8])), .work (.request (.release 2)), .work (.request (.release 1))]
    (new default 0 (.ofList [])).OwnsAll cs ∧ ∃ s answers,
      (new default 0 (.ofList [])).serveAll cs = .ok (s, answers) ∧ s.graph.isAlive 1 = false ∧
      s.graph.kind 0 = .ok (.var 0) ∧ ∃ g', s.graph.serve (.apply .abs 0 rfl) = .ok ([1], g') ∧
        g'.HasFresh 1 .abs [0] := by
  intro cs
  have hcs : (new default 0 (.ofList [])).OwnsAll cs := by decide +kernel
  have hreturns : (match (new default 0 (.ofList [])).serveAll cs with
      | .ok (s, _) => s.graph.varNode? 0 == some 0 && !s.graph.isAlive 1 &&
        (match s.graph.serve (.apply .abs 0 rfl) with
          | .ok (given, _) => given == [1]
          | .error _ => false)
      | .error _ => false) = true := by decide +kernel
  refine ⟨hcs, ?_⟩
  split at hreturns
  · rename_i s answers hrun
    rw [Bool.and_eq_true, Bool.and_eq_true, beq_iff_eq, Bool.not_eq_true'] at hreturns
    obtain ⟨⟨hvar, hidle⟩, hserves⟩ := hreturns
    obtain ⟨-, hkind, -, hmade, -⟩ := parts_in_step default 0 (.ofList []) hcs hrun
    refine ⟨s, answers, hrun, hidle, (hkind 0 0).mp hvar, ?_⟩
    split at hserves
    · rename_i given g' hserve
      obtain rfl := eq_of_beq hserves
      rcases (hmade _ .abs [0] rfl).1 1 g' hserve with ⟨v, hv, -⟩ | ⟨-, hfresh⟩
      · cases hv
      · exact ⟨g', hserve, hfresh⟩
    · cases hserves
  · cases hreturns

end IntervalDag.Commons
