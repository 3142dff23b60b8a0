import IntervalDag.Proofs.Graph.Requests

/-!
# Cycles

Appending declines every operand that has its new parent below it. That keeps a graph free of cycles as
long as callers give back only references that they hold (`append_decides`). A caller who gives back one
reference too many frees a node that is still an operand. The next node takes over its number, and with it
the place among the operands, so a request that makes a node can close a cycle
(`exists_cycle_of_overrelease`).

What `append` decides does not depend on that. The search for the parent ends even if there are cycles.
-/

namespace IntervalDag.Session

variable {α : Type} [Scalar α]

/-- Each of the requests gives back only references that are held when its turn comes. -/
def OwnsAll (s : Session α) (rs : List (Request α)) : Prop := Run.Keeps serve Owns s rs

instance (s : Session α) (rs : List (Request α)) : Decidable (s.OwnsAll rs) :=
  inferInstanceAs (Decidable (Run.Keeps serve Owns s rs))

/-- **One request.** Owners leave the graph sound, also if they name nodes out of use. -/
theorem sound_of_serve {s s' : Session α} {r : Request α} (h : s.graph.Sound s.held) (howns : s.Owns r)
    (hserve : s.serve r = .ok s') : s'.graph.Sound s'.held := by
  rcases permits_of_serve howns hserve with hpermits | rfl
  · obtain ⟨s₁, hserve₁, hsound⟩ := exists_serve h hpermits
    cases hserve.symm.trans hserve₁
    exact hsound
  · exact h

/-- **Appending decides exactly, and keeps rule-abiding runs free of cycles.** After any run of requests,
appending an operand in use to a node in use is declined if the node is neither a sum nor a product, and
otherwise if the node is the operand or lies below it, and in all other cases is done with the effect of
`Graph.Appended`. A declined request leaves the session as it was. If callers gave back only references
that they held, no node in use reaches itself along edges. -/
theorem append_decides [BitPattern α] (settings : Settings α) (identity : Nat) {rs : List (Request α)}
    {s : Session α} (hrun : (Session.new settings identity).serveAll rs = .ok s) :
    ((Session.new settings identity).OwnsAll rs →
      ∀ n, s.graph.isAlive n = true → ¬ Relation.TransGen s.graph.arena.IsOperand n n) ∧
    ∀ parent child coef, s.graph.isAlive parent = true → s.graph.isAlive child = true →
      ∃ p, s.graph.arena.node? parent = some p ∧
        (p.kind.op ≠ .sum ∧ p.kind.op ≠ .product →
          s.graph.append parent child coef = .ok (.error (.notAssociative parent p.kind.op))) ∧
        ((p.kind.op = .sum ∨ p.kind.op = .product) → s.graph.arena.Below parent child →
          s.graph.append parent child coef = .ok (.error (.wouldCreateCycle parent child))) ∧
        ((p.kind.op = .sum ∨ p.kind.op = .product) → ¬ s.graph.arena.Below parent child →
          ∃ g', s.graph.append parent child coef = .ok (.ok g') ∧
            Graph.Appended s.graph g' parent child coef ∧ s.graph.boundsEpoch < g'.boundsEpoch) ∧
        ∀ e, s.graph.append parent child coef = .ok (.error e) →
          s.serve (.append parent child coef) = .ok s := by
  have hintact := intact_of_serveAll (Graph.Intact.empty settings identity) hrun
  refine ⟨fun hrs n _ => ?_, fun parent child coef hp hc => ?_⟩
  · have hsound := Run.invariant (I := fun s : Session α => s.graph.Sound s.held) sound_of_serve
      (Graph.Sound.empty settings identity) hrs hrun
    exact hsound.acyclic.not_transGen n
  obtain ⟨p, hnode, -⟩ := Arena.exists_node?_of_isAlive hp
  refine ⟨p, hnode, fun hop => ?_, fun hop hbelow => ?_, fun hop hbelow => ?_, fun e he => ?_⟩
  · refine Graph.append_of_fixed coef hp hnode hc ?_
    rw [← Bool.not_eq_true, Kind.isAssociative_iff]
    exact fun h => h.elim hop.1 hop.2
  · exact Graph.append_of_below coef hintact.operandsInside hp hnode hc (p.kind.isAssociative_iff.mpr hop) hbelow
  · obtain ⟨g', hrun', happ⟩ := Graph.exists_append coef hintact.operandsInside hp hnode hc
      (p.kind.isAssociative_iff.mpr hop) hbelow
    refine ⟨g', hrun', happ, ?_⟩
    rw [happ.rest_eq]
    exact Nat.lt_succ_of_le hintact.boundsEpoch_le
  · rw [serve, Graph.serve, he]
    rfl

/-- A product that a sum has as an operand may not take the sum, while the sum may take the product's
operand besides. A request that names nodes out of use is declined, and closes no cycle. -/
theorem append_decides_of_shared :
    let rs : List (Request Float) :=
      [.value 1, .add (.product 2) [0], .add (.sum [3, 4] 0) [1, 0], .add (.sum [1] 0) [7, 8]]
    (Session.new default 0).OwnsAll rs ∧ ∃ s, (Session.new default 0).serveAll rs = .ok s ∧
      [0, 1, 2].map s.graph.isAlive = [true, true, true] ∧ ¬ Relation.TransGen s.graph.arena.IsOperand 2 2 ∧
      s.graph.append 1 2 5 = .ok (.error (.wouldCreateCycle 1 2)) ∧
      ∃ g', s.graph.append 2 0 5 = .ok (.ok g') ∧ Graph.Appended s.graph g' 2 0 5 := by
  intro rs
  have howns : (Session.new default 0).OwnsAll rs := by decide +kernel
  obtain ⟨s, hrun, hread⟩ := Checked.exists_ok_of_toOption
    (x := (Session.new default 0).serveAll rs)
    (f := fun s => ([0, 1, 2].map s.graph.isAlive, [0, 1, 2].map s.graph.arena.operands,
      [1, 2].map fun n => (s.graph.arena.node? n).map (·.kind.op)))
    (c := ([true, true, true], [[], [0], [1, 0]], [some .product, some .sum])) (by decide +kernel)
  simp only [Prod.mk.injEq] at hread
  obtain ⟨halive, hops, hop⟩ := hread
  simp only [List.map_cons, List.map_nil, List.cons.injEq, and_true] at hops hop
  obtain ⟨hops₀, -, hops₂⟩ := hops
  obtain ⟨h₀, h₁, h₂⟩ : s.graph.isAlive 0 = true ∧ s.graph.isAlive 1 = true ∧ s.graph.isAlive 2 = true := by
    simpa using halive
  have hbelow : s.graph.arena.Below 1 2 := Arena.IsOperand.below (by simp [Arena.IsOperand, hops₂])
  have hnot : ¬ s.graph.arena.Below 2 0 := by
    rw [Arena.below_iff]
    rintro (h | ⟨c, hc, -⟩)
    · cases h
    · rw [Arena.IsOperand, hops₀] at hc
      cases hc
  obtain ⟨hacyclic, hdecides⟩ := append_decides default 0 hrun
  obtain ⟨p, hp, -, hcycle, -, -⟩ := hdecides 1 2 5 h₁ h₂
  obtain ⟨q, hq, -, -, hdone, -⟩ := hdecides 2 0 5 h₂ h₀
  rw [hp, Option.map_some, Option.some.injEq, hq, Option.map_some, Option.some.injEq] at hop
  obtain ⟨g', hrun', happ, -⟩ := hdone (Or.inl hop.2) hnot
  exact ⟨howns, s, hrun, halive, hacyclic howns 2 h₂, hcycle (Or.inr hop.1) hbelow, g', hrun', happ⟩

/-- Giving back one reference too many can close a cycle: the node that takes over the freed number stands
among its own operand's operands. -/
theorem exists_cycle_of_overrelease :
    let rs : List (Request Float) :=
      [.value 1, .apply .exp 0 rfl, .release 0, .release 0, .apply .exp 1 rfl]
    ∃ s, (Session.new default 0).serveAll rs = .ok s ∧ s.graph.isAlive 0 = true ∧
      Relation.TransGen s.graph.arena.IsOperand 0 0 := by
  intro rs
  obtain ⟨s, hrun, hread⟩ := Checked.exists_ok_of_toOption
    (x := (Session.new default 0).serveAll rs)
    (f := fun s => (s.graph.isAlive 0, s.graph.arena.operands 0, s.graph.arena.operands 1))
    (c := (true, [1], [0])) (by decide +kernel)
  simp only [Prod.mk.injEq] at hread
  obtain ⟨halive, h₀, h₁⟩ := hread
  have hop₁ : s.graph.arena.IsOperand 1 0 := by simp [Arena.IsOperand, h₀]
  have hop₀ : s.graph.arena.IsOperand 0 1 := by simp [Arena.IsOperand, h₁]
  exact ⟨s, hrun, halive, .tail (.single hop₀) hop₁⟩

end IntervalDag.Session
