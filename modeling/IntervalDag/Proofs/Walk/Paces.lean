import IntervalDag.Proofs.Walk.Recursion

/-!
# A walk and its caller

A caller who follows a plan takes a depth-first walk from stop to stop (`Walk.Tours`). The walk goes through all stages
in between, one pace at a time (`Plan.Paces`), and a pace is what the walk does at any stage if the caller is imagined
to be asked there. `Walk.exists_tours` passes from paces to stops: if the paces come to an end, within as many turns as
a loop of the walk is granted, so does the tour, and it shows those reports that are at stops.
-/

namespace IntervalDag

/-- Takes up to `n` steps of a loop, one after another. -/
def Loop.iterate {m : Type → Type} [Monad m] {σ β : Type} (step : σ → m (Turn σ β)) : Nat → σ → m (Turn σ β)
  | 0, s => pure (.next s)
  | n + 1, s => do
    match ← step s with
    | .done b => return .done b
    | .next s => iterate step n s

variable {α : Type}

/-! ### From stop to stop -/

namespace Walk

/-- A caller reads where a depth-first walk stands and goes on, or skips what is pending, until the walk has ended.
The caller chooses by what was shown up to then, and does not skip when a node is left. -/
inductive Tours (skips : List Report → Bool) : Walk → Graph α → List Report → Walk → Graph α → List Report → Prop where
  | ended {w : Walk} {g : Graph α} {shown : List Report} (h : w.current = none) : Tours skips w g shown w g shown
  | go {w w₁ w' : Walk} {g g₁ g' : Graph α} {shown shown' : List Report} {r : Report}
      (hreport : w.report g = .ok r)
      (hstep : (if r.stage ≠ .leave ∧ skips (shown ++ [r]) = true then w.skip g else w.next g) = .ok (w₁, g₁))
      (hrest : Tours skips w₁ g₁ (shown ++ [r]) w' g' shown') : Tours skips w g shown w' g' shown'

/-- Where a depth-first walk that has come to a stage stops next, within a number of turns. -/
inductive Lands : Nat → Walk → Graph α → Walk → Graph α → Prop where
  | ended {w : Walk} {g : Graph α} (h : w.current = none) : Lands 1 w g w g
  | stop {w : Walk} {g : Graph α} {n : NodeId} (hn : w.current = some n) (hstop : w.stops.contains w.stage = true) :
      Lands 0 w g w g
  | on {w w₁ w' : Walk} {g g₁ g' : Graph α} {n k : Nat} (hn : w.current = some n)
      (hstop : w.stops.contains w.stage = false) (hstep : w.depthFirstStep g n = .ok (w₁, g₁))
      (hrest : Lands k w₁ g₁ w' g') : Lands (k + 1) w g w' g'

variable {w w₁ w' : Walk} {g g₁ g' : Graph α} {n : NodeId} {k : Nat}

/-- A turn takes a step, and ends the loop at a stop. -/
theorem depthFirstTurn_eq (hn : w.current = some n) (hstep : w.depthFirstStep g n = .ok (w₁, g₁)) :
    depthFirstTurn (w, g) = .ok (if w₁.current.isSome && w₁.stops.contains w₁.stage then .done (w₁, g₁)
      else .next (w₁, g₁)) := by
  simp only [depthFirstTurn, hn, hstep]
  rfl

/-- The turns of a step. -/
theorem Lands.iterate_eq (h : Lands k w₁ g₁ w' g') (hn : w.current = some n)
    (hstep : w.depthFirstStep g n = .ok (w₁, g₁)) :
    Loop.iterate depthFirstTurn (k + 1) (w, g) = .ok (.done (w', g')) := by
  induction h generalizing w g n with
  | @ended w₁ g₁ hnone =>
    have hturn : depthFirstTurn (w, g) = .ok (.next (w₁, g₁)) := by simp [depthFirstTurn_eq hn hstep, hnone]
    have hlast : depthFirstTurn (w₁, g₁) = .ok (.done (w₁, g₁)) := by simp only [depthFirstTurn, hnone]
    simp only [Loop.iterate, hturn]
    change depthFirstTurn (w₁, g₁) >>= _ = _
    rw [hlast]
    rfl
  | @stop w₁ g₁ m hm hstop =>
    have hturn : depthFirstTurn (w, g) = .ok (.done (w₁, g₁)) := by simp [depthFirstTurn_eq hn hstep, hm, hstop]
    simp only [Loop.iterate, hturn]
    rfl
  | @on w₁ w₂ w' g₁ g₂ g' m k hm hstop hstep' hrest ih =>
    have hturn : depthFirstTurn (w, g) = .ok (.next (w₁, g₁)) := by simp [depthFirstTurn_eq hn hstep, hstop]
    rw [Loop.iterate, hturn]
    exact ih hm hstep'

/-- A step comes to the next stop if that is within the turns that its loop is granted. -/
theorem next_eq (hmode : w.mode = .depthFirst) (hn : w.current = some n)
    (hstep : w.depthFirstStep g n = .ok (w₁, g₁)) (hlands : Lands k w₁ g₁ w' g')
    (hk : k + 1 < 2 ^ g.walkExponent) : w.next g = .ok (w', g') := by
  have hmeets : Meets (Loop.run α (fun r => .ok (Graph.walkExponent r.2)) depthFirstTurn (w, g)) () NoFault
      fun r _ => r = (w', g') := by
    -- the invariant counts the turns to come; no turn changes how many the loop grants
    refine meets_run (I := fun j r _ => Loop.iterate depthFirstTurn j r = .ok (.done (w', g')) ∧
      r.2.walkExponent = g.walkExponent ∧ j < 2 ^ g.walkExponent) (fun j r _ hr => ?_) (fun j r _ hr => ?_)
      (k := k + 1) ⟨hlands.iterate_eq hn hstep, rfl, hk⟩
    · exact meets_pure.mpr ⟨rfl, by rw [hr.2.1]; exact hr.2.2⟩
    · obtain ⟨hturns, hexp, hj⟩ := hr
      obtain ⟨v, h⟩ := r
      cases j with
      | zero => cases hturns
      | succ j =>
        have hmoved := movesTurn_depthFirstTurn (w := v) (g := h)
        rw [Loop.iterate] at hturns
        rcases hturn : depthFirstTurn (v, h) with e | turn
        · rw [hturn] at hturns
          cases hturns
        rw [hturn] at hturns hmoved
        cases turn with
        | done r => exact Turn.done.inj (Except.ok.inj hturns)
        | next r => exact ⟨j, j.lt_succ_self, hturns, hmoved.exponent_eq.trans hexp, by omega⟩
  obtain ⟨r, hr, rfl⟩ := meets_noFault_iff.mp hmeets
  rw [next, hmode]
  exact hr

/-- A caller who wants to go on where a walk has come to gets to where it lands. -/
theorem settle_eq (hmode : w.mode = .depthFirst) (hn : w.current = some n) (hlands : Lands k w g w' g')
    (hk : k < 2 ^ g.walkExponent) :
    (if w.stops.contains w.stage then .ok (w, g) else w.next g) = .ok (w', g') := by
  cases hlands with
  | ended hnone =>
    rw [hnone] at hn
    cases hn
  | stop hm hstop => rw [if_pos hstop]
  | on hm hstop hstep hrest =>
    rw [if_neg (by simp [hstop])]
    exact next_eq hmode hm hstep hrest hk

end Walk

/-! ### From stage to stage -/

namespace Plan

/-- What a walk does at a stage, which is the last report of a trace. -/
def pace (p : Plan) (w : Walk) (g : Graph α) (n : NodeId) (trace : List Report) : Checked α (Walk × Graph α) :=
  if p.skipsAt trace w.stage then
    match w.stage with
    | .enter | .visitedChild => .ok ({ w with stage := .leave }, g)
    | .visitingChild => { w with stage := .visitedChild }.depthFirstStep g n
    | .leave => w.depthFirstStep g n
  else w.depthFirstStep g n

/-- A number of paces, and what is reported before each. -/
inductive Paces (p : Plan) : Nat → Walk → Graph α → List Report → Walk → Graph α → List Report → Prop where
  | stay (w : Walk) (g : Graph α) (trace : List Report) : Paces p 0 w g trace w g trace
  | go {w w₁ w' : Walk} {g g₁ g' : Graph α} {trace trace' : List Report} {n : NodeId} {r : Report} {k : Nat}
      (hn : w.current = some n) (hreport : w.report g = .ok r) (hpace : p.pace w g n (trace ++ [r]) = .ok (w₁, g₁))
      (hrest : Paces p k w₁ g₁ (trace ++ [r]) w' g' trace') : Paces p (k + 1) w g trace w' g' trace'

variable {p : Plan} {w w₁ w' : Walk} {g g₁ g' : Graph α} {trace trace₁ trace' : List Report} {j k : Nat}

theorem Paces.trans (h : Paces p j w g trace w₁ g₁ trace₁) (h' : Paces p k w₁ g₁ trace₁ w' g' trace') :
    Paces p (j + k) w g trace w' g' trace' := by
  induction h with
  | stay w g trace => rwa [Nat.zero_add]
  | @go _ _ _ _ _ _ _ _ _ _ j hn hreport hpace _ ih =>
    rw [Nat.add_right_comm]
    exact .go hn hreport hpace (ih h')

theorem moves_pace {n : NodeId} : Walk.Moves w g (p.pace w g n trace) := by
  have hstage : ∀ stage, Walk.Moved w g { w with stage } g := fun _ => (Walk.Moved.refl w g).of_rest rfl
  rw [pace]
  split
  · split
    · exact meets_pure.mpr (hstage _)
    · exact meets_pure.mpr (hstage _)
    · exact (hstage _).moves Walk.moves_depthFirstStep
    · exact Walk.moves_depthFirstStep
  · exact Walk.moves_depthFirstStep

/-- A pace that skips, and goes on from there. -/
theorem skip_eq {n : NodeId} (hmode : w.mode = .depthFirst) (hn : w.current = some n)
    (hskips : p.skipsAt trace w.stage = true) (hpace : p.pace w g n trace = .ok (w₁, g₁))
    (hlands : Walk.Lands k w₁ g₁ w' g') (hk : k + 1 < 2 ^ g.walkExponent) : w.skip g = .ok (w', g') := by
  rw [pace, if_pos hskips] at hpace
  rw [Walk.skip, Walk.requireDepthFirst, if_pos hmode]
  change (match w.stage with
    | .enter | .visitedChild => _
    | .visitingChild => _
    | .leave => _) = _
  cases hstage : w.stage with
  | visitingChild =>
    rw [hstage] at hpace
    exact Walk.next_eq hmode hn hpace hlands hk
  | leave => simp [skipsAt, hstage] at hskips
  | enter | visitedChild =>
    rw [hstage] at hpace
    obtain ⟨rfl, rfl⟩ := Prod.mk.inj (Except.ok.inj hpace)
    exact Walk.settle_eq hmode hn hlands (by omega)

/-- **Stops.** If the paces from a stage lead to the end, the walk lands at a stop from which there is a tour. -/
theorem Paces.exists_tours (h : Paces p k w g trace w' g' trace') (hmode : w.mode = .depthFirst)
    (hstops : w.stops = p.stops) (hend : w'.current = none) (hk : k + 1 < 2 ^ g.walkExponent) :
    ∃ j w₁ g₁, j ≤ k + 1 ∧ Walk.Lands j w g w₁ g₁ ∧
      Walk.Tours p.skips w₁ g₁ (p.shown trace) w' g' (p.shown trace') := by
  induction h with
  | stay w g trace => exact ⟨1, w, g, by omega, .ended hend, .ended hend⟩
  | @go w w₁ w' g g₁ g' trace trace' n r k hn hreport hpace _ ih =>
    have hmoved : Walk.Moved w g w₁ g₁ := moves_pace.of_observe (r := ((w₁, g₁), ())) (by rw [hpace]; rfl)
    have hstage : r.stage = w.stage := by
      rw [Walk.report_eq hmode hn] at hreport
      obtain ⟨slot, -, hr⟩ := Checked.bind_eq_ok.mp hreport
      cases hr
      rfl
    obtain ⟨j, u, gu, hj, hlands, htours⟩ := ih (hmoved.mode_eq.trans hmode) (hmoved.stops_eq.trans hstops) hend
      (by rw [hmoved.exponent_eq]; omega)
    have hj' : j + 1 < 2 ^ g.walkExponent := by omega
    cases hstop : w.stops.contains w.stage with
    | false =>
      -- nothing is shown, and the walk goes on by itself
      have hskips : p.skipsAt (trace ++ [r]) w.stage = false := by simp [skipsAt, ← hstops, hstop]
      have hshown := p.shown_concat_of_not (r := r) (by rw [← hstops, hstage, hstop]) trace
      rw [pace, if_neg (by simp [hskips])] at hpace
      exact ⟨j + 1, u, gu, by omega, .on hn hstop hpace hlands, hshown ▸ htours⟩
    | true =>
      have hshown := p.shown_concat (r := r) (by rw [← hstops, hstage, hstop]) trace
      have hskips : p.skipsAt (trace ++ [r]) w.stage = true ↔
          r.stage ≠ .leave ∧ p.skips (p.shown trace ++ [r]) = true := by
        simp [skipsAt, ← hstops, hstop, hshown, hstage]
      refine ⟨0, w, g, by omega, .stop hn hstop, .go hreport ?_ (hshown ▸ htours)⟩
      by_cases hskip : p.skipsAt (trace ++ [r]) w.stage = true
      · rw [if_pos (hskips.mp hskip)]
        exact skip_eq hmode hn hskip hpace hlands hj'
      · rw [if_neg (hskips.not.mp hskip)]
        rw [pace, if_neg hskip] at hpace
        exact Walk.next_eq hmode hn hpace hlands hj'

end Plan

end IntervalDag
