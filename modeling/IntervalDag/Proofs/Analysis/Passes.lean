import IntervalDag.Analysis.BottomUp
import IntervalDag.Text.Trace
import IntervalDag.Proofs.Walk.Guests

/-!
# Analyses as guests

The analyses that answer a question about an expression walk over the graph and change nothing on it but the
scratch slots of their own walk. Other walks may be open meanwhile (`Analysis.toured_run`).
-/

namespace IntervalDag

variable {α : Type}

/-- An analysis of an expression. -/
inductive Analysis where
  /-- Folds constants. -/
  | foldConstant (root : NodeId)
  /-- Makes a digest. -/
  | digest (mix : List UInt64 → UInt64) (root : NodeId)
  /-- Determines the curvature. -/
  | curvature (root : NodeId)
  /-- Writes a formula. -/
  | formula (root : NodeId)
  /-- Writes a trace. -/
  | trace (target : NodeId)
  /-- Makes a drawing. -/
  | drawing (root : NodeId)

/-- Runs an analysis, whose answer is left aside. -/
def Analysis.run [Scalar α] [BitPattern α] [NumberText α] : Analysis → Graph α → Checked α (Graph α)
  | .foldConstant root, g => Prod.fst <$> g.foldConstant root
  | .digest mix root, g => Prod.fst <$> g.digest mix root
  | .curvature root, g => Prod.fst <$> g.curvature root
  | .formula root, g => Prod.fst <$> g.formula root
  | .trace target, g => Prod.fst <$> g.trace target
  | .drawing root, g => Prod.fst <$> g.drawing root

namespace Graph

variable {g : Graph α}

/-- The graph passes for itself to all walks that were open, and only scratch slots differ. -/
structure Toured (g g' : Graph α) : Prop extends Passed g g' where
  walked : g.Walked g'

/-- A walk of an analysis that is under way. -/
structure Touring (g : Graph α) (w : Walk) (g' : Graph α) : Prop extends Walk.Guest g w g' where
  walked : g.Walked g'

namespace Touring

variable {g₁ : Graph α} {w : Walk}

theorem meets_start (htags : g.TagsGiven) {w : Walk} (hhome : w.home = g.identity) (hslot : w.slot = none)
    {mode : Mode} {revisits : Bool} (htracks : Walk.tracks mode revisits = true) (root : Option NodeId) :
    Meets (w.start g root mode revisits) () (fun _ => True) fun r _ => g.Touring r.1 r.2 :=
  (Walk.Guest.meets_start htags hhome hslot htracks root).imp fun _ _ h => ⟨h.1, h.2⟩

theorem moves (h : g.Touring w g₁) {x : Checked α (Walk × Graph α)} (hx : w.Moves g₁ x) :
    Meets x () (fun _ => True) fun r _ => g.Touring r.1 r.2 :=
  hx.imp fun _ _ hr => ⟨h.moved hr, h.walked.trans hr.walked⟩

theorem toured (h : g.Touring w g₁) : g.Toured (w.finish g₁) :=
  ⟨h.passed_finish, h.walked.trans Walk.Guest.walked_finish⟩

end Touring

/-- A pass from the leaves up keeps words in the slot of its walk. -/
theorem toured_bottomUp (htags : g.TagsGiven) (root : NodeId)
    (combine : Graph α → NodeId → List UInt64 → Checked α UInt64) :
    Meets (g.bottomUp root combine) () (fun _ => True) fun r _ => g.Toured r.1 := by
  rw [bottomUp]
  refine (Touring.meets_start htags rfl rfl rfl (some root)).bind fun r _ hr => ?_
  refine (Walk.meets_visitAll (I := g.Touring) (fun w n g₁ _ h => ?_) (fun _ _ h => h.moves Walk.moves_next)
    hr ()).bind fun r _ hr => ?_
  · refine (Walk.meets_any _).bind fun children _ _ => (Walk.meets_any _).bind fun words _ _ => ?_
    refine (Walk.meets_any _).bind fun word _ _ => ?_
    rcases hrun : w.setUserData g₁ n word with e | g₂
    · trivial
    · obtain ⟨i, -, -, rfl⟩ := Walk.modifySlot_eq_ok_iff.mp hrun
      exact ⟨h.setUserData hrun, h.walked.trans ⟨.of_modify fun _ => rfl, rfl, rfl⟩⟩
  · exact (Walk.meets_any _).bind fun _ _ _ => meets_pure.mpr hr.toured

/-- The turns of a trace step and skip. -/
theorem touring_traceTurn [Scalar α] [NumberText α] {w : Walk} {g₁ : Graph α} (h : g.Touring w g₁) (t : Tracer) :
    Meets (traceTurn (w, g₁, t)) () (fun _ => True)
      (Turn.Allowed (fun r _ => g.Touring r.1 r.2.1) fun r _ => g.Touring r.1 r.2.1) := by
  rw [traceTurn]
  split
  · exact meets_pure.mpr h
  split
  · dsimp only
    split
    · exact (h.moves Walk.moves_skip).bind fun _ _ hr => meets_pure.mpr hr
    · refine (Walk.meets_any _).bind fun line _ _ => ?_
      exact (h.moves Walk.moves_next).bind fun _ _ hr => meets_pure.mpr hr
  · refine (Walk.meets_any _).bind fun i _ _ => (Walk.meets_any _).bind fun children _ _ => ?_
    exact (h.moves Walk.moves_next).bind fun _ _ hr => meets_pure.mpr hr
  · exact (h.moves Walk.moves_next).bind fun _ _ hr => meets_pure.mpr hr
  · exact (h.moves Walk.moves_next).bind fun _ _ hr => meets_pure.mpr hr

/-- A pass that only reads what it comes by. -/
theorem touring_visitAll {σ : Type} {visit : Walk → NodeId → Graph α × σ → Checked α (Graph α × σ)}
    (hvisit : ∀ w n g s, Meets (visit w n (g, s)) () (fun _ => True) fun r _ => r.1 = g) {w : Walk} {g₁ : Graph α}
    (h : g.Touring w g₁) (s : σ) :
    Meets (w.visitAll visit g₁ s) () (fun _ => True) fun r _ => g.Touring r.1 r.2.1 :=
  Walk.meets_visitAll (fun w n g₁ s h => (hvisit w n g₁ s).imp fun _ _ hr => hr ▸ h)
    (fun _ _ h => h.moves Walk.moves_next) h s

variable [Scalar α] [NumberText α]

theorem toured_formula (htags : g.TagsGiven) (root : NodeId) :
    Meets (g.formula root) () (fun _ => True) fun r _ => g.Toured r.1 := by
  rw [formula]
  refine (Touring.meets_start htags rfl rfl rfl (some root)).bind fun r _ hr => ?_
  refine (touring_visitAll (fun w n g s => ?_) hr "").bind fun r _ hr => meets_pure.mpr hr.toured
  exact (Walk.meets_any _).bind fun _ _ _ => meets_pure.mpr rfl

theorem toured_trace (htags : g.TagsGiven) (target : NodeId) :
    Meets (g.trace target) () (fun _ => True) fun r _ => g.Toured r.1 := by
  rw [trace]
  split
  · exact meets_pure.mpr ⟨.refl htags, .refl g⟩
  refine (Walk.meets_any _).bind fun label _ _ => ?_
  refine (Touring.meets_start htags rfl rfl rfl (some target)).bind fun r _ hr => ?_
  refine (meets_run_of_diverged (I := fun r _ => g.Touring r.1 r.2.1) (Q := fun r _ => g.Touring r.1 r.2.1)
    trivial (fun _ _ _ => meets_pure.mpr rfl) (fun r _ h => ?_) hr).bind fun r _ hr => meets_pure.mpr hr.toured
  exact touring_traceTurn h r.2.2

theorem toured_drawing (htags : g.TagsGiven) (root : NodeId) :
    Meets (g.drawing root) () (fun _ => True) fun r _ => g.Toured r.1 := by
  rw [drawing]
  refine (Touring.meets_start htags rfl rfl rfl (some root)).bind fun r _ hr => ?_
  refine (touring_visitAll (fun w n g s => ?_) hr []).bind fun r _ hr => ?_
  · exact (Walk.meets_any _).bind fun _ _ _ => meets_pure.mpr rfl
  · exact (Walk.meets_any _).bind fun _ _ _ => meets_pure.mpr hr.toured

end Graph

variable [Scalar α] [BitPattern α] [NumberText α]

/-- **Analyses are guests.** -/
theorem Analysis.toured_run {g : Graph α} (htags : g.TagsGiven) (a : Analysis) :
    Meets (a.run g) () (fun _ => True) fun g' _ => g.Toured g' := by
  have hfst : ∀ {β : Type} {x : Checked α (Graph α × β)},
      Meets x () (fun _ => True) (fun r _ => g.Toured r.1) →
      Meets (Prod.fst <$> x) () (fun _ => True) fun g' _ => g.Toured g' := by
    intro β x hx
    rw [map_eq_pure_bind]
    exact hx.bind fun r _ hr => meets_pure.mpr hr
  have hbottomUp : ∀ {β : Type} (root : NodeId) (combine : Graph α → NodeId → List UInt64 → Checked α UInt64)
      (f : UInt64 → β), Meets (g.bottomUp root combine >>= fun r => pure (r.1, f r.2)) () (fun _ => True)
        fun r _ => g.Toured r.1 := fun root combine f =>
    (Graph.toured_bottomUp htags root combine).bind fun r _ hr => meets_pure.mpr hr
  cases a with
  | foldConstant root => exact hfst (hbottomUp root _ _)
  | digest mix root => exact hfst (Graph.toured_bottomUp htags root _)
  | curvature root => exact hfst (hbottomUp root _ _)
  | formula root => exact hfst (Graph.toured_formula htags root)
  | trace target => exact hfst (Graph.toured_trace htags target)
  | drawing root => exact hfst (Graph.toured_drawing htags root)

end IntervalDag
