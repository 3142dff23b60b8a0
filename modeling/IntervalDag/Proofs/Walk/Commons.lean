import IntervalDag.Proofs.Analysis.Passes
import IntervalDag.Proofs.Graph.Slots
import IntervalDag.Proofs.Propagation.Workspace

/-!
# Walks that share a graph

A workspace and any number of walks over its graph. Each walk is started, taken forward, asked and dropped at any
time, also between requests and calls to the workspace and between the steps of other walks. A walk that was not
started yet, or was dropped, is a new one.

`Commons.orderly_of_serveAll`: after every run that met no fault the tags are in order, the slots that are taken are
those that walks hold, and no two walks hold the same.
-/

namespace IntervalDag

variable {α : Type}

/-! ### Walks -/

/-- Where a depth-first walk stands. -/
structure Report where
  /-- The node. -/
  node : NodeId
  /-- The stage. -/
  stage : Stage
  /-- The position of the child, at the stages that have one. -/
  child : Option Nat
  /-- The node that the walk came from. -/
  parent : Option NodeId
  deriving DecidableEq

/-- What a walk shows where it stands. -/
inductive Sight where
  /-- The walk has ended. -/
  | ended
  /-- A node. -/
  | visit (n : NodeId)
  /-- A node at a stage. -/
  | stop (r : Report)
  deriving DecidableEq

namespace Walk

/-- Asks a depth-first walk where it stands. -/
def report (w : Walk) (g : Graph α) : Checked α Report := do
  let node ← w.currentNode
  let stage ← w.stageOf
  let child ← if stage.isAtChild then some <$> w.childIndex g else .ok none
  return ⟨node, stage, child, ← w.parent g⟩

/-- Asks a walk where it stands. -/
def sight (w : Walk) (g : Graph α) : Checked α Sight :=
  match w.current with
  | none => .ok .ended
  | some n => if w.mode = .depthFirst then .stop <$> w.report g else .ok (.visit n)

/-- A depth-first walk reads off its slot at the current node. -/
theorem report_eq {w : Walk} {g : Graph α} {n : NodeId} (hmode : w.mode = .depthFirst) (hn : w.current = some n) :
    w.report g = w.currentSlot g >>= fun slot =>
      .ok ⟨n, w.stage, if w.stage.isAtChild then some slot.cursor else none, slot.parent⟩ := by
  have hnode : w.currentNode = (.ok n : Checked α NodeId) := by rw [currentNode, hn]
  have hstage : w.stageOf = (.ok w.stage : Checked α Stage) := by
    rw [stageOf, requireDepthFirst, if_pos hmode]
    rfl
  have hparent : w.parent g = Slot.parent <$> w.currentSlot g := by
    rw [Walk.parent, requireDepthFirst, if_pos hmode, map_eq_pure_bind]
    rfl
  have hchild : w.stage.isAtChild = true → w.childIndex g = Slot.cursor <$> w.currentSlot g := fun hstage =>
    if_pos ⟨hmode, hstage⟩
  rw [report, hnode, hstage, hparent]
  change (if w.stage.isAtChild = true then _ else _) = _
  cases hat : w.stage.isAtChild with
  | true =>
    rw [if_pos rfl, hchild hat]
    cases w.currentSlot g <;> rfl
  | false =>
    rw [if_neg Bool.false_ne_true]
    cases w.currentSlot g <;> rfl

/-- A request to a walk. -/
inductive Request where
  /-- Starts from a root. -/
  | start (root : Option NodeId) (mode : Mode) (revisits : Bool)
  /-- Starts a depth-first walk at a root again. -/
  | restart (root : NodeId)
  /-- Goes on. -/
  | next
  /-- Skips what is pending. -/
  | skip
  /-- Selects the stages to stop at. -/
  | select (stops : StageSet)
  /-- Puts a word into the slot of a node. -/
  | write (n : NodeId) (word : UInt64)
  /-- Asks for the word in the slot of a node. -/
  | read (n : NodeId)
  /-- Ends the walk. -/
  | drop

/-- The answer of a walk. -/
inductive Answer where
  /-- The request is carried out. -/
  | done
  /-- The walk has moved to where it stands. -/
  | moved (s : Sight)
  /-- The word asked for. -/
  | word (word : UInt64)
  deriving DecidableEq

/-- Answers with where the walk has moved to. -/
def arrived (r : Walk × Graph α) : Checked α ((Walk × Graph α) × Answer) := do
  return (r, .moved (← r.1.sight r.2))

/-- Serves a request. -/
def serve (w : Walk) (g : Graph α) : Request → Checked α ((Walk × Graph α) × Answer)
  | .start root mode revisits => w.start g root mode revisits >>= arrived
  | .restart root => w.restart g root >>= arrived
  | .next => w.next g >>= arrived
  | .skip => w.skip g >>= arrived
  | .select stops => .ok (({ w with stops }, g), .done)
  | .write n word => do return ((w, ← w.setUserData g n word), .done)
  | .read n => do return ((w, g), .word (← w.userData g n))
  | .drop => .ok ((g.newWalk, w.finish g), .done)

end Walk

/-! ### Runs -/

/-- A workspace with walks over its graph. -/
structure Commons (α : Type) where
  /-- The workspace. -/
  workspace : Workspace α
  /-- The walks, by number. -/
  walks : Nat → Walk

namespace Commons

/-- A command to a workspace or to a walk. -/
inductive Command (α : Type) where
  /-- A command to the workspace. -/
  | work (c : IntervalDag.Command α)
  /-- Runs an analysis. -/
  | analyse (a : Analysis)
  /-- A request to a walk. -/
  | walk (i : Nat) (r : Walk.Request)

/-- The graph. -/
abbrev graph (s : Commons α) : Graph α := s.workspace.state.graph

/-- Replaces the graph. -/
def withGraph (s : Commons α) (graph : Graph α) : Commons α :=
  { s with workspace := { s.workspace with state := { s.workspace.state with graph } } }

/-- Replaces a walk and the graph. -/
def withWalk (s : Commons α) (i : Nat) (r : Walk × Graph α) : Commons α :=
  { s.withGraph r.2 with walks := Function.update s.walks i r.1 }

section

variable [Scalar α] [BitPattern α] [NumberText α]

/-- A new workspace without walks. -/
def new (settings : Settings α) (identity : Nat) (store : BoundTable α) : Commons α :=
  ⟨Workspace.new settings identity store, fun _ => (Graph.empty settings identity).newWalk⟩

/-- Serves a command. Requests to a walk are answered. -/
def serve (s : Commons α) : Command α → Checked α (Commons α × List (Nat × Walk.Answer))
  | .work c => do return ({ s with workspace := ← s.workspace.serve c }, [])
  | .analyse a => do return (s.withGraph (← a.run s.graph), [])
  | .walk i r => do
    let (r, answer) ← (s.walks i).serve s.graph r
    return (s.withWalk i r, [(i, answer)])

/-- Serves commands one after another, and collects the answers. -/
def serveAll (s : Commons α) (cs : List (Command α)) : Checked α (Commons α × List (Nat × Walk.Answer)) :=
  Run.collect serve s cs

/-- The rules are those for requests to the graph. -/
def Permits (s : Commons α) : Command α → Prop
  | .work c => s.workspace.Permits c
  | _ => True

/-- Each of the commands keeps to the rules when its turn comes. -/
def PermitsAll (s : Commons α) (cs : List (Command α)) : Prop := Run.Keeps (Run.state serve) Permits s cs

instance (s : Commons α) : (c : Command α) → Decidable (s.Permits c)
  | .work c => inferInstanceAs (Decidable (s.workspace.Permits c))
  | .analyse _ | .walk _ _ => isTrue trivial

instance (s : Commons α) (cs : List (Command α)) : Decidable (s.PermitsAll cs) :=
  inferInstanceAs (Decidable (Run.Keeps (Run.state serve) Permits s cs))

end

end Commons

/-! ### Requests to one walk -/

namespace Walk

/-- What a request to a walk can come to. -/
inductive Served (w : Walk) (g : Graph α) : Request → Walk → Graph α → Prop where
  | started {root : Option NodeId} {mode : Mode} {revisits : Bool} {w₁ w' : Walk} {g₁ g' : Graph α}
      (hready : Readied w g mode revisits w₁ g₁) (h : Moved w₁ g₁ w' g') : Served w g (.start root mode revisits) w' g'
  | restarted {root : NodeId} {w' : Walk} {g' : Graph α} (h : Moved w g w' g') : Served w g (.restart root) w' g'
  | stepped {w' : Walk} {g' : Graph α} (h : Moved w g w' g') : Served w g .next w' g'
  | skipped {w' : Walk} {g' : Graph α} (h : Moved w g w' g') : Served w g .skip w' g'
  | selected (stops : StageSet) : Served w g (.select stops) { w with stops } g
  | written {i : Nat} {n : NodeId} {word : UInt64} (hslot : w.slot = some i) (hn : n < g.arena.capacity) :
      Served w g (.write n word) w (g.modify n (·.modifySlot i fun slot => { slot with userData := word }))
  | read (n : NodeId) : Served w g (.read n) w g
  | dropped : Served w g .drop g.newWalk (w.finish g)

/-- **Every request.** -/
theorem served_of_serve {w w' : Walk} {g g' : Graph α} (hhome : w.home = g.identity) {r : Request} {answer : Answer}
    (hrun : w.serve g r = .ok ((w', g'), answer)) : Served w g r w' g' := by
  have hmoved : ∀ {w₁ : Walk} {g₁ : Graph α} {x : Checked α (Walk × Graph α)}, Moves w₁ g₁ x →
      x >>= arrived = .ok ((w', g'), answer) → Moved w₁ g₁ w' g' := by
    intro w₁ g₁ x hx hrun
    obtain ⟨r, hr, hrun⟩ := Checked.bind_eq_ok.mp hrun
    obtain ⟨sight, -, hrun⟩ := Checked.bind_eq_ok.mp hrun
    cases hrun
    exact hx.of_observe (r := ((w', g'), ())) (by rw [hr]; rfl)
  cases r with
  | start root mode revisits =>
    rw [serve, start_eq_ready, bind_assoc] at hrun
    obtain ⟨⟨w₁, g₁⟩, hready, hrun⟩ := Checked.bind_eq_ok.mp hrun
    have hspec := ready_spec mode revisits hhome
    rw [hready] at hspec
    exact .started hspec (hmoved moves_setOut hrun)
  | restart root => exact .restarted (hmoved moves_restart hrun)
  | next => exact .stepped (hmoved moves_next hrun)
  | skip => exact .skipped (hmoved moves_skip hrun)
  | select stops =>
    cases hrun
    exact .selected stops
  | write n word =>
    obtain ⟨g₁, hwrite, hrun⟩ := Checked.bind_eq_ok.mp hrun
    obtain ⟨i, hslot, hn, rfl⟩ := modifySlot_eq_ok_iff.mp hwrite
    cases hrun
    exact .written hslot hn
  | read n =>
    obtain ⟨word, -, hrun⟩ := Checked.bind_eq_ok.mp hrun
    cases hrun
    exact .read n
  | drop =>
    cases hrun
    exact .dropped

/-- What a request to a walk does to the graph. -/
structure Requested (w : Walk) (g : Graph α) (w' : Walk) (g' : Graph α) : Prop where
  walked : g.Walked g'
  tagsGiven : g'.TagsGiven
  home_eq : w'.home = w.home
  visitTag_le : w'.visitTag ≤ g'.walks.visitTags.last
  last_le : g.walks.visitTags.last ≤ g'.walks.visitTags.last
  releases : Releases w.slot g.walks.taken w'.slot g'.walks.taken
  /-- slots that other walks hold are not touched -/
  scratch_eq : ∀ k ∈ g.walks.taken, w.slot ≠ some k → ∀ n, g'.arena.scratch k n = g.arena.scratch k n

variable {w w' : Walk} {g g' : Graph α}

theorem Requested.of_moved (htags : g.TagsGiven) (htag : w.visitTag ≤ g.walks.visitTags.last)
    (h : Moved w g w' g') : Requested w g w' g' where
  walked := h.walked
  tagsGiven := h.tagsGiven htags htag
  home_eq := h.home_eq
  visitTag_le := by
    rw [h.visitTag_eq, h.walks_eq]
    exact htag
  last_le := by rw [h.walks_eq]
  releases := by
    rw [h.slot_eq, h.walks_eq]
    exact .kept
  scratch_eq k _ hk n := h.scratch_eq k n hk

/-- A walk that got a slot and a tag, and set out. -/
theorem Requested.of_readied (htags : g.TagsGiven) {mode : Mode} {revisits : Bool} {w₁ : Walk} {g₁ : Graph α}
    (hready : Readied w g mode revisits w₁ g₁) (h : Moved w₁ g₁ w' g') : Requested w g w' g' := by
  have h₁ := of_moved (hready.tagsGiven htags) hready.visitTag_le h
  refine ⟨hready.walked.trans h₁.walked, h₁.tagsGiven, h₁.home_eq.trans hready.home_eq, h₁.visitTag_le,
    hready.last_le.trans h₁.last_le, ?_, fun k hk hne n => ?_⟩
  · have hslot := hready.slot
    rw [h.slot_eq, h.walks_eq]
    split at hslot
    · obtain ⟨i, hi, ⟨hkept, htaken⟩ | ⟨hnone, hfree, htaken⟩⟩ := hslot
      · rw [hi, hkept, htaken]
        exact .kept
      · rw [hi, htaken]
        exact .taken hnone hfree
    · rw [hslot.1, hslot.2]
      exact .given
  · rw [← hready.arena_eq]
    -- the slot that the walk writes to was its own or was free
    refine h.scratch_eq k n fun hi => ?_
    have hslot := hready.slot
    split at hslot
    · obtain ⟨i, hi', ⟨hkept, -⟩ | ⟨-, hfree, -⟩⟩ := hslot
      · exact hne (hkept.trans (hi'.symm.trans hi))
      · rw [hi'] at hi
        exact hfree (Option.some.inj hi ▸ hk)
    · rw [hslot.1] at hi
      cases hi

/-- What a walk writes is kept from other walks. -/
theorem Requested.of_write (htags : g.TagsGiven) (htag : w.visitTag ≤ g.walks.visitTags.last) {i : Nat} {n : NodeId}
    (hslot : w.slot = some i) (hn : n < g.arena.capacity) {f : Slot → Slot} (hf : ∀ s, (f s).visited = s.visited) :
    Requested w g w (g.modify n (·.modifySlot i f)) := by
  refine ⟨⟨.of_modify fun _ => rfl, rfl, rfl⟩, Graph.tagsGiven_iff.mpr fun j m => ?_, rfl, htag, Nat.le_refl _,
    .kept, fun k _ hne m => ?_⟩
  · have htags := Graph.tagsGiven_iff.mp htags
    rw [Graph.modify, Arena.scratch_modify_slot hn]
    split
    · rw [hf]
      exact htags i n
    · exact htags j m
  · rw [Graph.modify, Arena.scratch_modify_slot hn, if_neg]
    rintro ⟨-, rfl⟩
    exact hne hslot

/-- **What every request does to the graph.** -/
theorem Served.requested {r : Request} (h : Served w g r w' g') (hhome : w.home = g.identity) (htags : g.TagsGiven)
    (htag : w.visitTag ≤ g.walks.visitTags.last) : Requested w g w' g' := by
  have hsame : ∀ {w' : Walk}, w'.home = w.home → w'.visitTag = w.visitTag → w'.slot = w.slot →
      Requested w g w' g := by
    intro w' hhome htag' hslot
    exact ⟨.refl g, htags, hhome, htag'.le.trans htag, Nat.le_refl _, hslot ▸ .kept, fun _ _ _ _ => rfl⟩
  cases h with
  | started hready h => exact .of_readied htags hready h
  | restarted h | stepped h | skipped h => exact .of_moved htags htag h
  | selected stops => exact hsame rfl rfl rfl
  | written hslot hn => exact .of_write htags htag hslot hn fun _ => rfl
  | read n => exact hsame rfl rfl rfl
  | dropped =>
    refine ⟨Guest.walked_finish, ?_, hhome.symm, Nat.zero_le _, ?_, ?_, fun k _ _ n => ?_⟩
    all_goals
      rw [finish, releaseSlot]
      rcases hslot : w.slot with _ | i
    · exact htags
    · exact htags
    · exact Nat.le_refl _
    · exact Nat.le_refl _
    · exact .kept
    · exact .given
    · rfl
    · rfl

end Walk

/-! ### What every run preserves -/

namespace Commons

/-- Tags are in order, and the slots that are taken are lent to the walks. -/
structure Orderly (s : Commons α) : Prop where
  ordered : s.graph.Ordered
  home : ∀ i, (s.walks i).home = s.graph.identity
  visitTag_le : ∀ i, (s.walks i).visitTag ≤ s.graph.walks.visitTags.last
  lent : Lent (fun i => (s.walks i).slot) s.graph.walks.taken

variable {s s' : Commons α} {i : Nat} {w' : Walk} {g' : Graph α}

/-- A command to the workspace or an analysis leaves the walks as they are. -/
theorem Orderly.of_walks_eq (h : s.Orderly) (hwalks : s'.walks = s.walks) (hordered : s'.graph.Ordered)
    (hidentity : s'.graph.identity = s.graph.identity) (htaken : s'.graph.walks.taken = s.graph.walks.taken)
    (hlast : s.graph.walks.visitTags.last ≤ s'.graph.walks.visitTags.last) : s'.Orderly where
  ordered := hordered
  home i := by rw [hwalks, hidentity, h.home]
  visitTag_le i := by
    rw [hwalks]
    exact (h.visitTag_le i).trans hlast
  lent := by
    rw [hwalks, htaken]
    exact h.lent

/-- **One walk at a time.** What a request to one walk does to slots and tags leaves all walks orderly. -/
theorem Orderly.withWalk (h : s.Orderly) (hrequested : (s.walks i).Requested s.graph w' g') :
    (s.withWalk i (w', g')).Orderly := by
  have hadvanced : s.graph.Advanced g' := .of_walked h.ordered.dated hrequested.walked
  have hidentity := hadvanced.terms.identity_eq
  have hall : ∀ P : Walk → Prop, P w' → (∀ j, P (s.walks j)) → ∀ j, P ((s.withWalk i (w', g')).walks j) := by
    intro P hw hP j
    by_cases hj : j = i
    · rw [hj]
      simpa [Commons.withWalk] using hw
    · simpa [Commons.withWalk, hj] using hP j
  refine ⟨h.ordered.of_advanced hadvanced hrequested.tagsGiven, ?_, ?_, ?_⟩
  · refine hall (·.home = g'.identity) ?_ fun j => (h.home j).trans hidentity.symm
    rw [hrequested.home_eq, h.home, hidentity]
  · exact hall (·.visitTag ≤ g'.walks.visitTags.last) hrequested.visitTag_le fun j =>
      (h.visitTag_le j).trans hrequested.last_le
  · have hslots : (fun j => ((s.withWalk i (w', g')).walks j).slot) =
        Function.update (fun j => (s.walks j).slot) i w'.slot := by
      funext j
      by_cases hj : j = i
      · rw [hj]
        simp [Commons.withWalk]
      · simp [Commons.withWalk, hj]
    rw [hslots]
    exact h.lent.update hrequested.releases

/-- What a request to one of the walks does. -/
theorem Orderly.requested (h : s.Orderly) {r : Walk.Request} {answer : Walk.Answer}
    (hrun : (s.walks i).serve s.graph r = .ok ((w', g'), answer)) : (s.walks i).Requested s.graph w' g' :=
  (Walk.served_of_serve (h.home i) hrun).requested (h.home i) h.ordered.tagsGiven (h.visitTag_le i)

section

variable [Scalar α] [BitPattern α] [NumberText α]

/-- What a command can come to. -/
inductive Served (s : Commons α) : Command α → Commons α → List (Nat × Walk.Answer) → Prop where
  | worked {c : IntervalDag.Command α} {w : Workspace α} (hserve : s.workspace.serve c = .ok w) :
      Served s (.work c) { s with workspace := w } []
  | analysed {a : Analysis} {g : Graph α} (htoured : s.graph.Toured g) : Served s (.analyse a) (s.withGraph g) []
  | requested {i : Nat} {r : Walk.Request} {w : Walk} {g : Graph α} {answer : Walk.Answer}
      (hserve : (s.walks i).serve s.graph r = .ok ((w, g), answer)) :
      Served s (.walk i r) (s.withWalk i (w, g)) [(i, answer)]

theorem served_of_serve (h : s.Orderly) {c : Command α} {answers : List (Nat × Walk.Answer)}
    (hrun : s.serve c = .ok (s', answers)) : s.Served c s' answers := by
  cases c with
  | work c =>
    obtain ⟨w, hserve, hrun⟩ := Checked.bind_eq_ok.mp hrun
    cases hrun
    exact .worked hserve
  | analyse a =>
    obtain ⟨g, hserve, hrun⟩ := Checked.bind_eq_ok.mp hrun
    cases hrun
    exact .analysed ((a.toured_run h.ordered.tagsGiven).of_observe (r := (g, ())) (by rw [hserve]; rfl))
  | walk i r =>
    obtain ⟨⟨⟨w, g⟩, answer⟩, hserve, hrun⟩ := Checked.bind_eq_ok.mp hrun
    cases hrun
    exact .requested hserve

/-- **One command.** -/
theorem orderly_of_serve (h : s.Orderly) {c : Command α} {answers : List (Nat × Walk.Answer)}
    (hrun : s.serve c = .ok (s', answers)) : s'.Orderly := by
  cases served_of_serve h hrun with
  | worked hserve =>
    obtain ⟨hordered, hidentity, htaken, hlast⟩ := Workspace.ordered_of_serve h.ordered hserve
    exact h.of_walks_eq rfl hordered hidentity htaken hlast
  | analysed htoured =>
    have hadvanced := Graph.Advanced.of_walked h.ordered.dated htoured.walked
    exact h.of_walks_eq rfl (h.ordered.of_advanced hadvanced htoured.tagsGiven) hadvanced.terms.identity_eq
      htoured.taken_eq htoured.last_le
  | requested hserve => exact h.withWalk (h.requested hserve)

/-- **Runs of commands.** -/
theorem orderly_of_serveAll (h : s.Orderly) {cs : List (Command α)} {answers : List (Nat × Walk.Answer)}
    (hrun : s.serveAll cs = .ok (s', answers)) : s'.Orderly :=
  Run.invariant_collect (fun h _ => orderly_of_serve h) h (.of_true s cs) hrun

omit [NumberText α] in
theorem orderly_new (settings : Settings α) (identity : Nat) (store : BoundTable α) :
    (new settings identity store).Orderly where
  ordered := (Graph.Resting.empty settings identity).toOrdered
  home _ := rfl
  visitTag_le _ := Nat.le_refl 0
  lent := ⟨List.nodup_nil, fun _ => ⟨fun hk => absurd hk List.not_mem_nil, fun ⟨_, hk⟩ => nomatch hk⟩,
    fun _ _ _ => nofun⟩

/-- A command is a request to the graph, replaces a handler or leaves the terms as they are. -/
theorem serve_cases (h : s.Orderly) {c : Command α} {answers : List (Nat × Walk.Answer)}
    (hrun : s.serve c = .ok (s', answers)) :
    (∃ r, c = .work (.request r) ∧ s.workspace.session.serve r = .ok s'.workspace.session) ∨
    (∃ op handler, c = .work (.register op handler) ∧ s'.graph = s.graph.register op handler ∧
      s'.workspace.held = s.workspace.held) ∨
    s.graph.Advanced s'.graph ∧ s'.workspace.held = s.workspace.held := by
  cases served_of_serve h hrun with
  | @worked c w hserve =>
    rcases Workspace.serve_cases h.ordered hserve with
      ⟨r, rfl, hrequest⟩ | ⟨op, handler, rfl, hregistered⟩ | ⟨hpropagated, hheld⟩
    · exact Or.inl ⟨r, rfl, hrequest⟩
    · exact Or.inr (Or.inl ⟨op, handler, rfl, hregistered⟩)
    · exact Or.inr (Or.inr ⟨hpropagated.toAdvanced, hheld⟩)
  | analysed htoured => exact Or.inr (Or.inr ⟨.of_walked h.ordered.dated htoured.walked, rfl⟩)
  | requested hserve => exact Or.inr (Or.inr ⟨.of_walked h.ordered.dated (h.requested hserve).walked, rfl⟩)

/-- Callers who keep to the rules leave the graph sound. -/
theorem sound_of_serve (h : s.Orderly) (hsound : s.graph.Sound s.workspace.held) {c : Command α} (hc : s.Permits c)
    {answers : List (Nat × Walk.Answer)} (hrun : s.serve c = .ok (s', answers)) :
    s'.graph.Sound s'.workspace.held := by
  rcases serve_cases h hrun with ⟨r, rfl, hserve⟩ | ⟨op, handler, -, hgraph, hheld⟩ | ⟨hadvanced, hheld⟩
  · obtain ⟨s₁, hserve₁, hsound₁⟩ := Session.exists_serve (s := s.workspace.session) hsound hc
    cases hserve.symm.trans hserve₁
    exact hsound₁
  · rw [hgraph, hheld]
    exact ⟨hsound.counted, hsound.acyclic, hsound.var_alive⟩
  · rw [hheld]
    exact hsound.of_sameTerms hadvanced.terms

/-- **Runs of commands that keep to the rules.** -/
theorem sound_of_serveAll (h : s.Orderly) (hsound : s.graph.Sound s.workspace.held) {cs : List (Command α)}
    (hcs : s.PermitsAll cs) {answers : List (Nat × Walk.Answer)} (hrun : s.serveAll cs = .ok (s', answers)) :
    s'.graph.Sound s'.workspace.held := by
  refine (Run.invariant_collect (I := fun s => s.Orderly ∧ s.graph.Sound s.workspace.held) ?_ ⟨h, hsound⟩ hcs hrun).2
  exact fun h hc hserve => ⟨orderly_of_serve h.1 hserve, sound_of_serve h.1 h.2 hc hserve⟩

end

end Commons

end IntervalDag
