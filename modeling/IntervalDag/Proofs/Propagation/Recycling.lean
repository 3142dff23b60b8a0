import IntervalDag.Proofs.Propagation.Steps
import IntervalDag.Proofs.Propagation.Workspace
import IntervalDag.Scalar.Binary64

/-!
# Numbers that are taken over

The line of reverse propagation holds plain numbers. A node that is freed while it stands in line leaves its number
there, and a node that is made later may take the number over.

`Watched` keeps account, beside a workspace, of the nodes that were tightened in a round and have been in use since,
and of the numbers whose nodes were freed in line. Working off the line is confined to both
(`Watched.drain_confined`): so it acts for nodes that were tightened as long as no number in line was taken over,
and otherwise it may not (`Watched.not_forall_confined`).
-/

namespace IntervalDag

variable {σ α : Type}

namespace Propagation

/-! ### Records of tightening -/

/-- The nodes of which tightening was recorded between two states, the last one first. -/
def tightenedSince (s s' : Propagation σ α) : List NodeId :=
  (s'.records.take (s'.records.length - s.records.length)).filterMap fun
    | .narrowed n _ _ => some n
    | _ => none

variable {s s₀ s₁ s₂ s' : Propagation σ α} {n : NodeId}

/-- Records are only added. -/
theorem mem_tightenedSince {more : List (LogRecord α)} (h : s'.records = more ++ s.records) :
    n ∈ s.tightenedSince s' ↔ ∃ known x, .narrowed n known x ∈ more := by
  have htake : s'.records.take (s'.records.length - s.records.length) = more := by
    rw [h, List.length_append, Nat.add_sub_cancel, List.take_left]
  rw [tightenedSince, htake, List.mem_filterMap]
  constructor
  · rintro ⟨r, hr, hn⟩
    cases r with
    | narrowed m known x =>
      cases hn
      exact ⟨known, x, hr⟩
    | _ => cases hn
  · rintro ⟨known, x, hr⟩
    exact ⟨_, hr, rfl⟩

theorem tightenedSince_mono (h₁ : s.records <:+ s₁.records) (h₂ : s₁.records <:+ s₂.records)
    (hn : n ∈ s.tightenedSince s₁) : n ∈ s.tightenedSince s₂ := by
  obtain ⟨more₁, hmore₁⟩ := h₁
  obtain ⟨more₂, hmore₂⟩ := h₂
  obtain ⟨known, x, hr⟩ := (mem_tightenedSince hmore₁.symm).mp hn
  rw [← hmore₁, ← List.append_assoc] at hmore₂
  exact (mem_tightenedSince hmore₂.symm).mpr ⟨known, x, List.mem_append_right _ hr⟩

theorem mem_tightenedSince_of_suffix (h₁ : s.records <:+ s₁.records) (h₂ : s₁.records <:+ s₂.records)
    (hn : n ∈ s₁.tightenedSince s₂) : n ∈ s.tightenedSince s₂ := by
  obtain ⟨more₁, hmore₁⟩ := h₁
  obtain ⟨more₂, hmore₂⟩ := h₂
  obtain ⟨known, x, hr⟩ := (mem_tightenedSince hmore₂.symm).mp hn
  rw [← hmore₁, ← List.append_assoc] at hmore₂
  exact (mem_tightenedSince hmore₂.symm).mpr ⟨known, x, List.mem_append_left _ hr⟩

variable [Scalar α] {x : Interval α} {t : Tightened}

/-! ### Tightening one node -/

/-- What tightening the node `n` leaves behind. Records are only added and the terms stay, at most the node is put in
line, whose tightening was recorded then, and at most the domain of the node's variable is changed. -/
structure TightensAt (n : NodeId) (s s' : Propagation (BoundTable α) α) : Prop where
  terms : s.graph.SameTerms s'.graph
  records : s.records <:+ s'.records
  queue : ∀ m ∈ s'.propagator.queue.toList, m ∈ s.propagator.queue.toList ∨
    m = n ∧ n ∈ s.tightenedSince s' ∧ s.graph.arena.isAlive n = true
  store : ∀ v, s'.store.bounds v ≠ s.store.bounds v → s.graph.arena.isAlive n = true ∧
    ∃ entry, s.graph.arena.node? n = some entry ∧ entry.kind = .var v

theorem Tightens.tightensAt {s s' : Propagation (BoundTable α) α} (h : Tightens n x s t s') : TightensAt n s s' := by
  cases h with
  | disjoint => exact ⟨.refl _, List.suffix_cons _ _, fun _ hm => Or.inl hm, fun v hv => absurd rfl hv⟩
  | kept => exact ⟨.refl _, List.suffix_refl _, fun _ hm => Or.inl hm, fun v hv => absurd rfl hv⟩
  | taken hknown hempty htight hentry hpass =>
    rename_i known entry
    have halive : s.graph.arena.isAlive n = true := (currentBounds_eq_ok_iff.mp hknown).1
    have hterms : s.graph.SameTerms (s.written n known (known.inter x)).graph := .of_modify fun _ => rfl
    have hrecords : s.records <:+ (s.written n known (known.inter x)).records := List.suffix_cons _ _
    have hset : ∀ {v store change}, entry.kind = .var v →
        BoundTable.tighten s.store v (known.inter x) = (store, change) → ∀ w,
        store.bounds w ≠ s.store.bounds w → s.graph.arena.isAlive n = true ∧
          ∃ entry, s.graph.arena.node? n = some entry ∧ entry.kind = .var w := by
      intro v store change hkind hstore w hw
      rw [BoundTable.tighten] at hstore
      split_ifs at hstore
      · cases hstore
        exact absurd rfl hw
      · cases hstore
        rw [BoundTable.bounds_set] at hw
        split_ifs at hw with hwv
        · exact ⟨halive, entry, hentry, hwv ▸ hkind⟩
        · exact absurd rfl hw
      · cases hstore
        exact absurd rfl hw
    cases hpass with
    | tightened hkind hstore =>
      exact ⟨hterms.trans ⟨.refl _ _, rfl, rfl, rfl, rfl, rfl⟩, hrecords, fun _ hm => Or.inl hm, hset hkind hstore⟩
    | unchanged hkind hstore => exact ⟨hterms, hrecords, fun _ hm => Or.inl hm, hset hkind hstore⟩
    | refused hkind hstore => exact ⟨hterms, hrecords, fun _ hm => Or.inl hm, hset hkind hstore⟩
    | constant | waiting => exact ⟨hterms, hrecords, fun _ hm => Or.inl hm, fun v hv => absurd rfl hv⟩
    | lined =>
      refine ⟨hterms.trans (.of_modify fun _ => rfl), hrecords, fun m hm => ?_, fun v hv => absurd rfl hv⟩
      have hqueue : ((s.written n known (known.inter x)).lined n).propagator.queue.toList =
          s.propagator.queue.toList ++ [n] := Fifo.toList_push ..
      rw [hqueue, List.mem_append, List.mem_singleton] at hm
      refine hm.imp_right fun hmn => ⟨hmn, ?_, halive⟩
      have hrecord : ((s.written n known (known.inter x)).lined n).records =
          [.narrowed n known (known.inter x)] ++ s.records := rfl
      exact (mem_tightenedSince hrecord).mpr ⟨_, _, List.mem_cons_self ..⟩

/-! ### Working off the line -/

/-- The states between the turns of working off the line, each with the count carried along. -/
inductive TurnsTo [BoundStore σ α] (s : Propagation σ α) : Nat → Propagation σ α → Prop where
  | start : TurnsTo s 0 s
  | turn {count count' s₁ s₂} (h : TurnsTo s count s₁) (hrun : (drainTurn count).run s₁ = .ok (.next count') s₂) :
    TurnsTo s count' s₂

/-- Working off the line is confined to nodes: it works only at them and at nodes that it tightened before, and it
changes only domains of variables at or below them. -/
structure Confined (s : Propagation (BoundTable α) α) (nodes : NodeId → Prop) : Prop where
  works : ∀ {count s₁ n queue}, s.TurnsTo count s₁ → s₁.propagator.queue.pop? = some (n, queue) →
    nodes n ∨ n ∈ s.tightenedSince s₁
  changes : ∀ {t s'}, drain.run s = .ok t s' → ∀ v, s'.store.bounds v ≠ s.store.bounds v →
    ∃ m, nodes m ∧ ∃ n, s.graph.arena.Below n m ∧ s.graph.arena.isAlive n = true ∧
      ∃ entry, s.graph.arena.node? n = some entry ∧ entry.kind = .var v

/-- A state on the way of working off a line that began in `s₀`. -/
structure Descends (s₀ s : Propagation (BoundTable α) α) : Prop where
  terms : s₀.graph.SameTerms s.graph
  records : s₀.records <:+ s.records
  queue : ∀ n ∈ s.propagator.queue.toList,
    (n ∈ s₀.propagator.queue.toList ∨ n ∈ s₀.tightenedSince s) ∧
      ∃ m ∈ s₀.propagator.queue.toList, s₀.graph.arena.Below n m
  store : ∀ v, s.store.bounds v ≠ s₀.store.bounds v → ∃ m ∈ s₀.propagator.queue.toList,
    ∃ n, s₀.graph.arena.Below n m ∧ s₀.graph.arena.isAlive n = true ∧
      ∃ entry, s₀.graph.arena.node? n = some entry ∧ entry.kind = .var v

/-- Requests go down from the nodes that stood in line at the start. -/
theorem preserves_descends (s₀ : Propagation (BoundTable α) α) :
    Preserves (fun n => ∃ m ∈ s₀.propagator.queue.toList, s₀.graph.arena.Below n m) (Descends s₀) (Descends s₀) where
  takenOut {s n queue} h hpop := by
    have hqueue := Fifo.pop?_eq_some hpop
    refine ⟨⟨h.terms.trans (.of_modify fun _ => rfl), h.records, fun m hm => ?_, h.store⟩, fun c hc => ?_⟩
    · exact h.queue m (hqueue ▸ List.mem_cons_of_mem n hm)
    · rw [h.terms.children.isOperand_eq] at hc
      obtain ⟨-, m, hm, hnm⟩ := h.queue n (hqueue ▸ List.mem_cons_self ..)
      exact ⟨m, hm, hc.below.trans hnm⟩
  noted {s} reported records stats hsuffix h := by
    refine ⟨h.terms.trans ⟨.refl _ _, rfl, rfl, rfl, rfl, rfl⟩, h.records.trans hsuffix, fun n hn => ?_, h.store⟩
    obtain ⟨hknown, hbelow⟩ := h.queue n hn
    exact ⟨hknown.imp_right (tightenedSince_mono h.records hsuffix), hbelow⟩
  tightens {s n x t s'} h hn ht := by
    have hat := ht.tightensAt
    have hdescends : Descends s₀ s' := by
      refine ⟨h.terms.trans hat.terms, h.records.trans hat.records, fun m hm => ?_, fun v hv => ?_⟩
      · rcases hat.queue m hm with hm | ⟨rfl, hm, -⟩
        · obtain ⟨hknown, hbelow⟩ := h.queue m hm
          exact ⟨hknown.imp_right (tightenedSince_mono h.records hat.records), hbelow⟩
        · exact ⟨Or.inr (mem_tightenedSince_of_suffix h.records hat.records hm), hn⟩
      · by_cases hsame : s'.store.bounds v = s.store.bounds v
        · exact h.store v (hsame ▸ hv)
        · obtain ⟨halive, entry, hentry, hkind⟩ := hat.store v hsame
          obtain ⟨entry₀, hentry₀, hkind₀, -⟩ := h.terms.symm.exists_node? hentry
          obtain ⟨m, hm, hnm⟩ := hn
          exact ⟨m, hm, n, hnm, h.terms.isAlive_eq ▸ halive, entry₀, hentry₀, hkind₀.trans hkind⟩
    rwa [ite_self]
  stop h := h

/-- **Working off the line** is confined to the nodes in line. -/
theorem confined_of_queue {s : Propagation (BoundTable α) α} {nodes : NodeId → Prop}
    (h : ∀ n ∈ s.propagator.queue.toList, nodes n) : s.Confined nodes := by
  have hstart : Descends s s :=
    ⟨.refl _, List.suffix_refl _, fun n hn => ⟨Or.inl hn, n, hn, .refl _ _⟩, fun v hv => absurd rfl hv⟩
  have hturns : ∀ {count s₁}, s.TurnsTo count s₁ → Descends s s₁ := by
    intro count s₁ h
    induction h with
    | start => exact hstart
    | turn _ hrun ih =>
      rename_i count _ _ _ _
      have hmeets := (preserves_descends s).meets_drainTurn ih count
      rw [meets_iff_run, hrun] at hmeets
      exact hmeets
  constructor
  · intro count s₁ n queue hs₁ hpop
    have hdescends := hturns hs₁
    have hn : n ∈ s₁.propagator.queue.toList := by
      rw [Fifo.pop?_eq_some hpop]
      exact List.mem_cons_self ..
    exact (hdescends.queue n hn).1.imp_left (h n)
  · intro t s' hrun v hv
    have hmeets := (preserves_descends s).meets_drain hstart
    rw [meets_iff_run, hrun] at hmeets
    have hstore : Descends s s' ∨ ∃ s₁, Descends s s₁ ∧ s'.store = s₁.store := by
      dsimp only at hmeets
      split_ifs at hmeets
      · obtain ⟨s₁, hs₁, rfl⟩ := hmeets
        exact Or.inr ⟨s₁, hs₁, rfl⟩
      · exact Or.inl hmeets.1
    obtain ⟨m, hm, hbelow⟩ : ∃ m ∈ s.propagator.queue.toList, ∃ n, s.graph.arena.Below n m ∧
        s.graph.arena.isAlive n = true ∧ ∃ entry, s.graph.arena.node? n = some entry ∧ entry.kind = .var v := by
      rcases hstore with hs' | ⟨s₁, hs₁, heq⟩
      · exact hs'.store v hv
      · exact hs₁.store v (heq ▸ hv)
    exact ⟨m, h m hm, hbelow⟩

/-- A forward pass leaves the line alone. -/
theorem refreshes_of_queue [BoundStore σ α] (queue : Fifo NodeId) (root : NodeId) (force : Bool) :
    Refreshes root force (fun _ => True) (fun _ _ (s : Propagation σ α) => s.propagator.queue = queue)
      (fun _ s => s.propagator.queue = queue) where
  meets {n rest seen count s} hqueue _ _ _ _ := by
    refine meets_refresh (Or.inr fun _ => trivial) (Or.inr fun _ => trivial) (fun entry _ _ _ => ?_)
      fun entry _ _ => ?_
    · refine ⟨⟨.refl _ _, rfl⟩, ?_⟩
      split_ifs
      · exact meets_bind.mpr hqueue
      · exact hqueue
    · rcases s.graph.rangeOver (BoundStore.bounds s.store) entry.kind
        (entry.children.map s.graph.activityAt) with e | x
      · exact trivial
      · intro count reported records stats
        refine ⟨sameWay_recomputed s n _ reported records stats, ?_⟩
        split_ifs
        · exact meets_bind.mpr hqueue
        · exact hqueue
  walked_J hqueue _ := hqueue
  walked_K hqueue _ := hqueue

end Propagation

/-! ### Rounds with requests in between -/

/-- Commands that neither open a round nor bring in another propagator. -/
def Command.staysInRound : Command α → Bool
  | .call .beginRound | .call (.propagate _) | .renew => false
  | _ => true

/-- A workspace in a round, and what is kept account of beside it. -/
structure Watched (α : Type) where
  /-- The workspace. -/
  workspace : Workspace α
  /-- The nodes of which tightening was recorded in the round and which have been in use since. -/
  kept : List NodeId
  /-- The numbers of nodes that were freed while they stood in line. -/
  stale : List NodeId

namespace Watched

variable [Scalar α]

/-- Serves a command. None both frees a node and makes one, so a node that is in use after a command with a number
that was in use before is still the same. -/
def serve (v : Watched α) (c : Command α) : Checked α (Watched α) := do
  let w ← v.workspace.serve c
  let before := v.workspace.state
  return {
    workspace := w
    kept := (v.kept ++ before.tightenedSince w.state).filter w.state.graph.isAlive
    stale := v.stale ++
      before.propagator.queue.toList.filter fun n => before.graph.isAlive n && !w.state.graph.isAlive n }

/-- Serves commands one after another. -/
def serveAll (v : Watched α) (cs : List (Command α)) : Checked α (Watched α) := cs.foldlM serve v

/-- Every number in line is accounted for. -/
structure Accounted (v : Watched α) : Prop where
  ordered : v.workspace.state.graph.Ordered
  isAlive : ∀ n ∈ v.kept, v.workspace.state.graph.isAlive n = true
  queue : ∀ n ∈ v.workspace.state.propagator.queue.toList, n ∈ v.kept ∨ n ∈ v.stale

variable {v v' : Watched α} {c : Command α} {w w' : Workspace α}

/-- What is in line after a command was before, or the node was tightened by it. -/
theorem queue_of_serve (h : w.state.graph.Ordered) (hc : c.staysInRound = true) (hrun : w.serve c = .ok w') :
    ∀ n ∈ w'.state.propagator.queue.toList, n ∈ w.state.propagator.queue.toList ∨
      n ∈ w.state.tightenedSince w'.state ∧ w'.state.graph.isAlive n = true := by
  intro n hn
  cases c with
  | request r =>
    obtain ⟨s, -, hrun⟩ := Checked.bind_eq_ok.mp hrun
    cases hrun
    exact Or.inl hn
  | call c =>
    obtain ⟨⟨b, state⟩, hcall, hrun⟩ := Checked.bind_eq_ok.mp hrun
    cases hrun
    cases c with
    | beginRound | propagate => cases hc
    | forward root force =>
      have hmeets : Meets (Call.run (.forward root force)) w.state (fun _ => True) fun _ s' =>
          s'.propagator.queue = w.state.propagator.queue := by
        refine (Propagation.meets_forward (Propagation.refreshes_of_queue w.state.propagator.queue root force) rfl
          h.tagsGiven (Or.inr fun _ => trivial) (Or.inr fun _ => trivial)).bind fun r s' hr => meets_pure.mpr ?_
        obtain ⟨-, -, hr⟩ := hr
        split_ifs at hr
        · exact hr.2
        · obtain ⟨-, seen, -, hqueue⟩ := hr
          exact hqueue
      rw [show state.propagator.queue = w.state.propagator.queue from hmeets.of_observe hcall] at hn
      exact Or.inl hn
    | tighten m x =>
      have hmeets : Meets (Call.run (.tighten m x)) w.state (fun _ => True) fun _ s' =>
          Propagation.TightensAt m w.state s' := by
        refine Meets.bind ((Propagation.meets_tighten_cases m x).mono (fun _ _ => trivial) fun _ _ ht => ht)
          fun t s' ht => meets_pure.mpr ht.tightensAt
      have hat := hmeets.of_observe hcall
      rcases hat.queue n hn with hn | ⟨rfl, hrecorded, halive⟩
      · exact Or.inl hn
      · refine Or.inr ⟨hrecorded, ?_⟩
        change state.graph.arena.isAlive n = true
        rw [hat.terms.isAlive_eq]
        exact halive
    | drain =>
      -- nothing is left in line
      have hmeets : Meets (Call.run .drain) w.state (fun _ => True) fun _ s' => s'.propagator.queue.toList = [] := by
        have hdescends := (Propagation.preserves_descends w.state).meets_drain
          ⟨.refl _, List.suffix_refl _, fun n hn => ⟨Or.inl hn, n, hn, .refl _ _⟩, fun v hv => absurd rfl hv⟩
        refine hdescends.bind fun t s' ht => meets_pure.mpr ?_
        split_ifs at ht
        · obtain ⟨s₁, -, rfl⟩ := ht
          rfl
        · exact ht.2
      rw [show state.propagator.queue.toList = [] from hmeets.of_observe hcall] at hn
      cases hn
  | changeBounds f =>
    cases hrun
    exact Or.inl hn
  | evaluate root point =>
    obtain ⟨⟨g, v⟩, -, hrun⟩ := Checked.bind_eq_ok.mp hrun
    cases hrun
    exact Or.inl hn
  | register op handler =>
    cases hrun
    exact Or.inl hn
  | renew => cases hc

/-- **One command** leaves every number in line accounted for. -/
theorem Accounted.serve (h : v.Accounted) (hc : c.staysInRound = true) (hrun : v.serve c = .ok v') :
    v'.Accounted := by
  obtain ⟨w, hserve, hrun⟩ := Checked.bind_eq_ok.mp hrun
  cases hrun
  refine ⟨(Workspace.ordered_of_serve h.ordered hserve).1, fun n hn => (List.mem_filter.mp hn).2, fun n hn => ?_⟩
  rw [List.mem_filter, List.mem_append, List.mem_append, List.mem_filter]
  rcases halive : w.state.graph.isAlive n with _ | _
  · -- a node in line that was kept account of was freed just now
    rcases queue_of_serve h.ordered hc hserve n hn with hn | ⟨-, hn⟩
    · rcases h.queue n hn with hkept | hstale
      · exact Or.inr (Or.inr ⟨hn, by rw [h.isAlive n hkept]; rfl⟩)
      · exact Or.inr (Or.inl hstale)
    · rw [halive] at hn
      cases hn
  · rcases queue_of_serve h.ordered hc hserve n hn with hn | ⟨hn, -⟩
    · exact (h.queue n hn).imp (fun hkept => ⟨Or.inl hkept, rfl⟩) Or.inl
    · exact Or.inl ⟨Or.inr hn, rfl⟩

/-- **Runs of commands.** -/
theorem Accounted.serveAll {cs : List (Command α)} (h : v.Accounted) (hcs : ∀ c ∈ cs, c.staysInRound = true)
    (hrun : v.serveAll cs = .ok v') : v'.Accounted :=
  Run.invariant (R := fun _ c => c.staysInRound = true) Accounted.serve h (.of_forall hcs) hrun

/-- A workspace in which a round was opened. -/
def opened (w : Workspace α) : Watched α := ⟨w, [], []⟩

/-- **Working off the line** in a round, after any requests and steps of propagation in it, is confined to the nodes
that were tightened in the round and have been in use since, and to numbers whose nodes were freed in line. Where a
number of the second sort is in line only if its new node was tightened itself, it is confined to the first. -/
theorem drain_confined [BitPattern α] (settings : Settings α) (identity : Nat) (store : BoundTable α)
    {cs₀ cs : List (Command α)} {w₀ w : Workspace α} {v : Watched α}
    (hrun : (Workspace.new settings identity store).serveAll cs₀ = .ok w₀)
    (hopen : w₀.serve (.call .beginRound) = .ok w) (hcs : ∀ c ∈ cs, c.staysInRound = true)
    (hround : (opened w).serveAll cs = .ok v) :
    v.workspace.state.Confined (fun n => n ∈ v.kept ∨ n ∈ v.stale) ∧
      ((∀ n ∈ v.workspace.state.propagator.queue.toList, n ∈ v.stale → n ∈ v.kept) →
        v.workspace.state.Confined (· ∈ v.kept)) := by
  have hresting := Workspace.resting_of_serveAll (.empty settings identity) hrun
  have hqueue : w.state.propagator.queue.toList = [] := by
    obtain ⟨⟨b, state⟩, hcall, hopen⟩ := Checked.bind_eq_ok.mp hopen
    cases hopen
    cases hcall
    rfl
  have hstart : (opened w).Accounted :=
    ⟨(Workspace.ordered_of_serve hresting.toOrdered hopen).1, nofun, fun n hn => by cases hqueue ▸ hn⟩
  have haccounted := hstart.serveAll hcs hround
  refine ⟨Propagation.confined_of_queue haccounted.queue, fun hkept => Propagation.confined_of_queue fun n hn => ?_⟩
  exact (haccounted.queue n hn).elim id (hkept n hn)

/-- A sum is freed outside the line, and its number is taken over while another sum is in line. -/
theorem drain_confined_of_kept :
    let cs₀ : List (Command Float) :=
      [.request (.var 0), .request (.add (.sum [1] 0) [0]), .request (.add (.sum [1] 1) [0])]
    let cs : List (Command Float) :=
      [.request (.release 2), .call (.tighten 1 ⟨1, 2⟩), .request (.add .entropy [0])]
    ∃ w₀ w v, (Workspace.new default 0 (.ofList [⟨-5, 5⟩])).serveAll cs₀ = .ok w₀ ∧
      w₀.serve (.call .beginRound) = .ok w ∧ (∀ c ∈ cs, c.staysInRound = true) ∧ (opened w).serveAll cs = .ok v ∧
      v.workspace.state.propagator.queue.toList = [1] ∧ v.kept = [1] ∧ v.stale = [] ∧
      v.workspace.state.Confined (· ∈ v.kept) := by
  intro cs₀ cs
  have hvar := Workspace.serve_var_new default 0 (BoundTable.ofList [⟨-5, 5⟩] : BoundTable Float) 0
  have hfirst : (Workspace.new default 0 (BoundTable.ofList [⟨-5, 5⟩])).serveAll cs₀ =
    _ >>= fun w => Workspace.serveAll w cs₀.tail := List.foldlM_cons ..
  have hread : ((Workspace.new default 0 (BoundTable.ofList [⟨-5, 5⟩])).serveAll cs₀ >>= fun w₀ =>
      w₀.serve (.call .beginRound) >>= fun w => (opened w).serveAll cs).toOption.map (fun v =>
        (v.workspace.state.propagator.queue.toList, v.kept, v.stale)) = some ([1], [1], []) := by
    rw [hfirst, hvar, Checked.ok_bind]
    decide +kernel
  obtain ⟨v, hrun, hread⟩ := Checked.exists_ok_of_toOption hread
  obtain ⟨w₀, hrun, hrest⟩ := Checked.bind_eq_ok.mp hrun
  obtain ⟨w, hopen, hround⟩ := Checked.bind_eq_ok.mp hrest
  simp only [Prod.mk.injEq] at hread
  obtain ⟨hqueue, hkept, hstale⟩ := hread
  have hcs : ∀ c ∈ cs, c.staysInRound = true := by decide
  refine ⟨w₀, w, v, hrun, hopen, hcs, hround, hqueue, hkept, hstale, ?_⟩
  refine (drain_confined default 0 _ hrun hopen hcs hround).2 fun n _ hn => ?_
  rw [hstale] at hn
  cases hn

/-- The only user of a variable between -5 and 5, a sum, is tightened and freed in line. The entropy term that takes
over its number was never tightened, but is worked at, and the variable loses its negative values. -/
theorem recycling_session :
    let cs₀ : List (Command Float) := [.request (.var 0), .request (.add (.sum [1] 0) [0])]
    let cs : List (Command Float) :=
      [.call (.tighten 1 ⟨1, 2⟩), .request (.release 1), .request (.add .entropy [0])]
    (Workspace.new default 0 (.ofList [⟨-5, 5⟩])).PermitsAll (cs₀ ++ .call .beginRound :: cs) ∧
    ∃ w₀ w v, (Workspace.new default 0 (.ofList [⟨-5, 5⟩])).serveAll cs₀ = .ok w₀ ∧
      w₀.serve (.call .beginRound) = .ok w ∧ (∀ c ∈ cs, c.staysInRound = true) ∧ (opened w).serveAll cs = .ok v ∧
      v.workspace.state.propagator.queue.toList = [1] ∧ v.kept = [] ∧ v.stale = [1] ∧
      ∃ t s', Propagation.drain.run v.workspace.state = .ok t s' ∧
        s'.store.bounds 0 ≠ v.workspace.state.store.bounds 0 := by
  intro cs₀ cs
  have hvar := Workspace.serve_var_new default 0 (BoundTable.ofList [⟨-5, 5⟩] : BoundTable Float) 0
  have hfirst : (Workspace.new default 0 (BoundTable.ofList [⟨-5, 5⟩])).serveAll cs₀ =
    _ >>= fun w => Workspace.serveAll w cs₀.tail := List.foldlM_cons ..
  have hpermits : (Workspace.new default 0 (BoundTable.ofList [⟨-5, 5⟩] : BoundTable Float)).PermitsAll
      (cs₀ ++ .call .beginRound :: cs) := by
    refine ⟨trivial, fun w₁ hw₁ => ?_⟩
    rw [hvar] at hw₁
    cases hw₁
    decide +kernel
  let lowered (s s' : Propagation (BoundTable Float) Float) : Bool × Bool :=
    ((s.store.bounds 0).inf == 0, (s'.store.bounds 0).inf == 0)
  have hread : ((Workspace.new default 0 (BoundTable.ofList [⟨-5, 5⟩])).serveAll cs₀ >>= fun w₀ =>
      w₀.serve (.call .beginRound) >>= fun w => (opened w).serveAll cs).toOption.map (fun v =>
        (v.workspace.state.propagator.queue.toList, v.kept, v.stale,
          match Propagation.drain.run v.workspace.state with
          | .ok _ s' => some (lowered v.workspace.state s')
          | .error _ _ => none)) = some ([1], [], [1], some (false, true)) := by
    rw [hfirst, hvar, Checked.ok_bind]
    decide +kernel
  obtain ⟨v, hrun, hread⟩ := Checked.exists_ok_of_toOption hread
  obtain ⟨w₀, hrun, hrest⟩ := Checked.bind_eq_ok.mp hrun
  obtain ⟨w, hopen, hround⟩ := Checked.bind_eq_ok.mp hrest
  simp only [Prod.mk.injEq] at hread
  obtain ⟨hqueue, hkept, hstale, hdrain⟩ := hread
  refine ⟨hpermits, w₀, w, v, hrun, hopen, by decide, hround, hqueue, hkept, hstale, ?_⟩
  cases hdrained : Propagation.drain.run v.workspace.state with
  | ok t s' =>
    rw [hdrained] at hdrain
    refine ⟨t, s', rfl, fun heq => ?_⟩
    simp only [lowered, heq, Option.some.injEq, Prod.mk.injEq] at hdrain
    rw [hdrain.1] at hdrain
    cases hdrain.2
  | error e s' =>
    rw [hdrained] at hdrain
    cases hdrain

/-- Working off the line can act for a node that was freed, through the number that it left in line. -/
theorem not_forall_confined : ¬ ∀ (cs₀ cs : List (Command Float)) (w₀ w : Workspace Float) (v : Watched Float),
    (Workspace.new default 0 (.ofList [⟨-5, 5⟩])).PermitsAll (cs₀ ++ .call .beginRound :: cs) →
      (Workspace.new default 0 (.ofList [⟨-5, 5⟩])).serveAll cs₀ = .ok w₀ →
      w₀.serve (.call .beginRound) = .ok w → (∀ c ∈ cs, c.staysInRound = true) → (opened w).serveAll cs = .ok v →
      v.workspace.state.Confined (· ∈ v.kept) := by
  intro hall
  obtain ⟨hpermits, w₀, w, v, hrun, hopen, hcs, hround, -, hkept, -, t, s', hdrain, hne⟩ := recycling_session
  obtain ⟨m, hm, -⟩ := (hall _ _ w₀ w v hpermits hrun hopen hcs hround).changes hdrain 0 hne
  rw [hkept] at hm
  cases hm

end Watched

end IntervalDag
