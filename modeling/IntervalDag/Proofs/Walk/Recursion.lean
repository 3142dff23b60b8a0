import IntervalDag.Proofs.Graph.Edges
import IntervalDag.Proofs.Walk.Commons

/-!
# Depth-first search by recursion

`Plan.search` says what a depth-first walk is to show: it goes through a node by reporting that it enters the node,
going through the children one by one with a report before and after each, and reporting that it leaves the node. A
caller sees the reports at selected stages and may answer any of them but the last of a node by skipping.

`Plan.covers_search`: if nothing is skipped and no node visited again, the search enters and leaves every node below
the root exactly once, and leaves it after all that lies below it.
-/

namespace IntervalDag

variable {α : Type}

/-! ### The search -/

/-- How to search. -/
structure Plan where
  /-- The stages that the caller sees. -/
  stops : StageSet
  /-- Whether nodes that were left may be visited again. -/
  revisits : Bool
  /-- Whether the caller skips when it has seen these reports. -/
  skips : List Report → Bool

/-- What has been reported, and the nodes that were left, the last one first. -/
structure Progress where
  /-- All reports, in order. -/
  trace : List Report
  /-- The nodes that were left. -/
  left : List NodeId

/-- Nothing has been reported yet. -/
def Progress.start : Progress := ⟨[], []⟩

/-- Reports. -/
def Progress.report (s : Progress) (r : Report) : Progress := { s with trace := s.trace ++ [r] }

/-- Leaves a node. -/
def Progress.leave (s : Progress) (n : NodeId) : Progress := { s with left := n :: s.left }

namespace Plan

/-- The reports that the caller sees. -/
def shown (p : Plan) (trace : List Report) : List Report := trace.filter (p.stops.contains ·.stage)

/-- Whether the caller skips at the last report of a trace, which is of a stage. -/
def skipsAt (p : Plan) (trace : List Report) (stage : Stage) : Bool :=
  stage ≠ .leave && p.stops.contains stage && p.skips (p.shown trace)

/-- Whether a child need not be visited when some nodes were left. -/
def passesBy (p : Plan) (left : List NodeId) (c : NodeId) : Bool := !p.revisits && left.contains c

/-- Goes through the children of a node from a position on, where `visit` goes through one of them. -/
def siblings (p : Plan) {a : Arena α} (parent : Option NodeId) (n : NodeId)
    (visit : (c : NodeId) → a.IsOperand c n → Progress → Progress) :
    (cs : List NodeId) → (∀ c ∈ cs, a.IsOperand c n) → Nat → Progress → Progress
  | [], _, _, s => s
  | c :: cs, hcs, i, s =>
    let rest := p.siblings parent n visit cs (fun c hc => hcs c (List.mem_cons_of_mem _ hc)) (i + 1)
    if p.passesBy s.left c then rest s
    else
      let s := s.report ⟨n, .visitingChild, some i, parent⟩
      if p.skipsAt s.trace .visitingChild then rest s
      else
        let s := (visit c (hcs c List.mem_cons_self) s).report ⟨n, .visitedChild, some i, parent⟩
        if p.skipsAt s.trace .visitedChild then s else rest s

/-- Goes through a node and what is below it. -/
def search (p : Plan) {a : Arena α} (h : a.Acyclic) (parent : Option NodeId) (n : NodeId) (s : Progress) :
    Progress :=
  let s := s.report ⟨n, .enter, none, parent⟩
  let s :=
    if p.skipsAt s.trace .enter then s
    else p.siblings parent n (fun c _ s => p.search h (some n) c s) (a.operands n) (fun _ hc => hc) 0 s
  (s.report ⟨n, .leave, none, parent⟩).leave n
termination_by h.wrap n
decreasing_by assumption

/-! ### What a search adds -/

/-- The nodes of the reports of a stage. -/
def nodesAt (stage : Stage) (trace : List Report) : List NodeId :=
  (trace.filter (·.stage = stage)).map Report.node

theorem nodesAt_append (stage : Stage) (trace trace' : List Report) :
    nodesAt stage (trace ++ trace') = nodesAt stage trace ++ nodesAt stage trace' := by
  rw [nodesAt, List.filter_append, List.map_append]
  rfl

theorem nodesAt_singleton (stage : Stage) (r : Report) :
    nodesAt stage [r] = if r.stage = stage then [r.node] else [] := by
  by_cases h : r.stage = stage
  · simp [nodesAt, h]
  · simp [nodesAt, h]

/-- The caller sees all reports of the stages selected. -/
theorem nodesAt_shown (p : Plan) {stage : Stage} (h : p.stops.contains stage = true) (trace : List Report) :
    nodesAt stage (p.shown trace) = nodesAt stage trace := by
  rw [nodesAt, shown, List.filter_filter, nodesAt]
  congr 1
  refine List.filter_congr fun r _ => ?_
  by_cases hr : r.stage = stage
  · simp [hr, h]
  · simp [hr]

/-- The caller sees one report more if its stage is selected. -/
theorem shown_concat (p : Plan) {r : Report} (h : p.stops.contains r.stage = true) (trace : List Report) :
    p.shown (trace ++ [r]) = p.shown trace ++ [r] := by
  simp [shown, List.filter_append, h]

theorem shown_concat_of_not (p : Plan) {r : Report} (h : p.stops.contains r.stage = false) (trace : List Report) :
    p.shown (trace ++ [r]) = p.shown trace := by
  simp [shown, List.filter_append, h]

/-- With a node that was left, all that lies below it was. -/
def Closed (a : Arena α) (left : List NodeId) : Prop := ∀ m n, a.Below m n → n ∈ left → m ∈ left

/-- Reports that enter and leave the nodes of a kind, but for those left before, once each, and no node before one
that lies below it. -/
structure Covers (a : Arena α) (P : NodeId → Prop) (s : Progress) (reports : List Report) (s' : Progress) : Prop where
  trace_eq : s'.trace = s.trace ++ reports
  left_iff : ∀ m, m ∈ s'.left ↔ m ∈ s.left ∨ P m
  nodup : ∀ stage, stage.isAtChild = false → (nodesAt stage reports).Nodup
  mem_iff : ∀ stage, stage.isAtChild = false → ∀ m, m ∈ nodesAt stage reports ↔ P m ∧ m ∉ s.left
  ordered : (nodesAt .leave reports).Pairwise fun m n => ¬ a.Below n m

namespace Covers

variable {a : Arena α} {P Q : NodeId → Prop} {s s₁ s₂ : Progress} {reports reports' : List Report}

theorem closed (h : Covers a P s reports s₁) (hP : ∀ m n, a.Below m n → P n → P m) (hs : Closed a s.left) :
    Closed a s₁.left := by
  intro m n hbelow hn
  rw [h.left_iff] at hn ⊢
  exact hn.imp (hs m n hbelow) (hP m n hbelow)

/-- What was left before does not count. -/
theorem congr (h : Covers a P s reports s₁) (hPQ : ∀ m, m ∉ s.left → (P m ↔ Q m)) : Covers a Q s reports s₁ := by
  refine ⟨h.trace_eq, fun m => ?_, h.nodup, fun stage hstage m => ?_, h.ordered⟩
  · rw [h.left_iff]
    by_cases hm : m ∈ s.left
    · simp [hm]
    · simp [hm, hPQ m hm]
  · rw [h.mem_iff stage hstage]
    exact and_congr_left (hPQ m)

/-- Nothing is reported. -/
theorem none (s : Progress) : Covers a (fun _ => False) s [] s where
  trace_eq := (List.append_nil _).symm
  left_iff m := by simp
  nodup _ _ := List.nodup_nil
  mem_iff _ _ m := by simp [nodesAt]
  ordered := .nil

/-- A report about a child. -/
theorem report {r : Report} (hr : r.stage.isAtChild = true) (s : Progress) :
    Covers a (fun _ => False) s [r] (s.report r) := by
  have hnone : ∀ stage, stage.isAtChild = false → nodesAt stage [r] = [] := by
    intro stage hstage
    rw [nodesAt_singleton, if_neg]
    rintro rfl
    rw [hr] at hstage
    cases hstage
  refine ⟨rfl, fun m => by simp [Progress.report], fun stage hstage => ?_, fun stage hstage m => ?_, ?_⟩
  · rw [hnone stage hstage]
    exact List.nodup_nil
  · simp [hnone stage hstage]
  · rw [hnone .leave rfl]
    exact .nil

/-- Two portions of reports. What lies below a node of the first portion is not left in the second. -/
theorem append (h : Covers a P s reports s₁) (h' : Covers a Q s₁ reports' s₂)
    (hP : ∀ m n, a.Below m n → P n → P m) : Covers a (fun m => P m ∨ Q m) s (reports ++ reports') s₂ := by
  have hleft : ∀ stage, stage.isAtChild = false → ∀ m, m ∈ nodesAt stage reports' → Q m ∧ m ∉ s.left ∧ ¬ P m := by
    intro stage hstage m hm
    obtain ⟨hQ, hm⟩ := (h'.mem_iff stage hstage m).mp hm
    rw [h.left_iff, not_or] at hm
    exact ⟨hQ, hm⟩
  refine ⟨by rw [h'.trace_eq, h.trace_eq, List.append_assoc], fun m => ?_, fun stage hstage => ?_,
    fun stage hstage m => ?_, ?_⟩
  · rw [h'.left_iff, h.left_iff, or_assoc]
  · rw [nodesAt_append]
    refine (h.nodup stage hstage).append (h'.nodup stage hstage) fun m hm hm' => ?_
    exact (hleft stage hstage m hm').2.2 ((h.mem_iff stage hstage m).mp hm).1
  · rw [nodesAt_append, List.mem_append, h.mem_iff stage hstage, h'.mem_iff stage hstage, h.left_iff]
    by_cases hm : P m
    · simp [hm]
    · simp [hm]
  · rw [nodesAt_append, List.pairwise_append]
    refine ⟨h.ordered, h'.ordered, fun m hm n hn hbelow => ?_⟩
    exact (hleft .leave rfl n hn).2.2 (hP n m hbelow ((h.mem_iff .leave rfl m).mp hm).1)

/-- A node, around what lies below its operands. -/
theorem node {n : NodeId} {parent : Option NodeId} (hn : n ∉ s.left) (hbelow : ∀ m, P m → ¬ a.Below n m)
    (h : Covers a P (s.report ⟨n, .enter, Option.none, parent⟩) reports s₁) :
    Covers a (fun m => m = n ∨ P m) s
      (⟨n, .enter, Option.none, parent⟩ :: reports ++ [⟨n, .leave, Option.none, parent⟩])
      ((s₁.report ⟨n, .leave, Option.none, parent⟩).leave n) := by
  have hmem : ∀ stage, stage.isAtChild = false → ∀ m, m ∈ nodesAt stage reports ↔ P m ∧ m ∉ s.left := h.mem_iff
  have hfresh : ∀ stage, stage.isAtChild = false → n ∉ nodesAt stage reports := fun stage hstage hmem' =>
    hbelow n ((hmem stage hstage n).mp hmem').1 (.refl a n)
  have henter : nodesAt .enter (⟨n, .enter, Option.none, parent⟩ :: reports ++ [⟨n, .leave, Option.none, parent⟩]) =
      n :: nodesAt .enter reports := by
    simp [nodesAt]
  have hleave : nodesAt .leave (⟨n, .enter, Option.none, parent⟩ :: reports ++ [⟨n, .leave, Option.none, parent⟩]) =
      nodesAt .leave reports ++ [n] := by
    simp [nodesAt]
  have hself : ∀ m, m = n ∨ P m ∧ m ∉ s.left ↔ (m = n ∨ P m) ∧ m ∉ s.left := by
    intro m
    by_cases hm : m = n
    · simp [hm, hn]
    · simp [hm]
  refine ⟨?_, fun m => ?_, fun stage hstage => ?_, fun stage hstage m => ?_, ?_⟩
  · simp [Progress.leave, Progress.report, h.trace_eq]
  · have := h.left_iff m
    simp only [Progress.leave, Progress.report, List.mem_cons] at this ⊢
    rw [this]
    tauto
  · cases stage with
    | enter =>
      rw [henter, List.nodup_cons]
      exact ⟨hfresh .enter rfl, h.nodup .enter rfl⟩
    | leave =>
      rw [hleave, List.nodup_append]
      refine ⟨h.nodup .leave rfl, List.nodup_singleton n, fun m hm m' hm' heq => ?_⟩
      rw [List.mem_singleton.mp hm'] at heq
      exact hfresh .leave rfl (heq ▸ hm)
    | visitingChild => cases hstage
    | visitedChild => cases hstage
  · cases stage with
    | enter => rw [henter, List.mem_cons, hmem .enter rfl, hself]
    | leave => rw [hleave, List.mem_append, List.mem_singleton, hmem .leave rfl, or_comm, hself]
    | visitingChild => cases hstage
    | visitedChild => cases hstage
  · rw [hleave, List.pairwise_append]
    refine ⟨h.ordered, List.pairwise_singleton _ n, fun m hm n' hn' => ?_⟩
    rw [List.mem_singleton.mp hn']
    exact hbelow m ((hmem .leave rfl m).mp hm).1

end Covers

variable {p : Plan} {a : Arena α}

/-- **Siblings.** If `visit` enters and leaves all that lies below a child, then going through the children does so
for all of them. -/
theorem covers_siblings (hrevisits : p.revisits = false) (hskips : ∀ shown, p.skips shown = false)
    (parent : Option NodeId) {n : NodeId} {visit : (c : NodeId) → a.IsOperand c n → Progress → Progress}
    (hvisit : ∀ c hc s, Closed a s.left → c ∉ s.left → ∃ reports, Covers a (a.Below · c) s reports (visit c hc s))
    (cs : List NodeId) (hcs : ∀ c ∈ cs, a.IsOperand c n) (i : Nat) {s : Progress} (hs : Closed a s.left) :
    ∃ reports, Covers a (fun m => ∃ c ∈ cs, a.Below m c) s reports (p.siblings parent n visit cs hcs i s) := by
  have hnever : ∀ trace stage, p.skipsAt trace stage = false := fun trace stage => by simp [skipsAt, hskips]
  induction cs generalizing i s with
  | nil => exact ⟨[], (Covers.none s).congr fun m _ => by simp⟩
  | cons c cs ih =>
    have hcs' : ∀ c ∈ cs, a.IsOperand c n := fun c hc => hcs c (List.mem_cons_of_mem _ hc)
    rw [siblings]
    by_cases hc : c ∈ s.left
    · -- all that lies below the child was left
      rw [if_pos (by simp [passesBy, hrevisits, hc])]
      obtain ⟨reports, hreports⟩ := ih hcs' (i + 1) hs
      refine ⟨reports, hreports.congr fun m hm => ?_⟩
      have hnot : ¬ a.Below m c := fun hbelow => hm (hs m c hbelow hc)
      simp [hnot]
    · rw [if_neg (by simp [passesBy, hc])]
      simp only [hnever, Bool.false_eq_true, if_false]
      have hvisiting := Covers.report (a := a) (r := ⟨n, .visitingChild, some i, parent⟩) rfl s
      obtain ⟨inside, hinside⟩ := hvisit c (hcs c List.mem_cons_self) (s.report ⟨n, .visitingChild, some i, parent⟩)
        hs hc
      have hbelow : ∀ m n, a.Below m n → False ∨ a.Below n c → False ∨ a.Below m c := fun m n hmn =>
        Or.imp_right hmn.trans
      have hchild := hvisiting.append hinside fun _ _ _ => id
      have hvisited := hchild.append (Covers.report (r := ⟨n, .visitedChild, some i, parent⟩) rfl _) hbelow
      obtain ⟨rest, hrest⟩ := ih hcs' (i + 1)
        (hvisited.closed (fun m n hmn => Or.imp_left (hbelow m n hmn)) hs)
      refine ⟨_, (hvisited.append hrest fun m n hmn => Or.imp_left (hbelow m n hmn)).congr fun m _ => ?_⟩
      simp

/-- **Nodes.** The search enters and leaves all that lies below. -/
theorem covers_search (hrevisits : p.revisits = false) (hskips : ∀ shown, p.skips shown = false) (h : a.Acyclic)
    (parent : Option NodeId) (n : NodeId) {s : Progress} (hs : Closed a s.left) (hn : n ∉ s.left) :
    ∃ reports, Covers a (a.Below · n) s reports (p.search h parent n s) := by
  induction n using h.induction generalizing parent s with
  | _ n ih =>
    have hnever : ∀ trace, p.skipsAt trace .enter = false := fun trace => by simp [skipsAt, hskips]
    obtain ⟨inside, hinside⟩ := covers_siblings hrevisits hskips parent
      (fun c hc s hs hleft => ih c hc (some n) hs hleft) (a.operands n) (fun _ hc => hc) 0
      (s := s.report ⟨n, .enter, none, parent⟩) hs
    have hbelow : ∀ m, (∃ c ∈ a.operands n, a.Below m c) → ¬ a.Below n m := by
      rintro m ⟨c, hc, hm⟩ hnm
      exact h.not_below hc (hnm.trans hm)
    rw [search]
    simp only [hnever, Bool.false_eq_true, if_false]
    refine ⟨_, (Covers.node hn hbelow hinside).congr fun m _ => ?_⟩
    exact Arena.below_iff.symm

end Plan

end IntervalDag
