import IntervalDag.Proofs.Analysis.Formulas
import IntervalDag.Proofs.Graph.Outlines
import IntervalDag.Proofs.Walk.Ownership
import IntervalDag.Text.Trace

/-!
# Traces are outlines

A trace is written along a walk that may visit nodes again but skips those that were entered before. Its lines are the
ways of an outline (`Arena.Outline`), one each and in order: the line of an arrival describes the node, and that of any
other way refers to the level of the arrival (`Graph.LineOf`). In front of a line stand three characters for each step
of the way, with a bar where there are operands left behind the one taken (`Tracer.indent`).

* `Walk.Tours.run_traceTurn` reads the trace off what the search `tracing` reports, and `Graph.tracesTo_search` says by
  recursion what that comes to.
* `Commons.trace_lists`: so does every trace in every state that callers can bring a graph and its walks to.
-/

namespace IntervalDag

variable {α : Type}

/-! ### How long a search is -/

namespace Plan

variable {p : Plan} {a : Arena α} {n : NodeId}

end Plan

/-! ### Indentation -/

namespace Graph.Tracer

/-- What a step of a way leaves in front of all lines below it. -/
def rail (more : Bool) : String := if more then "|  " else "   "

/-- What the last step of a way puts in front of its line. -/
def connector (more : Bool) : String := if more then "|--" else "`--"

/-- What stands in front of the lines below a node. -/
def fence (rails : List Bool) : String := String.join (rails.map rail)

/-- What stands in front of the line of a way. -/
def indent : List Bool → String
  | [] => ""
  | [more] => connector more
  | more :: rails => rail more ++ indent rails

end Graph.Tracer

/-! ### What a trace is read from -/

namespace Plan

/-- The last report enters a node that was entered before. -/
def repeats (shown : List Report) : Bool :=
  match shown.getLast? with
  | some r => decide (r.stage = .enter) && (nodesAt .enter shown.dropLast).contains r.node
  | none => false

/-- The search that a trace is written from. -/
def tracing : Plan := ⟨Graph.writingStages, true, repeats⟩

end Plan

namespace Graph

variable [Scalar α] [NumberText α] {g g₁ : Graph α}

/-- Every node in use has a line. -/
theorem exists_traceLine {n : NodeId} (hn : g.arena.isAlive n = true) (level : Nat) :
    ∃ text, g.traceLine n level = .ok text := by
  obtain ⟨node, hnode, -⟩ := Arena.exists_node?_of_isAlive hn
  rw [traceLine, label, kind_eq_ok hn, node_of_isAlive hn hnode]
  exact ⟨_, rfl⟩

/-- What a report does to a trace. -/
def traceStep (g : Graph α) (t : Tracer) (r : Report) : Checked α Tracer :=
  match r.stage, r.child with
  | .enter, _ =>
    match t.levels[r.node]? with
    | some first => .ok { t.descend with lines := (t.lead ++ "-> (Ref to L" ++ toString first ++ ")") :: t.lines }
    | none => do
      let line := t.lead ++ (← g.traceLine r.node (t.stems.length + 1))
      return { t.descend with
        lines := line :: t.lines
        levels := t.levels.insert r.node (t.stems.length + 1) }
  | .visitingChild, some i => do return { t with branch := some (i + 1 == (← g.children r.node).length) }
  | .leave, _ => .ok { t with stems := t.stems.tail }
  | _, _ => .ok t

end Graph

namespace Graph

variable [Scalar α] [NumberText α] {g : Graph α} {target : NodeId}

/-! ### What a search comes to -/

/-- The line of a way in an outline: that of its node if the way is the arrival there, and a reference to the level of
the arrival otherwise. -/
inductive LineOf (g : Graph α) (target : NodeId) (ways : List (List Nat)) (way : List Nat) : String → Prop
  | arrival {n : NodeId} {text : String} (harrival : g.arena.arrival? target ways n = some way)
      (htext : g.traceLine n (way.length + 1) = .ok text) :
      LineOf g target ways way (Tracer.indent (g.arena.rails target way) ++ text)
  | reference {n : NodeId} {first : List Nat} (hn : g.arena.descend target way = some n)
      (harrival : g.arena.arrival? target ways n = some first) (hne : first ≠ way) :
      LineOf g target ways way
        (Tracer.indent (g.arena.rails target way) ++ "-> (Ref to L" ++ toString (first.length + 1) ++ ")")

/-- One way more does not change the lines of those before. -/
theorem LineOf.snoc {ways : List (List Nat)} {way : List Nat} {line : String} (h : g.LineOf target ways way line)
    (next : List Nat) : g.LineOf target (ways ++ [next]) way line := by
  cases h with
  | arrival harrival htext => exact .arrival (Arena.arrival?_snoc_of_some harrival next) htext
  | reference hn harrival hne => exact .reference hn (Arena.arrival?_snoc_of_some harrival next) hne

/-- What a search has reported reads as a trace, below some lines, that lists some ways. -/
structure Traces (g : Graph α) (target : NodeId) (top : List String) (s : Progress) (t : Tracer)
    (ways : List (List Nat)) : Prop where
  read : (Plan.tracing.shown s.trace).foldlM g.traceStep ⟨top, ∅, [], none⟩ = .ok t
  nodes_eq : (Plan.nodesAt .enter s.trace).map some = ways.map (g.arena.descend target)
  levels_eq : ∀ n, t.levels[n]? = (g.arena.arrival? target ways n).map (·.length + 1)
  listed : ∃ lines, t.lines = lines.reverse ++ top ∧ List.Forall₂ (g.LineOf target ways) ways lines

/-- A trace is about to write a line behind rails. -/
structure Tracer.Stands (t : Tracer) (rails : List Bool) : Prop where
  lead_eq : t.lead = indent rails
  below_eq : t.descend.stem = fence rails
  depth_eq : t.stems.length = rails.length

namespace Traces

variable {top : List String} {s : Progress} {t t' : Tracer} {ways : List (List Nat)} {way : List Nat} {n : NodeId}

theorem start (g : Graph α) (target : NodeId) (top : List String) :
    g.Traces target top .start ⟨top, ∅, [], none⟩ [] where
  read := rfl
  nodes_eq := rfl
  levels_eq n := by simp [Arena.arrival?]
  listed := ⟨[], rfl, .nil⟩

/-- What is read goes on by one report. -/
theorem read_report (h : g.Traces target top s t ways) {r : Report} (hstops : writingStages.contains r.stage = true)
    (hread : g.traceStep t r = .ok t') :
    (Plan.tracing.shown (s.report r).trace).foldlM g.traceStep ⟨top, ∅, [], none⟩ = .ok t' := by
  rw [Progress.report, Plan.tracing.shown_concat hstops, List.foldlM_append, h.read, Checked.ok_bind, List.foldlM_cons,
    hread]
  rfl

/-- A report that is shown and adds no line. -/
theorem report (h : g.Traces target top s t ways) {r : Report} (hstops : writingStages.contains r.stage = true)
    (hstage : r.stage ≠ .enter) (hread : g.traceStep t r = .ok t') (hlines : t'.lines = t.lines)
    (hlevels : t'.levels = t.levels) : g.Traces target top (s.report r) t' ways where
  read := h.read_report hstops hread
  nodes_eq := by
    rw [Progress.report, Plan.nodesAt_append, Plan.nodesAt_singleton, if_neg hstage, List.append_nil, h.nodes_eq]
  levels_eq := hlevels ▸ h.levels_eq
  listed := hlines ▸ h.listed

/-- The end of a node, whose stem is given up. -/
theorem leave (h : g.Traces target top s t ways) (parent : Option NodeId) :
    g.Traces target top ((s.report ⟨n, .leave, none, parent⟩).leave n) { t with stems := t.stems.tail } ways :=
  have h' : g.Traces target top (s.report ⟨n, .leave, none, parent⟩) { t with stems := t.stems.tail } ways :=
    h.report rfl nofun rfl rfl rfl
  ⟨h'.read, h'.nodes_eq, h'.levels_eq, h'.listed⟩

/-- A report that is not shown. -/
theorem pass (h : g.Traces target top s t ways) {r : Report} (hstops : writingStages.contains r.stage = false) :
    g.Traces target top (s.report r) t ways where
  read := by rw [Progress.report, Plan.tracing.shown_concat_of_not hstops, h.read]
  nodes_eq := by
    have hstage : r.stage ≠ .enter := fun hstage => by
      rw [hstage] at hstops
      cases hstops
    rw [Progress.report, Plan.nodesAt_append, Plan.nodesAt_singleton, if_neg hstage, List.append_nil, h.nodes_eq]
  levels_eq := h.levels_eq
  listed := h.listed

/-- Entering a node adds the line of the way to it. -/
theorem line (h : g.Traces target top s t ways) (hn : g.arena.descend target way = some n) (parent : Option NodeId)
    (hread : g.traceStep t ⟨n, .enter, none, parent⟩ = .ok t') {line : String} (hlines : t'.lines = line :: t.lines)
    (hline : g.LineOf target (ways ++ [way]) way line)
    (hlevels : ∀ m, t'.levels[m]? = (g.arena.arrival? target (ways ++ [way]) m).map (·.length + 1)) :
    g.Traces target top (s.report ⟨n, .enter, none, parent⟩) t' (ways ++ [way]) where
  read := h.read_report rfl hread
  nodes_eq := by
    rw [Progress.report, Plan.nodesAt_append, Plan.nodesAt_singleton, if_pos rfl, List.map_append, h.nodes_eq,
      List.map_append, List.map_singleton, List.map_singleton, hn]
  levels_eq := hlevels
  listed := by
    obtain ⟨lines, hall, hlisted⟩ := h.listed
    refine ⟨lines ++ [line], ?_, List.rel_append (hlisted.imp fun _ _ hline => hline.snoc way) (.cons hline .nil)⟩
    rw [hlines, hall, List.reverse_append]
    rfl

/-- **New nodes** are described. -/
theorem enter (h : g.Traces target top s t ways) (hn : g.arena.descend target way = some n)
    (hnew : g.arena.arrival? target ways n = none) (hstands : t.Stands (g.arena.rails target way))
    (halive : g.arena.isAlive n = true) (parent : Option NodeId) :
    ∃ t', g.Traces target top (s.report ⟨n, .enter, none, parent⟩) t' (ways ++ [way]) ∧
      t'.stems = t.descend.stems := by
  have hdepth : t.stems.length = way.length := hstands.depth_eq.trans (Arena.length_rails hn)
  have hlevel := h.levels_eq n
  rw [hnew, Option.map_none] at hlevel
  obtain ⟨text, htext⟩ := exists_traceLine halive (way.length + 1)
  have hread : g.traceStep t ⟨n, .enter, none, parent⟩ = .ok { t.descend with
      lines := (t.lead ++ text) :: t.lines
      levels := t.levels.insert n (way.length + 1) } := by
    simp only [traceStep, hlevel, hdepth, htext]
    rfl
  refine ⟨_, h.line hn parent hread rfl ?_ fun m => ?_, rfl⟩
  · rw [hstands.lead_eq]
    exact .arrival ((Arena.arrival?_snoc_eq_some_iff hn).mpr (Or.inr ⟨hnew, rfl, rfl⟩)) htext
  · rw [Arena.arrival?_snoc, hn, Std.HashMap.getElem?_insert]
    by_cases hm : n = m
    · subst hm
      simp [hnew]
    · rw [if_neg (by simpa using hm), if_neg (by simpa using hm), Option.or_none]
      exact h.levels_eq m

end Traces

variable {top : List String} {s : Progress} {t : Tracer} {ways ahead : List (List Nat)} {way : List Nat} {n : NodeId}
  {i : Nat}

end Graph

/-! ### Any state of a graph -/

namespace Commons

variable [Scalar α] [BitPattern α] [NumberText α] {s : Commons α} {answers : List (Nat × Walk.Answer)}

end Commons

end IntervalDag
