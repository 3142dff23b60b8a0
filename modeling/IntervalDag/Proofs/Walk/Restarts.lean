import IntervalDag.Proofs.Matches
import IntervalDag.Proofs.Walk.DepthFirst

/-!
# Walks that are started again

A depth-first walk can be started again at another root. It keeps its tag, so that it knows the nodes that it has left.
A `Diary` is such a walk with a record of what it passes through, also where it does not stop, and comes to the same as
the walk (`Diary.callAll_matches`).

* `Diary.Kept.turn` and `Diary.Kept.meets_call`: a walk goes into no node that it has left, and unless it is started at
  such a node, no node on its way back is one.
* `Commons.leaves_once`: what this comes to for callers of a walk.
-/

namespace IntervalDag

variable {α : Type}

/-! ### Passages -/

/-- What a depth-first walk does to a node. -/
inductive Passage where
  /-- The walk is started at the node. -/
  | begun (n : NodeId)
  /-- The walk goes into the node from an operator that uses it. -/
  | entered (n : NodeId)
  /-- The walk leaves the node. -/
  | left (n : NodeId)
  deriving DecidableEq

namespace Passage

/-- The node that was left. -/
def left? : Passage → Option NodeId
  | left n => some n
  | begun _ | entered _ => none

/-- The nodes that were left. -/
def leftIn (ps : List Passage) : List NodeId := ps.filterMap left?

/-- No passage of a kind is at a node that was left before. -/
def Ceases (kind : NodeId → Passage) (ps : List Passage) : Prop :=
  ps.Pairwise fun p q => ∀ n, p = left n → q ≠ kind n

theorem mem_leftIn {ps : List Passage} {n : NodeId} : n ∈ leftIn ps ↔ left n ∈ ps := by
  rw [leftIn, List.mem_filterMap]
  constructor
  · rintro ⟨p, hp, hn⟩
    cases p with
    | left m => exact Option.some.inj hn ▸ hp
    | begun m => cases hn
    | entered m => cases hn
  · intro hn
    exact ⟨left n, hn, rfl⟩

@[simp] theorem leftIn_append_begun (ps : List Passage) (n : NodeId) : leftIn (ps ++ [begun n]) = leftIn ps := by
  simp [leftIn, left?]

@[simp] theorem leftIn_append_entered (ps : List Passage) (n : NodeId) : leftIn (ps ++ [entered n]) = leftIn ps := by
  simp [leftIn, left?]

@[simp] theorem leftIn_append_left (ps : List Passage) (n : NodeId) : leftIn (ps ++ [left n]) = leftIn ps ++ [n] := by
  simp [leftIn, left?]

/-- One passage more. -/
theorem ceases_append_singleton {kind : NodeId → Passage} {ps : List Passage} {q : Passage} :
    Ceases kind (ps ++ [q]) ↔ Ceases kind ps ∧ ∀ n, q = kind n → n ∉ leftIn ps := by
  rw [Ceases, Ceases, List.pairwise_append]
  refine and_congr_right fun _ => ⟨fun h n hq hn => ?_, fun h => ⟨List.pairwise_singleton _ q, ?_⟩⟩
  · exact h.2 _ (mem_leftIn.mp hn) q (List.mem_singleton_self q) n rfl hq
  · rintro p hp q' hq' n rfl hn
    rw [List.mem_singleton.mp hq'] at hn
    exact h n hn (mem_leftIn.mpr hp)

/-- Where a passage of another kind is put on record, nothing changes for a kind. -/
theorem ceases_append_of_ne {kind : NodeId → Passage} {ps : List Passage} {q : Passage} (hq : ∀ n, q ≠ kind n) :
    Ceases kind (ps ++ [q]) ↔ Ceases kind ps :=
  ceases_append_singleton.trans (and_iff_left fun n hn => absurd hn (hq n))

end Passage

/-- A child that is picked was not left. -/
theorem Plan.exists_of_pick {p : Plan} (hrevisits : p.revisits = false) {left ns : List NodeId} {i j : Nat}
    (hj : p.pick left (ns.drop i) i = j) (hlt : j < ns.length) : ∃ c, ns[j]? = some c ∧ c ∉ left := by
  induction hdrop : ns.drop i generalizing i with
  | nil =>
    rw [hdrop, pick_nil] at hj
    exact absurd (List.drop_eq_nil_iff.mp hdrop) (Nat.not_le_of_lt (hj ▸ hlt))
  | cons c cs ih =>
    rw [hdrop, pick_cons] at hj
    split at hj
    · have hdrop' : ns.drop (i + 1) = cs := by rw [← List.tail_drop, hdrop, List.tail_cons]
      exact ih (i := i + 1) (hdrop' ▸ hj) hdrop'
    · rename_i hpasses
      refine ⟨c, ?_, ?_⟩
      · rw [← hj, ← List.head?_drop, hdrop, List.head?_cons]
      · simpa [passesBy, hrevisits] using hpasses

/-! ### Calls -/

namespace Walk

/-- What a caller asks of a depth-first walk that is under way. -/
inductive Call where
  /-- To go on. -/
  | next
  /-- To skip what is pending. -/
  | skip
  /-- To start again at a root. -/
  | restart (root : NodeId)

/-- Answers a call. -/
def call (w : Walk) (g : Graph α) : Call → Checked α (Walk × Graph α)
  | .next => w.next g
  | .skip => w.skip g
  | .restart root => w.restart g root

/-- Answers calls one after another. -/
def callAll (w : Walk) (g : Graph α) (calls : List Call) : Checked α (Walk × Graph α) :=
  calls.foldlM (fun (w, g) c => w.call g c) (w, g)

end Walk

/-- A depth-first walk over a graph with a record of what it has passed through. -/
structure Diary (α : Type) where
  /-- The walk. -/
  walk : Walk
  /-- The graph. -/
  graph : Graph α
  /-- What the walk has passed through, the latest last. -/
  passages : List Passage

namespace Diary

/-- What a walk passes through in a step, after which it is `w'`. -/
def passed (w w' : Walk) : List Passage :=
  match w.stage with
  | .visitingChild => w'.current.toList.map .entered
  | .leave => w.current.toList.map .left
  | .enter | .visitedChild => []

/-- A turn of the walk, put on record. -/
def turn (d : Diary α) : Checked α (Turn (Diary α) (Diary α)) := do
  match ← Walk.depthFirstTurn (d.walk, d.graph) with
  | .next (w, g) => return .next ⟨w, g, d.passages ++ passed d.walk w⟩
  | .done (w, g) => return .done ⟨w, g, d.passages ++ passed d.walk w⟩

/-- The walk goes on. -/
def next (d : Diary α) : Checked α (Diary α) := Loop.run α (fun d => .ok d.graph.walkExponent) turn d

/-- The walk is taken to another stage, where it stops or goes on from. -/
def moveTo (d : Diary α) (stage : Stage) : Checked α (Diary α) :=
  if stage = .leave ∧ d.walk.stops.contains .leave = true then .ok { d with walk := { d.walk with stage } }
  else next { d with walk := { d.walk with stage } }

/-- What is pending is skipped. -/
def skip (d : Diary α) : Checked α (Diary α) :=
  match d.walk.stage with
  | .enter | .visitedChild => d.moveTo .leave
  | .visitingChild => d.moveTo .visitedChild
  | .leave => .error .skipAtLeave

/-- The walk is started at a root. -/
def restart (d : Diary α) (root : NodeId) : Checked α (Diary α) := do
  let (w, g) ← d.walk.arrive d.graph none root
  let d : Diary α := ⟨w, g, d.passages ++ [.begun root]⟩
  if d.walk.stops.contains .enter then return d else d.next

/-- Answers a call. -/
def call (d : Diary α) : Walk.Call → Checked α (Diary α)
  | .next => d.next
  | .skip => d.skip
  | .restart root => d.restart root

/-- Answers calls one after another. -/
def callAll (d : Diary α) (calls : List Walk.Call) : Checked α (Diary α) := calls.foldlM call d

/-- The diary of a depth-first walk without revisits from its start. -/
def start (w : Walk) (g : Graph α) (root : Option NodeId) : Checked α (Diary α) := do
  let (w, g) ← w.ready g .depthFirst false
  match root with
  | none => return ⟨w, g, []⟩
  | some root => restart ⟨w, g, []⟩ root

/-! ### Nothing but a record -/

/-- The diary is of a depth-first walk that is at a point. -/
def Of (d : Diary α) (r : Walk × Graph α) : Prop := (d.walk, d.graph) = r ∧ d.walk.mode = .depthFirst

section Matches

variable {d : Diary α} {w : Walk} {g : Graph α}

theorem turn_matches {r : Walk × Graph α} (h : d.Of r) :
    Matches (Turn.Matches Of Of) d.turn (Walk.depthFirstTurn r) := by
  obtain ⟨rfl, hmode⟩ := h
  have hmoved := Walk.movesTurn_depthFirstTurn (w := d.walk) (g := d.graph)
  rw [turn]
  rcases hturn : Walk.depthFirstTurn (d.walk, d.graph) with e | ⟨w, g⟩ | ⟨w, g⟩
  · exact rfl
  · rw [hturn] at hmoved
    exact ⟨rfl, (Walk.Moved.mode_eq hmoved).trans hmode⟩
  · rw [hturn] at hmoved
    exact ⟨rfl, (Walk.Moved.mode_eq hmoved).trans hmode⟩

theorem next_matches (h : d.Of (w, g)) : Matches Of d.next (w.next g) := by
  have hmode : w.mode = .depthFirst := by
    obtain ⟨hr, hmode⟩ := h
    cases hr
    exact hmode
  rw [next, Walk.next, hmode]
  refine Matches.run (I := Of) (fun d r hd => ?_) (fun d r hd => turn_matches hd) h
  obtain ⟨rfl, -⟩ := hd
  exact rfl

theorem skip_matches (h : d.Of (w, g)) : Matches Of d.skip (w.skip g) := by
  obtain ⟨hr, hmode⟩ := h
  cases hr
  have hof : ∀ stage, Of { d with walk := { d.walk with stage } } ({ d.walk with stage }, d.graph) := fun _ =>
    ⟨rfl, hmode⟩
  rw [skip, Walk.skip, Walk.requireDepthFirst, if_pos hmode]
  change Matches Of _ (match d.walk.stage with
    | .enter | .visitedChild => _
    | .visitingChild => _
    | .leave => _)
  cases hstage : d.walk.stage with
  | leave => exact rfl
  | visitingChild => exact next_matches (hof .visitedChild)
  | enter | visitedChild =>
    dsimp only [moveTo]
    by_cases hstop : d.walk.stops.contains .leave = true
    · rw [if_pos ⟨rfl, hstop⟩, if_pos hstop]
      exact hof .leave
    · rw [if_neg fun h => hstop h.2, if_neg hstop]
      exact next_matches (hof .leave)

theorem restart_matches (h : d.Of (w, g)) (root : NodeId) : Matches Of (d.restart root) (w.restart g root) := by
  obtain ⟨hr, hmode⟩ := h
  cases hr
  have hmoved : Walk.Moves d.walk d.graph (d.walk.arrive d.graph none root) := Walk.moves_arrive
  rw [restart, Walk.restart, Walk.requireDepthFirst, if_pos hmode]
  change Matches Of _ (d.walk.arrive d.graph none root >>= _)
  rcases harrive : d.walk.arrive d.graph none root with e | ⟨w, g⟩
  · exact rfl
  rw [harrive] at hmoved
  have hof : Of ⟨w, g, d.passages ++ [.begun root]⟩ (w, g) := ⟨rfl, (Walk.Moved.mode_eq hmoved).trans hmode⟩
  rw [Checked.ok_bind, Checked.ok_bind]
  dsimp only
  split
  · exact hof
  · exact next_matches hof

theorem call_matches (h : d.Of (w, g)) (c : Walk.Call) : Matches Of (d.call c) (w.call g c) := by
  cases c with
  | next => exact next_matches h
  | skip => exact skip_matches h
  | restart root => exact restart_matches h root

/-- **A diary changes nothing.** -/
theorem callAll_matches (h : d.Of (w, g)) (calls : List Walk.Call) :
    Matches Of (d.callAll calls) (w.callAll g calls) := by
  induction calls generalizing d w g with
  | nil => exact h
  | cons c calls ih =>
    rw [callAll, Walk.callAll, List.foldlM_cons, List.foldlM_cons]
    exact (call_matches h c).bind fun d r hd => ih hd

theorem start_matches (w : Walk) (g : Graph α) (root : Option NodeId) (hhome : w.home = g.identity) :
    Matches Of (start w g root) (w.start g root .depthFirst false) := by
  have hspec := Walk.ready_spec (w := w) .depthFirst false hhome
  rw [start, Walk.start_eq_ready]
  rcases hready : w.ready g .depthFirst false with e | ⟨w₁, g₁⟩
  · exact rfl
  rw [hready] at hspec
  have hof : Of ⟨w₁, g₁, []⟩ (w₁, g₁) := ⟨rfl, hspec.mode_eq⟩
  rw [Checked.ok_bind, Checked.ok_bind]
  cases root with
  | none => exact hof
  | some root => exact restart_matches hof root

end Matches

/-! ### The way back -/

/-- The nodes on the way back of a walk, the last one first. -/
def Way (a : Arena α) (slot : Nat) (g : Graph α) : List NodeId → Prop
  | [] => True
  | n :: path => n < a.capacity ∧ (g.arena.scratch slot n).parent = path.head? ∧
      (∀ m ∈ path.head?, a.IsOperand n m) ∧ Way a slot g path

variable {a : Arena α} {slot : Nat} {g g' : Graph α} {n c : NodeId} {path : List NodeId}

/-- Slots of other nodes do not matter. -/
theorem Way.congr (h : Way a slot g path)
    (hsame : ∀ m ∈ path, (g'.arena.scratch slot m).parent = (g.arena.scratch slot m).parent) : Way a slot g' path := by
  induction path with
  | nil => trivial
  | cons n path ih =>
    obtain ⟨hn, hparent, hop, hrest⟩ := h
    exact ⟨hn, (hsame n List.mem_cons_self).trans hparent, hop,
      ih hrest fun m hm => hsame m (List.mem_cons_of_mem _ hm)⟩

/-- The way back leads up. -/
theorem Way.below (h : Way a slot g (n :: path)) : ∀ m ∈ path, a.Below n m := by
  induction path generalizing n with
  | nil => exact nofun
  | cons k path ih =>
    obtain ⟨-, -, hop, hrest⟩ := h
    have hnk : a.Below n k := (hop k rfl).below
    intro m hm
    rcases List.mem_cons.mp hm with rfl | hm
    · exact hnk
    · exact hnk.trans (ih hrest m hm)

/-- The operands of a node are not on the way back from it. -/
theorem Way.not_mem_of_isOperand (hacyclic : a.Acyclic) (h : Way a slot g (n :: path)) (hc : a.IsOperand c n) :
    c ∉ n :: path := by
  intro hmem
  refine hacyclic.not_below hc ?_
  rcases List.mem_cons.mp hmem with rfl | hmem
  · exact .refl a c
  · exact h.below c hmem

/-- A way back passes a node once. -/
theorem Way.not_mem (hacyclic : a.Acyclic) (h : Way a slot g (n :: path)) : n ∉ path := by
  obtain ⟨-, -, hop, hrest⟩ := h
  cases path with
  | nil => exact List.not_mem_nil
  | cons k path => exact hrest.not_mem_of_isOperand hacyclic (hop k rfl)

/-! ### What the record shows -/

/-- What is kept along a walk without revisits. -/
structure Kept (p : Plan) (a : Arena α) (slot : Nat) (d : Diary α) : Prop
    extends Walk.Searching p a slot d.walk d.graph (Passage.leftIn d.passages) where
  /-- a node that is entered has just been come to -/
  atEnter : ∀ n, d.walk.current = some n → d.walk.stage = .enter →
    (d.graph.arena.scratch slot n).cursor = 0 ∧
      (d.passages.getLast? = some (.entered n) ∨ d.passages.getLast? = some (.begun n))
  /-- a child that is about to be visited was not left -/
  atChild : ∀ n, d.walk.current = some n → d.walk.stage = .visitingChild →
    ∃ c, (a.operands n)[(d.graph.arena.scratch slot n).cursor]? = some c ∧ c ∉ Passage.leftIn d.passages
  entered : Passage.Ceases .entered d.passages
  /-- nodes on the way back were not left, if starts are at such nodes only -/
  way : ∃ path, d.walk.current = path.head? ∧ Way a slot d.graph path ∧
    (Passage.Ceases .begun d.passages →
      Passage.Ceases .left d.passages ∧ ∀ n ∈ path, n ∉ Passage.leftIn d.passages)

namespace Kept

variable {p : Plan} {d : Diary α} {w' : Walk}

theorem lt_capacity (h : Kept p a slot d) (hn : d.walk.current = some n) : n < a.capacity := by
  obtain ⟨path, hcurrent, hway, -⟩ := h.way
  cases path with
  | nil => exact nomatch hn.symm.trans hcurrent
  | cons m path =>
    obtain rfl : n = m := Option.some.inj (hn.symm.trans hcurrent)
    exact hway.1

/-- Where the walk stands. -/
theorem at_current (h : Kept p a slot d) (hn : d.walk.current = some n) :
    Walk.At p a slot d.walk d.graph (Passage.leftIn d.passages) n d.walk.stage
      (d.graph.arena.scratch slot n).cursor (d.graph.arena.scratch slot n).parent :=
  ⟨h.toSearching, hn, rfl, rfl, rfl⟩

/-- From a stage of a node the walk has gone to its next child, or to leaving the node. -/
theorem selected (h : Kept p a slot d) (hrevisits : p.revisits = false) (hn : d.walk.current = some n) {i j : Nat}
    (hj : p.pick (Passage.leftIn d.passages) ((a.operands n).drop i) i = j)
    (hat : Walk.At p a slot w' g' (Passage.leftIn d.passages) n
      (if j < (a.operands n).length then .visitingChild else .leave) j (d.graph.arena.scratch slot n).parent)
    (hsame : ∀ m, m ≠ n → g'.arena.scratch slot m = d.graph.arena.scratch slot m) :
    Kept p a slot ⟨w', g', d.passages⟩ where
  toSearching := hat.toSearching
  atEnter m _ hstage := by
    rw [hat.stage_eq] at hstage
    split at hstage <;> cases hstage
  atChild m hm hstage := by
    obtain rfl : n = m := Option.some.inj (hat.current_eq.symm.trans hm)
    rw [hat.stage_eq] at hstage
    split at hstage
    · rename_i hlt
      rw [hat.cursor_eq]
      exact Plan.exists_of_pick hrevisits hj hlt
    · cases hstage
  entered := h.entered
  way := by
    obtain ⟨path, hcurrent, hway, hleft⟩ := h.way
    refine ⟨path, ?_, hway.congr fun m _ => ?_, hleft⟩
    · rw [hat.current_eq, ← hn, hcurrent]
    · by_cases hm : m = n
      · rw [hm, hat.parent_eq]
      · rw [hsame m hm]

/-- The walk has gone into a child that was not left. -/
theorem into (h : Kept p a slot d) (hacyclic : a.Acyclic) (hn : d.walk.current = some n) (hc : a.IsOperand c n)
    (hcleft : c ∉ Passage.leftIn d.passages)
    (hat : Walk.At p a slot w' g' (Passage.leftIn d.passages) c .enter 0 (some n)) (hlt : c < a.capacity)
    (hsame : ∀ m, m ≠ c → g'.arena.scratch slot m = d.graph.arena.scratch slot m) :
    Kept p a slot ⟨w', g', d.passages ++ [.entered c]⟩ where
  toSearching := by
    rw [Passage.leftIn_append_entered]
    exact hat.toSearching
  atEnter m hm _ := by
    obtain rfl : c = m := Option.some.inj (hat.current_eq.symm.trans hm)
    exact ⟨hat.cursor_eq, Or.inl List.getLast?_concat⟩
  atChild m _ hstage := by
    rw [hat.stage_eq] at hstage
    cases hstage
  entered := by
    refine Passage.ceases_append_singleton.mpr ⟨h.entered, fun m hm => ?_⟩
    cases hm
    exact hcleft
  way := by
    obtain ⟨path, hcurrent, hway, hleft⟩ := h.way
    cases path with
    | nil => exact nomatch hn.symm.trans hcurrent
    | cons m path =>
      obtain rfl : n = m := Option.some.inj (hn.symm.trans hcurrent)
      -- the child is not on the way back, so the slots there are as they were
      have hnew := hway.not_mem_of_isOperand hacyclic hc
      refine ⟨c :: n :: path, hat.current_eq, ⟨hlt, hat.parent_eq, ?_, hway.congr fun m hm => ?_⟩, fun hbegun => ?_⟩
      · rintro m hm
        cases hm
        exact hc
      · rw [hsame m fun hmc => hnew (hmc ▸ hm)]
      · obtain ⟨honce, hpath⟩ := hleft ((Passage.ceases_append_of_ne (by simp)).mp hbegun)
        refine ⟨(Passage.ceases_append_of_ne (by simp)).mpr honce, ?_⟩
        rw [Passage.leftIn_append_entered]
        exact List.forall_mem_cons.mpr ⟨hcleft, hpath⟩

/-- The walk has left a node and gone back. -/
theorem outOf (h : Kept p a slot d) (hacyclic : a.Acyclic) (hn : d.walk.current = some n)
    (hsearching : Walk.Searching p a slot w' g' (n :: Passage.leftIn d.passages))
    (hcurrent' : w'.current = (d.graph.arena.scratch slot n).parent) (hstage : w'.stage = .visitedChild)
    (hsame : ∀ m, m ≠ n → g'.arena.scratch slot m = d.graph.arena.scratch slot m) :
    Kept p a slot ⟨w', g', d.passages ++ [.left n]⟩ where
  toSearching := by
    refine ⟨hsearching.mode_eq, hsearching.slot_eq, hsearching.revisits_eq, hsearching.children, fun htag m => ?_⟩
    rw [hsearching.left_iff htag, Passage.leftIn_append_left, List.mem_cons, List.mem_append, List.mem_singleton,
      or_comm]
  atEnter m _ henter := nomatch hstage.symm.trans henter
  atChild m _ hchild := nomatch hstage.symm.trans hchild
  entered := (Passage.ceases_append_of_ne (by simp)).mpr h.entered
  way := by
    obtain ⟨path, hcurrent, hway, hleft⟩ := h.way
    cases path with
    | nil => exact nomatch hn.symm.trans hcurrent
    | cons m path =>
      obtain rfl : n = m := Option.some.inj (hn.symm.trans hcurrent)
      have hnew := hway.not_mem hacyclic
      obtain ⟨-, hparent, -, hrest⟩ := hway
      refine ⟨path, hcurrent'.trans hparent, hrest.congr fun m hm => ?_, fun hbegun => ?_⟩
      · rw [hsame m fun hmn => hnew (hmn ▸ hm)]
      · obtain ⟨honce, hpath⟩ := hleft ((Passage.ceases_append_of_ne (by simp)).mp hbegun)
        obtain ⟨hnleft, hpath⟩ := List.forall_mem_cons.mp hpath
        refine ⟨Passage.ceases_append_singleton.mpr ⟨honce, fun m hm => ?_⟩, fun m hm => ?_⟩
        · cases hm
          exact hnleft
        · rw [Passage.leftIn_append_left, List.mem_append, List.mem_singleton, not_or]
          exact ⟨hpath m hm, fun hmn => hnew (hmn ▸ hm)⟩

/-- **A step.** -/
theorem step (hrevisits : p.revisits = false) (hacyclic : a.Acyclic) (hinside : a.OperandsInside)
    (h : Kept p a slot d) (hn : d.walk.current = some n)
    (hstep : d.walk.depthFirstStep d.graph n = .ok (w', g')) :
    Kept p a slot ⟨w', g', d.passages ++ passed d.walk w'⟩ := by
  have hlt := h.lt_capacity hn
  have hat := h.at_current hn
  cases hstage : d.walk.stage with
  | enter =>
    rw [hstage, (h.atEnter n hn hstage).1] at hat
    obtain ⟨w₁, g₁, hrun, hat₁, hsame⟩ := hat.step_enter hinside hlt rfl
    cases hrun.symm.trans hstep
    rw [passed, hstage, List.append_nil]
    exact h.selected hrevisits hn (i := 0) rfl hat₁ hsame
  | visitedChild =>
    rw [hstage] at hat
    obtain ⟨w₁, g₁, hrun, hat₁, hsame⟩ := hat.step_visitedChild hinside hlt rfl
    cases hrun.symm.trans hstep
    rw [passed, hstage, List.append_nil]
    exact h.selected hrevisits hn rfl hat₁ hsame
  | visitingChild =>
    rw [hstage] at hat
    obtain ⟨c, hc, hcleft⟩ := h.atChild n hn hstage
    obtain ⟨w₁, g₁, hrun, hat₁, hsame⟩ := hat.step_visitingChild hinside hlt hc
    cases hrun.symm.trans hstep
    rw [passed, hstage, hat₁.current_eq]
    exact h.into hacyclic hn (List.mem_of_getElem? hc) hcleft hat₁ (hinside c n (List.mem_of_getElem? hc)) hsame
  | leave =>
    rw [hstage] at hat
    obtain ⟨w₁, g₁, hrun, hsearching, hcurrent, hstage₁, hsame⟩ := hat.step_leave hlt
    cases hrun.symm.trans hstep
    rw [passed, hstage, hn]
    exact h.outOf hacyclic hn hsearching hcurrent hstage₁ hsame

/-- The walk is taken to a stage from which it goes to the next child or leaves the node. -/
theorem stand (h : Kept p a slot d) {stage : Stage} (hstage : stage = .leave ∨ stage = .visitedChild) :
    Kept p a slot { d with walk := { d.walk with stage } } where
  toSearching := h.toSearching.stand d.walk.current stage
  atEnter _ _ henter := by
    rcases hstage with rfl | rfl
    · cases henter
    · cases henter
  atChild _ _ hchild := by
    rcases hstage with rfl | rfl
    · cases hchild
    · cases hchild
  entered := h.entered
  way := h.way

/-- The walk has been started at a root. -/
theorem begun (h : Kept p a slot d) {root : NodeId} (hroot : root < a.capacity)
    (hat : Walk.At p a slot w' g' (Passage.leftIn d.passages) root .enter 0 none) :
    Kept p a slot ⟨w', g', d.passages ++ [.begun root]⟩ where
  toSearching := by
    rw [Passage.leftIn_append_begun]
    exact hat.toSearching
  atEnter m hm _ := by
    obtain rfl : root = m := Option.some.inj (hat.current_eq.symm.trans hm)
    exact ⟨hat.cursor_eq, Or.inr List.getLast?_concat⟩
  atChild m _ hstage := by
    rw [hat.stage_eq] at hstage
    cases hstage
  entered := (Passage.ceases_append_of_ne (by simp)).mpr h.entered
  way := by
    obtain ⟨_, -, -, hleft⟩ := h.way
    refine ⟨[root], hat.current_eq, ⟨hroot, hat.parent_eq, nofun, trivial⟩, fun hbegun => ?_⟩
    obtain ⟨hbegun, hfresh⟩ := Passage.ceases_append_singleton.mp hbegun
    refine ⟨(Passage.ceases_append_of_ne (by simp)).mpr (hleft hbegun).1, fun m hm => ?_⟩
    rw [Passage.leftIn_append_begun, List.mem_singleton.mp hm]
    exact hfresh root rfl

section Calls

variable (hrevisits : p.revisits = false) (hacyclic : a.Acyclic) (hinside : a.OperandsInside)

include hrevisits hacyclic hinside

/-- **Turns.** -/
theorem meets_turn (h : Kept p a slot d) :
    Meets d.turn () (fun _ => True) (Turn.Allowed (fun d' _ => Kept p a slot d') fun d' _ => Kept p a slot d') := by
  rw [turn]
  rcases hcurrent : d.walk.current with _ | n
  · -- a walk that has ended passes through nothing
    have hturn : Walk.depthFirstTurn (d.walk, d.graph) = .ok (.done (d.walk, d.graph)) := by
      simp only [Walk.depthFirstTurn, hcurrent]
    have hnone : passed d.walk d.walk = [] := by
      rw [passed, hcurrent]
      cases d.walk.stage <;> rfl
    rw [hturn, Checked.ok_bind]
    dsimp only
    rw [hnone, List.append_nil]
    exact meets_pure.mpr h
  · rcases hstep : d.walk.depthFirstStep d.graph n with e | ⟨w₁, g₁⟩
    · have hturn : Walk.depthFirstTurn (d.walk, d.graph) = .error e := by
        simp only [Walk.depthFirstTurn, hcurrent, hstep]
        rfl
      rw [hturn]
      trivial
    · have hkept := h.step hrevisits hacyclic hinside hcurrent hstep
      rw [Walk.depthFirstTurn_eq hcurrent hstep, Checked.ok_bind]
      split_ifs
      · exact meets_pure.mpr hkept
      · exact meets_pure.mpr hkept

theorem meets_next (h : Kept p a slot d) : Meets d.next () (fun _ => True) fun d' _ => Kept p a slot d' :=
  meets_run_of_diverged (I := fun d' _ => Kept p a slot d') trivial (fun _ _ _ => meets_pure.mpr rfl)
    (fun _ _ h => h.meets_turn hrevisits hacyclic hinside) h

theorem meets_moveTo (h : Kept p a slot d) {stage : Stage} (hstage : stage = .leave ∨ stage = .visitedChild) :
    Meets (d.moveTo stage) () (fun _ => True) fun d' _ => Kept p a slot d' := by
  rw [moveTo]
  split
  · exact meets_pure.mpr (h.stand hstage)
  · exact (h.stand hstage).meets_next hrevisits hacyclic hinside

theorem meets_restart (h : Kept p a slot d) (root : NodeId) :
    Meets (d.restart root) () (fun _ => True) fun d' _ => Kept p a slot d' := by
  rw [restart]
  by_cases hroot : root < a.capacity
  · obtain ⟨w₁, g₁, harrive, hat, -⟩ := h.toSearching.exists_arrive hroot
    rw [harrive, Checked.ok_bind]
    have hbegun := h.begun hroot hat
    dsimp only
    split
    · exact meets_pure.mpr hbegun
    · exact hbegun.meets_next hrevisits hacyclic hinside
  · have hfault := Walk.modifySlot_eq_error h.slot_eq (h.toSearching.capacity_eq ▸ hroot)
      fun slot => { slot with cursor := 0, parent := none }
    rw [Walk.arrive, hfault]
    trivial

/-- **Calls.** -/
theorem meets_call (h : Kept p a slot d) (c : Walk.Call) :
    Meets (d.call c) () (fun _ => True) fun d' _ => Kept p a slot d' := by
  cases c with
  | next => exact h.meets_next hrevisits hacyclic hinside
  | restart root => exact h.meets_restart hrevisits hacyclic hinside root
  | skip =>
    rw [call, skip]
    split
    · exact h.meets_moveTo hrevisits hacyclic hinside (Or.inl rfl)
    · exact h.meets_moveTo hrevisits hacyclic hinside (Or.inl rfl)
    · exact h.meets_moveTo hrevisits hacyclic hinside (Or.inr rfl)
    · trivial

/-- **Runs of calls.** -/
theorem of_callAll (h : Kept p a slot d) {calls : List Walk.Call} {d' : Diary α} (hrun : d.callAll calls = .ok d') :
    Kept p a slot d' := by
  refine Run.invariant (fun h _ hcall => ?_) h (.of_true d calls) hrun
  exact (h.meets_call hrevisits hacyclic hinside _).of_observe (r := (_, ())) (by rw [hcall]; rfl)

end Calls

/-- A walk that was started has a diary that begins there. -/
theorem of_start {w : Walk} {root : Option NodeId} (hrevisits : p.revisits = false) (htags : g.TagsGiven)
    (hacyclic : g.arena.Acyclic) (hinside : g.arena.OperandsInside) (hhome : w.home = g.identity)
    (hrun : start w g root = .ok d) : ∃ slot, Kept p g.arena slot d := by
  obtain ⟨⟨w₁, g₁⟩, hready, hrun⟩ := Checked.bind_eq_ok.mp hrun
  have hspec : Walk.Readied w g .depthFirst p.revisits w₁ g₁ := by
    have hspec := Walk.ready_spec (w := w) .depthFirst false hhome
    rw [hready] at hspec
    exact hrevisits ▸ hspec
  obtain ⟨slot, hsearching⟩ := hspec.searching htags
  have hnone : w₁.current = none := by rw [hspec.rest_eq]
  have hkept : Kept p g.arena slot ⟨w₁, g₁, []⟩ := by
    refine ⟨hsearching, fun n hn => ?_, fun n hn => ?_, .nil, [], hnone, trivial, fun _ => ⟨.nil, nofun⟩⟩
    · exact nomatch hn.symm.trans hnone
    · exact nomatch hn.symm.trans hnone
  refine ⟨slot, ?_⟩
  cases root with
  | none =>
    cases hrun
    exact hkept
  | some root =>
    have hrun : restart ⟨w₁, g₁, []⟩ root = .ok d := hrun
    exact (hkept.meets_restart hrevisits hacyclic hinside root).of_observe (r := (d, ())) (by rw [hrun]; rfl)

end Kept

end Diary

/-! ### Any state of a graph -/

namespace Commons

variable [Scalar α] [BitPattern α] [NumberText α]

/-- **Walks that are started again.** Take any state that a workspace and its walks can be brought to by callers who
keep to the rules, and a depth-first walk without revisits that is started there, with any stages selected, and then
goes on, skips and is started again in any order. Its diary tells what it passes through from then on, and otherwise
comes to the same. A walk that stands where it enters a node has just come there. It never goes into a node that it has
left, so that such a node is entered again only where the walk is started at it. If that is not done, no node is left
twice. -/
theorem leaves_once (settings : Settings α) (identity : Nat) (store : BoundTable α) {cs : List (Command α)}
    {s : Commons α} {answers : List (Nat × Walk.Answer)} (hcs : (new settings identity store).PermitsAll cs)
    (hrun : (new settings identity store).serveAll cs = .ok (s, answers)) (i : Nat) (stops : StageSet)
    (root : Option NodeId) (calls : List Walk.Call) :
    let w : Walk := { s.walks i with stops }
    let diary := Diary.start w s.graph root >>= fun d => d.callAll calls
    (fun d => (d.walk, d.graph)) <$> diary =
      (w.start s.graph root .depthFirst false >>= fun (w, g) => w.callAll g calls) ∧
    ∀ d, diary = .ok d →
      (∀ n, d.walk.current = some n → d.walk.stage = .enter →
        d.passages.getLast? = some (.entered n) ∨ d.passages.getLast? = some (.begun n)) ∧
      Passage.Ceases .entered d.passages ∧
      (Passage.Ceases .begun d.passages → Passage.Ceases .left d.passages) := by
  intro w diary
  have horderly : s.Orderly := orderly_of_serveAll (orderly_new settings identity store) hrun
  have hsound := sound_of_serveAll (orderly_new settings identity store) (.empty settings identity) hcs hrun
  have hinside := horderly.ordered.intact.operandsInside
  have hhome : w.home = s.graph.identity := horderly.home i
  refine ⟨Matches.map_eq ?_, fun d hd => ?_⟩
  · exact ((Diary.start_matches w s.graph root hhome).bind fun d r hd => Diary.callAll_matches hd calls).imp
      fun d r (h : d.Of r) => h.1
  · obtain ⟨d₀, hstart, hcalls⟩ := Checked.bind_eq_ok.mp hd
    obtain ⟨slot, hkept⟩ := Diary.Kept.of_start (p := ⟨stops, false, fun _ => false⟩) rfl horderly.ordered.tagsGiven
      hsound.acyclic hinside hhome hstart
    have hkept := hkept.of_callAll rfl hsound.acyclic hinside hcalls
    obtain ⟨_, -, -, hleft⟩ := hkept.way
    exact ⟨fun n hn hstage => (hkept.atEnter n hn hstage).2, hkept.entered, fun hbegun => (hleft hbegun).1⟩

/-- A number with two operators over it. The walk goes through one of them and the number, and is then started at the
other one. -/
theorem leaves_once_of_number :
    let cs : List (Command Float) :=
      [.work (.request (.value 1)), .work (.request (.apply .exp 0 rfl)), .work (.request (.apply .sin 0 rfl))]
    (new default 0 (.ofList [])).PermitsAll cs ∧
    ∃ s answers d, (new default 0 (.ofList [])).serveAll cs = .ok (s, answers) ∧
      (Diary.start { s.walks 0 with stops := .all } s.graph (some 1) >>= fun d =>
        d.callAll [.next, .next, .next, .next, .next, .next, .restart 2, .next, .next]) = .ok d ∧
      d.passages = [.begun 1, .entered 0, .left 0, .left 1, .begun 2, .left 2] ∧
      Passage.Ceases .entered d.passages ∧ Passage.Ceases .begun d.passages ∧ Passage.Ceases .left d.passages := by
  intro cs
  have hcs : (new default 0 (.ofList [])).PermitsAll cs := by decide +kernel
  have hread : ((new default 0 (.ofList [])).serveAll cs).toOption.map (fun r =>
      (Diary.start { r.1.walks 0 with stops := .all } r.1.graph (some 1) >>= fun d =>
        d.callAll [.next, .next, .next, .next, .next, .next, .restart 2, .next, .next]).toOption.map Diary.passages) =
      some (some [.begun 1, .entered 0, .left 0, .left 1, .begun 2, .left 2]) := by decide +kernel
  obtain ⟨⟨s, answers⟩, hrun, hread⟩ := Checked.exists_ok_of_toOption hread
  obtain ⟨d, hd, hpassages⟩ := Checked.exists_ok_of_toOption hread
  obtain ⟨-, hkept⟩ := leaves_once default 0 (.ofList []) hcs hrun 0 .all (some 1)
    [.next, .next, .next, .next, .next, .next, .restart 2, .next, .next]
  obtain ⟨-, hentered, hleft⟩ := hkept d hd
  have hbegun : Passage.Ceases .begun d.passages := by
    rw [hpassages]
    simp [Passage.Ceases]
  exact ⟨hcs, s, answers, d, hrun, hd, hpassages, hentered, hbegun, hleft hbegun⟩

/-- A walk that is started again at a node that it has left stands there once more, and leaves it once more. -/
theorem not_forall_leaves_once : ¬ ∀ (cs : List (Command Float)) (s : Commons Float)
    (answers : List (Nat × Walk.Answer)), (new default 0 (.ofList [])).PermitsAll cs →
      (new default 0 (.ofList [])).serveAll cs = .ok (s, answers) → ∀ i stops root calls d,
        (Diary.start { s.walks i with stops } s.graph root >>= fun d => d.callAll calls) = .ok d →
        Passage.Ceases .entered d.passages ∧ Passage.Ceases .begun d.passages ∧ Passage.Ceases .left d.passages := by
  intro hall
  have hcs : (new default 0 (.ofList [])).PermitsAll [.work (.request (.value (1 : Float)))] := by decide +kernel
  have hread : ((new default 0 (.ofList [])).serveAll [.work (.request (.value (1 : Float)))]).toOption.map (fun r =>
      (Diary.start { r.1.walks 0 with stops := .all } r.1.graph (some 0) >>= fun d =>
        d.callAll [.next, .next, .restart 0, .next, .next]).toOption.map Diary.passages) =
      some (some [.begun 0, .left 0, .begun 0, .left 0]) := by decide +kernel
  obtain ⟨⟨s, answers⟩, hrun, hread⟩ := Checked.exists_ok_of_toOption hread
  obtain ⟨d, hd, hpassages⟩ := Checked.exists_ok_of_toOption hread
  obtain ⟨-, -, hleft⟩ := hall _ s answers hcs hrun 0 .all (some 0) _ d hd
  rw [hpassages] at hleft
  simp [Passage.Ceases] at hleft

end Commons

end IntervalDag
