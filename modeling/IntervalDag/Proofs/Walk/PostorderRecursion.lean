import IntervalDag.Proofs.Walk.Postorder
import IntervalDag.Proofs.Walk.Memory

/-!
# Reverse topological walks by recursion

`Arena.Acyclic.postorder` says in which order a reverse topological walk visits nodes: operands from left to right, and
then the node itself. Without revisits it passes by operands that were visited. With revisits it goes through the whole
tree that the root unfolds to (`Arena.Acyclic.postorder_eq_append_unfolded`).

The walk has a stack instead. `Arena.Acyclic.remaining` reads off a stack what the recursion has yet to visit, and no
turn of the walk changes that (`Walk.Descending.turn`). So the walk shows what the recursion visits
(`Walk.exists_shows_postorder`), whatever was done with the graph before
(`Commons.reverseTopological_eq_postorder`).
-/

namespace IntervalDag

variable {α : Type}

/-! ### The recursion -/

namespace Arena.Acyclic

/-- The nodes visited once a node was, after others: first its operands, from left to right, and then the node. Without
revisits, operands that were visited are passed by. -/
def postorder {a : Arena α} (h : a.Acyclic) (revisits : Bool) (n : NodeId) (visited : List NodeId) : List NodeId :=
  (a.operands n).attach.foldl (fun visited c =>
    if !revisits && visited.contains c.1 then visited else h.postorder revisits c.1 visited) visited ++ [n]
termination_by h.wrap n
decreasing_by exact c.2

/-- The nodes visited once operands were. -/
def postorderAll {a : Arena α} (h : a.Acyclic) (revisits : Bool) (cs visited : List NodeId) : List NodeId :=
  cs.foldl (fun visited c => if !revisits && visited.contains c then visited else h.postorder revisits c visited) visited

/-- The tree that a node unfolds to, each node after what is below it. -/
def unfolded {a : Arena α} (h : a.Acyclic) (n : NodeId) : List NodeId :=
  (a.operands n).attach.flatMap (fun c => h.unfolded c.1) ++ [n]
termination_by h.wrap n
decreasing_by exact c.2

variable {a : Arena α} (h : a.Acyclic) (revisits : Bool)

theorem postorder_eq (n : NodeId) (visited : List NodeId) :
    h.postorder revisits n visited = h.postorderAll revisits (a.operands n) visited ++ [n] := by
  have hall := List.foldl_attach (l := a.operands n) (b := visited)
    (f := fun visited c => if !revisits && visited.contains c then visited else h.postorder revisits c visited)
  rw [postorder, hall]
  rfl

@[simp] theorem postorderAll_nil (visited : List NodeId) : h.postorderAll revisits [] visited = visited := rfl

@[simp] theorem postorderAll_cons (c : NodeId) (cs visited : List NodeId) :
    h.postorderAll revisits (c :: cs) visited = h.postorderAll revisits cs
      (if !revisits && visited.contains c then visited else h.postorder revisits c visited) := rfl

theorem unfolded_eq (n : NodeId) : h.unfolded n = (a.operands n).flatMap h.unfolded ++ [n] := by
  rw [unfolded, ← List.flatMap_map Subtype.val h.unfolded, List.attach_map_subtype_val]

/-- **With revisits** the recursion goes through the tree that the node unfolds to. -/
theorem postorder_eq_append_unfolded (n : NodeId) (visited : List NodeId) :
    h.postorder true n visited = visited ++ h.unfolded n := by
  induction n using h.induction generalizing visited with
  | _ n ih =>
    have hall : ∀ (cs : List NodeId), (∀ c ∈ cs, a.IsOperand c n) → ∀ visited,
        h.postorderAll true cs visited = visited ++ cs.flatMap h.unfolded := by
      intro cs hcs
      induction cs with
      | nil => simp
      | cons c cs ihcs =>
        intro visited
        rw [postorderAll_cons, if_neg (by simp), ih c (hcs c List.mem_cons_self),
          ihcs fun d hd => hcs d (List.mem_cons_of_mem _ hd), List.flatMap_cons, List.append_assoc]
    rw [postorder_eq, hall _ fun _ hc => hc, unfolded_eq, List.append_assoc]

theorem prefix_postorderAll_of {cs : List NodeId}
    (hcs : ∀ c ∈ cs, ∀ visited, visited <+: h.postorder revisits c visited) (visited : List NodeId) :
    visited <+: h.postorderAll revisits cs visited := by
  induction cs generalizing visited with
  | nil => exact List.prefix_refl visited
  | cons c cs ih =>
    rw [postorderAll_cons]
    refine List.IsPrefix.trans ?_ (ih (fun d hd => hcs d (List.mem_cons_of_mem _ hd)) _)
    split
    · exact List.prefix_refl visited
    · exact hcs c List.mem_cons_self visited

/-- What was visited before stays in front. -/
theorem prefix_postorder (n : NodeId) (visited : List NodeId) : visited <+: h.postorder revisits n visited := by
  induction n using h.induction generalizing visited with
  | _ n ih =>
    rw [postorder_eq]
    exact (h.prefix_postorderAll_of revisits ih visited).trans (List.prefix_append _ _)

/-! ### As depth-first search -/

/-- **Depth-first search** leaves nodes in this order. -/
theorem left_search {p : Plan} (hskips : ∀ shown, p.skips shown = false) (parent : Option NodeId) (n : NodeId)
    (s : Progress) : (p.search h parent n s).left.reverse = h.postorder p.revisits n s.left.reverse := by
  have hnever : ∀ trace stage, p.skipsAt trace stage = false := fun trace stage => by simp [Plan.skipsAt, hskips]
  induction n using h.induction generalizing parent s with
  | _ n ih =>
    have hall : ∀ (cs : List NodeId) (hcs : ∀ c ∈ cs, a.IsOperand c n) (i : Nat) (s : Progress),
        (p.siblings parent n (fun c _ s => p.search h (some n) c s) cs hcs i s).left.reverse =
          h.postorderAll p.revisits cs s.left.reverse := by
      intro cs hcs
      induction cs with
      | nil => exact fun _ _ => rfl
      | cons c cs ihcs =>
        intro i s
        have hrest := ihcs (fun d hd => hcs d (List.mem_cons_of_mem _ hd)) (i + 1)
        rw [Plan.siblings, postorderAll_cons, List.contains_reverse]
        simp only [hnever, Bool.false_eq_true, if_false]
        change _ = h.postorderAll p.revisits cs (if p.passesBy s.left c = true then _ else _)
        by_cases hpasses : p.passesBy s.left c = true
        · rw [if_pos hpasses, if_pos hpasses]
          exact hrest s
        · rw [if_neg hpasses, if_neg hpasses, hrest]
          exact congrArg _ (ih c (hcs c List.mem_cons_self) (some n) _)
    rw [Plan.search, postorder_eq]
    simp only [hnever, Bool.false_eq_true, if_false, Progress.leave, Progress.report, List.reverse_cons]
    exact congrArg (· ++ [n]) (hall _ _ _ _)

/-- **Without revisits** the recursion visits each node at or below the first one once, none before one that lies below
it, and the first one last. -/
theorem postorder_spec (n : NodeId) :
    (h.postorder false n []).Nodup ∧ (∀ m, m ∈ h.postorder false n [] ↔ a.Below m n) ∧
      ((h.postorder false n []).Pairwise fun m m' => ¬ a.Below m' m) ∧ (h.postorder false n []).getLast? = some n := by
  let p : Plan := ⟨.all, false, fun _ => false⟩
  have hpending : Pending a.operands (· ∈ Progress.start.left) n n [] := .root
  obtain ⟨reports, hretires, -⟩ := Plan.retires_search (p := p) rfl (fun _ => rfl) h none n List.not_mem_nil hpending
  obtain ⟨reports', hcovers⟩ := Plan.covers_search (p := p) rfl (fun _ => rfl) h none n (s := .start) nofun nofun
  obtain rfl : reports = reports' := List.append_cancel_left (hretires.trace_eq.symm.trans hcovers.trace_eq)
  have hleft : h.postorder false n [] = Plan.nodesAt .leave reports := by
    have := h.left_search (p := p) (fun _ => rfl) none n .start
    rw [hretires.left_eq, List.reverse_append, List.reverse_reverse] at this
    exact this.symm
  refine ⟨hleft ▸ hcovers.nodup .leave rfl, fun m => ?_, hleft ▸ hcovers.ordered, ?_⟩
  · rw [hleft, hcovers.mem_iff .leave rfl m]
    exact and_iff_left List.not_mem_nil
  · rw [postorder_eq, List.getLast?_concat]

/-! ### With a stack -/

/-- The nodes visited once everything on a stack was. -/
def remaining {a : Arena α} (h : a.Acyclic) (revisits : Bool) : List (NodeId × Nat) → List NodeId → List NodeId
  | [], visited => visited
  | (n, c) :: rest, visited => h.remaining revisits rest (h.postorderAll revisits ((a.operands n).drop c) visited ++ [n])

theorem prefix_remaining (stack : List (NodeId × Nat)) (visited : List NodeId) :
    visited <+: h.remaining revisits stack visited := by
  induction stack generalizing visited with
  | nil => exact List.prefix_refl visited
  | cons e stack ih =>
    refine List.IsPrefix.trans ?_ (ih _)
    exact (h.prefix_postorderAll_of revisits (fun c _ => h.prefix_postorder revisits c) visited).trans
      (List.prefix_append _ _)

end Arena.Acyclic

namespace Walk

/-- A bound on the turns that a stack leads to. -/
noncomputable def stackWeight (a : Arena α) (stack : List (NodeId × Nat)) : Nat :=
  (stack.map fun e => 1 + 2 * (((a.operands e.1).drop e.2).map a.weight).sum).sum

section StackWeight

variable {a : Arena α} {n d : NodeId} {c : Nat} {rest : List (NodeId × Nat)}

theorem stackWeight_cons (e : NodeId × Nat) (rest : List (NodeId × Nat)) :
    stackWeight a (e :: rest) = 1 + 2 * (((a.operands e.1).drop e.2).map a.weight).sum + stackWeight a rest := by
  rw [stackWeight, List.map_cons, List.sum_cons]
  rfl

/-- An operand that is considered is paid for by its weight. -/
theorem stackWeight_next (hd : (a.operands n)[c]? = some d) :
    stackWeight a ((n, c) :: rest) = 2 * a.weight d + stackWeight a ((n, c + 1) :: rest) := by
  obtain ⟨hc, hd⟩ := List.getElem?_eq_some_iff.mp hd
  simp only [stackWeight_cons, List.drop_eq_getElem_cons hc, hd, List.map_cons, List.sum_cons]
  omega

/-- A node weighs more than its own turns. -/
theorem stackWeight_push (hacyclic : a.Acyclic) (d : NodeId) (rest : List (NodeId × Nat)) :
    stackWeight a ((d, 0) :: rest) < 2 * a.weight d + stackWeight a rest := by
  have hweight := Arena.sum_weight_operands_lt (hacyclic.apply d)
  simp only [stackWeight_cons, List.drop_zero]
  omega

end StackWeight

/-- A reverse topological walk has visited some nodes. Its stack leads down to the node that is worked off, through
nodes not visited yet. -/
structure Descending (a : Arena α) (root : NodeId) (revisits : Bool) (w : Walk) (g : Graph α) (visited : List NodeId) :
    Prop extends Remembers revisits a w g visited where
  mode_eq : w.mode = .reverseTopological
  stacked : Stacked a.operands (fun _ => True) root w.stack
  fresh : revisits = false → ∀ e ∈ w.stack, e.1 ∉ visited
  weight_le : stackWeight a w.stack ≤ 2 * 2 ^ a.edgeCount

namespace Descending

variable {a : Arena α} {root : NodeId} {revisits : Bool} {w : Walk} {g : Graph α} {visited : List NodeId}

theorem of_stack (h : Descending a root revisits w g visited) {stack : List (NodeId × Nat)}
    (hstacked : Stacked a.operands (fun _ => True) root stack)
    (hfresh : revisits = false → ∀ e ∈ stack, e.1 ∉ visited)
    (hlt : stackWeight a stack < stackWeight a w.stack) :
    Descending a root revisits { w with stack } g visited :=
  ⟨h.stand w.current stack w.queue, h.mode_eq, hstacked, hfresh, (Nat.le_of_lt hlt).trans h.weight_le⟩

variable (hacyclic : a.Acyclic) (hbelow : ∀ n, a.Below n root → n < a.capacity) {n d : NodeId} {c : Nat}
  {rest : List (NodeId × Nat)}

include hacyclic hbelow

/-- When no operand is left, the walk arrives at the innermost node, which it has not visited. -/
theorem turn_leave (h : Descending a root revisits w g visited) (hstack : w.stack = (n, c) :: rest)
    (hd : (a.operands n)[c]? = none) :
    ∃ g', reverseTurn (w, g) = .ok (.done ({ w with stack := rest, current := some n }, g')) ∧
      Descending a root revisits { w with stack := rest, current := some n } g' (visited ++ [n]) ∧
      hacyclic.remaining revisits rest (visited ++ [n]) = hacyclic.remaining revisits w.stack visited := by
  have hs := h.stacked
  have hfresh := h.fresh
  rw [hstack] at hs hfresh
  have hn : n < a.capacity := hbelow n hs.1.below_root
  have hremembers : Remembers revisits a { w with stack := rest } g visited := h.stand w.current rest w.queue
  have hvisited : ({ w with stack := rest } : Walk).isVisited g n = .ok false := by
    rw [hremembers.isVisited_eq hn]
    cases hrevisits : revisits with
    | true => rfl
    | false => simpa using hfresh hrevisits (n, c) List.mem_cons_self
  obtain ⟨g', hmark, hremembers'⟩ := hremembers.exists_markVisited hn
  refine ⟨g', ?_, ⟨hremembers'.stand (some n) rest w.queue, h.mode_eq, ?_, fun hrevisits e he => ?_, ?_⟩, ?_⟩
  · simp only [reverseTurn, hstack, h.children_eq hn, hd, hvisited, hmark, Checked.ok_bind]
    rfl
  · exact hs.pop (fun _ => id) trivial
  · -- the nodes that stay on the stack lie above the node
    rw [List.mem_append, List.mem_singleton, not_or]
    refine ⟨hfresh hrevisits e (List.mem_cons_of_mem _ he), ?_⟩
    rintro rfl
    exact hacyclic.not_transGen _ (hs.1.transGen_of_mem he)
  · refine Nat.le_trans ?_ h.weight_le
    rw [hstack, stackWeight_cons]
    exact Nat.le_add_left _ _
  · rw [hstack, Arena.Acyclic.remaining, List.drop_eq_nil_of_le (List.getElem?_eq_none_iff.mp hd),
      Arena.Acyclic.postorderAll_nil]

/-- The walk puts the next operand on the stack, or passes it by. -/
theorem turn_consider (h : Descending a root revisits w g visited) (hstack : w.stack = (n, c) :: rest)
    (hd : (a.operands n)[c]? = some d) :
    ∃ stack, reverseTurn (w, g) = .ok (.next ({ w with stack }, g)) ∧
      Descending a root revisits { w with stack } g visited ∧ stackWeight a stack < stackWeight a w.stack ∧
      hacyclic.remaining revisits stack visited = hacyclic.remaining revisits w.stack visited := by
  have hs := h.stacked
  have hfresh := h.fresh
  rw [hstack] at hs hfresh
  have hbelow_d : a.Below d root := (Arena.IsOperand.below (List.mem_of_getElem? hd)).trans hs.1.below_root
  have hdrop : (a.operands n).drop c = d :: (a.operands n).drop (c + 1) := by
    obtain ⟨hc, hd⟩ := List.getElem?_eq_some_iff.mp hd
    rw [List.drop_eq_getElem_cons hc, hd]
  have hpositive : 0 < a.weight d := Nat.two_pow_pos _
  have hweight : stackWeight a ((n, c + 1) :: rest) < stackWeight a w.stack := by
    rw [hstack, stackWeight_next hd]
    omega
  have hpassed : Descending a root revisits { w with stack := (n, c + 1) :: rest } g visited := by
    refine h.of_stack (hs.skip hd trivial) (fun hrevisits e he => ?_) hweight
    rcases List.mem_cons.mp he with rfl | he
    · exact hfresh hrevisits (n, c) List.mem_cons_self
    · exact hfresh hrevisits e (List.mem_cons_of_mem _ he)
  simp only [reverseTurn, hstack, h.children_eq (hbelow n hs.1.below_root), hd,
    hpassed.isVisited_eq (hbelow d hbelow_d), Checked.ok_bind]
  by_cases hpasses : (!revisits && visited.contains d) = true
  · refine ⟨(n, c + 1) :: rest, by rw [hpasses]; rfl, hpassed, hstack ▸ hweight, ?_⟩
    rw [Arena.Acyclic.remaining, Arena.Acyclic.remaining, hdrop, Arena.Acyclic.postorderAll_cons, if_pos hpasses]
  · have hweight' : stackWeight a ((d, 0) :: (n, c + 1) :: rest) < stackWeight a w.stack := by
      rw [hstack, stackWeight_next hd]
      exact stackWeight_push hacyclic d _
    refine ⟨(d, 0) :: (n, c + 1) :: rest, by rw [Bool.eq_false_of_not_eq_true hpasses]; rfl,
      h.of_stack (hs.push hd) (fun hrevisits e he => ?_) hweight', hstack ▸ hweight', ?_⟩
    · rcases List.mem_cons.mp he with rfl | he
      · simpa [hrevisits] using hpasses
      · exact hpassed.fresh hrevisits e he
    · rw [Arena.Acyclic.remaining, Arena.Acyclic.remaining, Arena.Acyclic.remaining, hdrop, List.drop_zero,
        Arena.Acyclic.postorderAll_cons, if_neg hpasses, Arena.Acyclic.postorder_eq]

/-- **A turn** does not change what the recursion has yet to visit. It gets on with the stack, or arrives at the next
node, or at the end when the stack is empty. -/
theorem turn (h : Descending a root revisits w g visited) :
    w.stack = [] ∧ reverseTurn (w, g) = .ok (.done ({ w with current := none }, g)) ∨
    (∃ stack, reverseTurn (w, g) = .ok (.next ({ w with stack }, g)) ∧
      Descending a root revisits { w with stack } g visited ∧ stackWeight a stack < stackWeight a w.stack ∧
      hacyclic.remaining revisits stack visited = hacyclic.remaining revisits w.stack visited) ∨
    ∃ n stack g', reverseTurn (w, g) = .ok (.done ({ w with stack, current := some n }, g')) ∧
      Descending a root revisits { w with stack, current := some n } g' (visited ++ [n]) ∧
      hacyclic.remaining revisits stack (visited ++ [n]) = hacyclic.remaining revisits w.stack visited := by
  rcases hstack : w.stack with _ | ⟨⟨n, c⟩, rest⟩
  · exact Or.inl ⟨rfl, by simp only [reverseTurn, hstack]⟩
  rcases hd : (a.operands n)[c]? with _ | d
  · exact Or.inr (Or.inr ⟨n, rest, hstack ▸ h.turn_leave hacyclic hbelow hstack hd⟩)
  · exact Or.inr (Or.inl (hstack ▸ h.turn_consider hacyclic hbelow hstack hd))

/-- **A step** arrives at the node that the recursion visits next. -/
theorem next (h : Descending a root revisits w g visited) {ns : List NodeId}
    (hns : hacyclic.remaining revisits w.stack visited = visited ++ ns) :
    ∃ w' g' visited', w.next g = .ok (w', g') ∧ w'.current = ns.head? ∧
      Descending a root revisits w' g' visited' ∧
      hacyclic.remaining revisits w'.stack visited' = visited' ++ ns.tail := by
  rw [Walk.next, h.mode_eq]
  suffices hmeets : Meets (Loop.run α (fun r => .ok (Graph.walkExponent r.2)) reverseTurn (w, g)) () NoFault
      fun r _ => ∃ visited', r.1.current = ns.head? ∧ Descending a root revisits r.1 r.2 visited' ∧
        hacyclic.remaining revisits r.1.stack visited' = visited' ++ ns.tail by
    obtain ⟨⟨w', g'⟩, hrun, visited', hnext⟩ := meets_noFault_iff.mp hmeets
    exact ⟨w', g', visited', hrun, hnext⟩
  refine meets_run (I := fun k r _ => Descending a root revisits r.1 r.2 visited ∧ stackWeight a r.1.stack = k ∧
    hacyclic.remaining revisits r.1.stack visited = visited ++ ns) (fun k r _ hr => ?_) (fun k r _ hr => ?_)
    ⟨h, rfl, hns⟩
  · obtain ⟨hdescending, rfl, -⟩ := hr
    refine meets_pure.mpr ⟨rfl, ?_⟩
    have hle := hdescending.weight_le
    have hpow := Nat.two_pow_pos a.edgeCount
    rw [hdescending.exponent_eq, Nat.pow_add]
    omega
  · obtain ⟨v, k⟩ := r
    obtain ⟨hdescending, rfl, hns⟩ := hr
    rcases hdescending.turn hacyclic hbelow with ⟨hstack, hturn⟩ | ⟨stack, hturn, hdescending', hlt, hremaining⟩ |
      ⟨n, stack, k', hturn, hdescending', hremaining⟩
    all_goals rw [hturn]
    · obtain rfl : ns = [] := by
        dsimp only at hns hstack
        rw [hstack] at hns
        exact List.append_right_eq_self.mp hns.symm
      refine meets_pure.mpr ⟨visited, rfl, ⟨hdescending.stand none v.stack v.queue, hdescending.mode_eq,
        hdescending.stacked, hdescending.fresh, hdescending.weight_le⟩, hns⟩
    · exact meets_pure.mpr ⟨_, hlt, hdescending', rfl, hremaining.trans hns⟩
    · obtain ⟨ms, hms⟩ := hacyclic.prefix_remaining revisits stack (visited ++ [n])
      have hcons : ns = n :: ms := by
        rw [hremaining, hns, List.append_assoc] at hms
        exact (List.append_cancel_left hms).symm
      subst hcons
      exact meets_pure.mpr ⟨visited ++ [n], rfl, hdescending', hms.symm⟩

end Descending

/-- **Walks.** A reverse topological walk that gets the slot it needs shows what the recursion visits, and has ended
then for good. -/
theorem exists_shows_postorder {w : Walk} {g : Graph α} {revisits : Bool} (htags : g.TagsGiven)
    (hacyclic : g.arena.Acyclic) (hinside : g.arena.OperandsInside) (hhome : w.home = g.identity)
    (hslot : revisits = true ∨ w.slot ≠ none ∨ g.walks.lowestFree? ≠ none) {root : NodeId}
    (hroot : root < g.arena.capacity) :
    ∃ w' g', w.start g (some root) .reverseTopological revisits = .ok (w', g') ∧
      w'.Shows g' (hacyclic.postorder revisits root []) := by
  have hbelow : ∀ n, g.arena.Below n root → n < g.arena.capacity := by
    intro n hn
    rcases Relation.ReflTransGen.cases_head hn with rfl | ⟨m, hop, -⟩
    · exact hroot
    · exact hinside n m hop
  obtain ⟨w₁, g₁, hrun, hready⟩ := exists_ready_of_tracks .reverseTopological revisits hhome fun htracks =>
    hslot.resolve_left (by simpa [tracks] using htracks)
  have hremembers := hready.remembers htags
  have hweight : stackWeight g.arena [(root, 0)] ≤ 2 * 2 ^ g.arena.edgeCount := by
    have hlt := stackWeight_push hacyclic root []
    have hle := g.arena.weight_le root
    have hnil : stackWeight g.arena [] = 0 := rfl
    omega
  have hdescending : Descending g.arena root revisits { w₁ with stack := [(root, 0)] } g₁ [] :=
    ⟨hremembers.stand w₁.current [(root, 0)] w₁.queue, hready.mode_eq,
      ⟨.root, fun j _ hj => absurd hj (Nat.not_lt_zero j)⟩, fun _ _ _ => List.not_mem_nil, hweight⟩
  have hremaining : hacyclic.remaining revisits [(root, 0)] [] = [] ++ hacyclic.postorder revisits root [] := by
    rw [Arena.Acyclic.remaining, Arena.Acyclic.remaining, List.drop_zero, ← Arena.Acyclic.postorder_eq]
    rfl
  obtain ⟨w', g', visited, hnext, hcurrent, hdescending', hrest⟩ := hdescending.next hacyclic hbelow hremaining
  refine ⟨w', g', ?_, ?_⟩
  · rw [start_eq_ready, hrun]
    exact hnext
  · refine .of_steps (I := fun w g ns => w.current = ns.head? ∧ ∃ visited, Descending _ root revisits w g visited ∧
      hacyclic.remaining revisits w.stack visited = visited ++ ns.tail) And.left (fun {w g ns} hI => ?_)
      ⟨hcurrent, visited, hdescending', hrest⟩
    obtain ⟨-, visited, hdescending, hrest⟩ := hI
    obtain ⟨w', g', visited', hnext, hcurrent, hdescending', hrest'⟩ := hdescending.next hacyclic hbelow hrest
    exact ⟨w', g', hnext, hcurrent, visited', hdescending', hrest'⟩

end Walk

/-! ### Any state of a graph -/

namespace Commons

variable [Scalar α] [BitPattern α] [NumberText α]

/-- **Reverse topological walks are post-order recursion.** Take any state that a new workspace and its walks can be
brought to. The graph has no cycles if callers kept to the rules, and whenever it has none, a reverse topological walk
started at any node meets no fault, however many steps it takes. With revisits it shows the tree that the node unfolds
to in post-order, and then nothing any more. Without revisits, if it holds a slot or can have one, it shows the
post-order of the recursion that passes by what was visited, and then nothing any more: that order has each node at or
below the root once, none before a node that lies below it, and the root last. -/
theorem reverseTopological_eq_postorder (settings : Settings α) (identity : Nat) (store : BoundTable α)
    {cs : List (Command α)} {s : Commons α} {answers : List (Nat × Walk.Answer)}
    (hrun : (new settings identity store).serveAll cs = .ok (s, answers)) :
    ((new settings identity store).PermitsAll cs → s.graph.arena.Acyclic) ∧
    ∀ (hacyclic : s.graph.arena.Acyclic) (i : Nat) (root : NodeId), root < s.graph.arena.capacity →
      (∃ w g, (s.walks i).start s.graph (some root) .reverseTopological true = .ok (w, g) ∧
        w.Shows g (hacyclic.unfolded root)) ∧
      ((s.walks i).slot ≠ none ∨ s.graph.walks.lowestFree? ≠ none →
        let order := hacyclic.postorder false root []
        (∃ w g, (s.walks i).start s.graph (some root) .reverseTopological false = .ok (w, g) ∧ w.Shows g order) ∧
          order.Nodup ∧ (∀ n, n ∈ order ↔ s.graph.arena.Below n root) ∧
          (order.Pairwise fun m n => ¬ s.graph.arena.Below n m) ∧ order.getLast? = some root) := by
  have horderly : s.Orderly := orderly_of_serveAll (orderly_new settings identity store) hrun
  have htags := horderly.ordered.tagsGiven
  have hinside := horderly.ordered.intact.operandsInside
  refine ⟨fun hcs => ?_, fun hacyclic i root hroot => ⟨?_, fun hslot => ⟨?_, hacyclic.postorder_spec root⟩⟩⟩
  · exact (sound_of_serveAll (orderly_new settings identity store) (.empty settings identity) hcs hrun).acyclic
  · obtain ⟨w, g, hstart, hshows⟩ :=
      Walk.exists_shows_postorder htags hacyclic hinside (horderly.home i) (Or.inl rfl) hroot
    rw [hacyclic.postorder_eq_append_unfolded, List.nil_append] at hshows
    exact ⟨w, g, hstart, hshows⟩
  · exact Walk.exists_shows_postorder htags hacyclic hinside (horderly.home i) (Or.inr hslot) hroot

/-- A product of a sum with its own operand. The slots bear what an earlier walk left, which stands in the middle. -/
theorem reverseTopological_eq_postorder_of_shared :
    let cs : List (Command Float) :=
      [.work (.request (.value 1)), .work (.request (.apply .exp 0 rfl)),
        .work (.request (.add (.sum [1, 1] 0) [1, 0])), .work (.request (.add (.product 1) [0, 2])),
        .walk 7 (.start (some 3) .reverseTopological false), .walk 7 .next]
    ∃ s answers, (new default 0 (.ofList [])).PermitsAll cs ∧
      (new default 0 (.ofList [])).serveAll cs = .ok (s, answers) ∧
      ∃ w g w' g' order tree, (s.walks 7).start s.graph (some 3) .reverseTopological false = .ok (w, g) ∧
        w.Shows g order ∧ order.Nodup ∧ 0 ∈ order ∧ order.getLast? = some 3 ∧
        (s.walks 7).start s.graph (some 3) .reverseTopological true = .ok (w', g') ∧ w'.Shows g' tree := by
  intro cs
  have hcs : (new default 0 (.ofList [])).PermitsAll cs := by decide +kernel
  have hreturns : (match (new default 0 (.ofList [])).serveAll cs with
      | .ok (s, _) => decide (3 < s.graph.arena.capacity) && (s.walks 7).slot.isSome &&
          decide (s.graph.arena.operands 3 = [0, 2])
      | .error _ => false) = true := by decide +kernel
  rcases hrun : (new default 0 (.ofList [])).serveAll cs with e | ⟨s, answers⟩
  · rw [hrun] at hreturns
    cases hreturns
  rw [hrun] at hreturns
  simp only [Bool.and_eq_true, decide_eq_true_eq] at hreturns
  obtain ⟨⟨hroot, hslot⟩, hoperands⟩ := hreturns
  obtain ⟨hacyclic, hwalks⟩ := reverseTopological_eq_postorder default 0 (.ofList []) hrun
  obtain ⟨⟨w', g', hstart', hshows'⟩, hwithout⟩ := hwalks (hacyclic hcs) 7 3 hroot
  obtain ⟨⟨w, g, hstart, hshows⟩, hnodup, hmem, -, hlast⟩ := hwithout (Or.inl (Option.isSome_iff_ne_none.mp hslot))
  have hop : s.graph.arena.IsOperand 0 3 := by
    rw [Arena.IsOperand, hoperands]
    exact List.mem_cons_self
  exact ⟨s, answers, hcs, rfl, w, g, w', g', _, _, hstart, hshows, hnodup, (hmem 0).mpr hop.below, hlast, hstart',
    hshows'⟩

end Commons

end IntervalDag
