import IntervalDag.Analysis.BottomUp
import IntervalDag.Proofs.Analysis.Expressions
import IntervalDag.Proofs.Scalar.Patterns
import IntervalDag.Proofs.Walk.Courses

/-!
# Analyses are folds

Analyses keep what they find out at a node in the scratch slots of their walk or in the cached values, and neither is
ever cleared. They still answer as plain recursion over the expression does. For a walk that visits operands first
reads nothing that it did not put down itself: `Graph.Wording` and `Graph.Caching` say what it has put down so far,
`Graph.Wording.meets_visit` and `Graph.Caching.meets_visit` that a visit adds what the recursion makes of the node.

* `Graph.Analysable.map_bottomUp`: a pass from the leaves up comes to a word for what a fold comes to. The answers of
  the three analyses are instances, `map_digest`, `map_foldConstant` and `map_curvature`.
* `Graph.Analysable.meets_evaluate`: so does evaluation, which also leaves the values at all nodes below.
* `Commons.analyses_eq_fold`: all of that, in every state that callers can bring a graph and its walks to.
-/

namespace IntervalDag

variable {α : Type}

namespace Graph

/-! ### Visits -/

/-- What a pass from the leaves up does at a node. -/
def wordVisit (combine : Graph α → NodeId → List UInt64 → Checked α UInt64) (w : Walk) (n : NodeId) :
    Graph α × Unit → Checked α (Graph α × Unit)
  | (g, _) => do
    let words ← (← g.children n).mapM (w.userData g)
    let word ← combine g n words
    return (← w.setUserData g n word, ())

/-- What evaluation does at a node. -/
def valueVisit [Scalar α] [BitPattern α] (point : Point α) (_ : Walk) (n : NodeId) :
    Graph α × Unit → Checked α (Graph α × Unit)
  | (g, _) => do
    let value ← g.nodeValue point n
    return (g.modify n fun node => { node with value }, ())

theorem bottomUp_eq (g : Graph α) (root : NodeId) (combine : Graph α → NodeId → List UInt64 → Checked α UInt64) :
    g.bottomUp root combine = do
      let (w, g) ← { g.newWalk with stops := .ofList [.leave] }.start g (some root) .depthFirst false
      let (w, g, _) ← w.visitAll (wordVisit combine) g ()
      let word ← w.userData g root
      return (w.finish g, word) := rfl

theorem evaluate_eq [Scalar α] [BitPattern α] (g : Graph α) (root : NodeId) (point : Point α) :
    g.evaluate root point = do
      let (w, g) ← g.newWalk.start g (some root) .reverseTopological false
      let (w, g, _) ← w.visitAll (valueVisit point) g ()
      let g := w.finish g
      return (g, ← g.value? root) := rfl

theorem sameTracks_wordVisit {combine : Graph α → NodeId → List UInt64 → Checked α UInt64} (w : Walk) (n : NodeId)
    (g : Graph α) (s : Unit) :
    Meets (wordVisit combine w n (g, s)) () (fun _ => True) fun r _ => g.SameTracks r.1 := by
  refine (Walk.meets_any _).bind fun _ _ _ => (Walk.meets_any _).bind fun _ _ _ => ?_
  refine (Walk.meets_any _).bind fun word _ _ => ?_
  rcases hrun : w.setUserData g n word with e | g₁
  · trivial
  · obtain ⟨i, -, hn, rfl⟩ := Walk.modifySlot_eq_ok_iff.mp hrun
    exact .of_word hn i word

theorem sameTracks_valueVisit [Scalar α] [BitPattern α] {point : Point α} (w : Walk) (n : NodeId) (g : Graph α)
    (s : Unit) : Meets (valueVisit point w n (g, s)) () (fun _ => True) fun r _ => g.SameTracks r.1 :=
  (Walk.meets_any _).bind fun _ _ _ => meets_pure.mpr (.of_sameWay (.of_modify fun _ => ⟨rfl, rfl⟩))

/-! ### Reading nodes in use -/

section Reading

variable {g g₁ : Graph α} {n : NodeId}

theorem map_node_eq_ok {β : Type} (f : Node α → β) (b : β) (hn : g.arena.isAlive n = true) :
    f <$> g.node n = .ok ((g.arena.node? n).elim b f) := by
  obtain ⟨node, hnode, -⟩ := Arena.exists_node?_of_isAlive hn
  rw [node_of_isAlive hn hnode, hnode]
  rfl

theorem children_eq_ok (hn : g.arena.isAlive n = true) : g.children n = .ok (g.arena.operands n) :=
  map_node_eq_ok _ _ hn

/-- Whether a value can be read is not up to evaluation. -/
theorem value?_congr (h : g.Valued g₁) (hcached : g₁.cached n = g.cached n) : g₁.value? n = g.value? n := by
  have halive := congrFun h.sameTerms.isAlive_eq n
  by_cases hn : g.arena.isAlive n = true
  · rw [value?_eq_cached hn, value?_eq_cached (halive.trans hn), hcached]
  · rw [value?, value?, node, node, isAlive, isAlive, halive, if_neg hn, if_neg hn]

variable [Scalar α]

theorem kind_eq_ok (hn : g.arena.isAlive n = true) : g.kind n = .ok (g.kindAt n) := map_node_eq_ok _ _ hn

theorem activity_eq_ok (hn : g.arena.isAlive n = true) : g.activity n = .ok (g.activityAt n) := map_node_eq_ok _ _ hn

theorem childActivities_eq_ok (hn : g.arena.isAlive n = true)
    (hops : ∀ c ∈ g.arena.operands n, g.arena.isAlive c = true) :
    g.childActivities n = .ok ((g.arena.operands n).map g.activityAt) := by
  rw [childActivities, children_eq_ok hn]
  exact Checked.mapM_eq_ok fun c hc => activity_eq_ok (hops c hc)

/-- The value of a node is made from those that are cached on its operands. -/
theorem nodeValue_eq (hn : g.arena.isAlive n = true) (hops : ∀ c ∈ g.arena.operands n, c < g.arena.capacity)
    (point : Point α) :
    g.nodeValue point n = g.valueFrom point (g.kindAt n) ((g.arena.operands n).map g.cached) := by
  obtain ⟨node, hnode, -⟩ := Arena.exists_node?_of_isAlive hn
  rw [Arena.operands_eq_of_node? hnode] at hops ⊢
  have hvalues : node.children.mapM (fun c => (·.value) <$> g.arena.get c) = .ok (node.children.map g.cached) :=
    Checked.mapM_eq_ok fun c hc => by
      obtain ⟨child, hchild⟩ := Option.ne_none_iff_exists'.mp
        (mt Arena.node?_eq_none_iff.mp (Nat.not_le_of_lt (hops c hc)))
      rw [Arena.get_eq_ok_iff.mpr hchild, cached, hchild]
      rfl
  rw [nodeValue, node_of_isAlive hn hnode, Checked.ok_bind, hvalues, kindAt, hnode]
  rfl

namespace Valued

variable (h : Valued g g₁)

include h

theorem kindAt_eq : g₁.kindAt = g.kindAt := funext fun n => (h.agree.map Node.kind).elim_eq n (.value 0)

theorem activityAt_eq : g₁.activityAt = g.activityAt :=
  funext fun n => (h.agree.map Node.activity).elim_eq n .entire

end Valued

end Reading

/-! ### Passes -/

/-- All that analyses of the expression at a root rely on. -/
structure Analysable (g : Graph α) (root : NodeId) : Prop where
  tagsGiven : g.TagsGiven
  acyclic : g.arena.Acyclic
  operandsInside : g.arena.OperandsInside
  slot : g.walks.lowestFree? ≠ none
  isAlive : ∀ n, g.arena.Below n root → g.arena.isAlive n = true

namespace Analysable

variable {g g₁ : Graph α} {root n : NodeId} (h : g.Analysable root) (hvalued : g.Valued g₁)
  (hn : g.arena.Below n root)

include h hvalued hn

theorem isAlive_of_below : g₁.arena.isAlive n = true := by
  rw [hvalued.sameTerms.isAlive_eq]
  exact h.isAlive n hn

variable [Scalar α]

theorem kind_eq_ok : g₁.kind n = .ok (g.kindAt n) := by
  rw [Graph.kind_eq_ok (h.isAlive_of_below hvalued hn), hvalued.kindAt_eq]

theorem childActivities_eq_ok : g₁.childActivities n = .ok ((g.arena.operands n).map g.activityAt) := by
  have hoperands := hvalued.sameTerms.children.operands_eq
  rw [Graph.childActivities_eq_ok (h.isAlive_of_below hvalued hn), hoperands, hvalued.activityAt_eq]
  rw [hoperands]
  exact fun c hc => h.isAlive_of_below hvalued ((Arena.IsOperand.below hc).trans hn)

end Analysable

section Words

variable {β : Type} {g g₁ : Graph α} {root : NodeId} {decode : UInt64 → β}

/-- A pass keeps words for the results at the nodes that were left, in a scratch slot. -/
structure Wording (g : Graph α) (decode : UInt64 → β) (f : NodeId → Checked α β) (slot : Nat) (left : List NodeId)
    (w : Walk) (g₁ : Graph α) : Prop where
  walked : g.Walked g₁
  slot_eq : w.slot = some slot
  word : ∀ m ∈ left, f m = .ok (decode (g₁.arena.scratch slot m).userData)

variable [Scalar α] (h : g.Analysable root) {combine : Graph α → NodeId → List UInt64 → Checked α UInt64}
  {step : Kind α → List (Interval α) → List β → Checked α β}
  (hcombine : ∀ g₁ n words, g.Valued g₁ → g.arena.Below n root →
    decode <$> combine g₁ n words = step (g.kindAt n) ((g.arena.operands n).map g.activityAt) (words.map decode))

include hcombine

/-- **A visit** puts down a word for the result at a node, from those for its operands. -/
theorem Wording.meets_visit {slot : Nat} {left : List NodeId} {w : Walk} {n : NodeId} {rest : List (NodeId × Nat)}
    (hw : g.Wording decode (fun m => (g.unfold h.acyclic m).fold step) slot left w g₁)
    (hops : ∀ c ∈ g.arena.operands n, c ∈ left) (hpending : Pending g.arena.operands (· ∈ left) root n rest) :
    Meets (wordVisit combine w n (g₁, ())) () (fun e => (g.unfold h.acyclic root).fold step = .error e) fun r _ =>
      g₁.SameTracks r.1 ∧ ∀ w' g', w.Moved r.1 w' g' →
        g.Wording decode (fun m => (g.unfold h.acyclic m).fold step) slot (n :: left) w' g' := by
  have hvalued := Valued.of_walked hw.walked
  have hbelow : g.arena.Below n root := hpending.below_root
  have hn := h.isAlive_of_below hvalued hbelow
  have hlt := Arena.lt_capacity_of_isAlive hn
  let words := (g.arena.operands n).map fun c => (g₁.arena.scratch slot c).userData
  have hwords : (g.arena.operands n).mapM (w.userData g₁) = .ok words := Checked.mapM_eq_ok fun c hc =>
    Walk.userData_eq hw.slot_eq (Arena.lt_capacity_of_isAlive
      (h.isAlive_of_below hvalued ((Arena.IsOperand.below hc).trans hbelow)))
  -- the operands were visited, so their words are not left over from another walk
  have hfold : (g.unfold h.acyclic n).fold step = decode <$> combine g₁ n words := by
    rw [g.fold_unfold, Checked.mapM_eq_ok fun c hc => hw.word c (hops c hc), hcombine g₁ n words hvalued hbelow,
      List.map_map]
    rfl
  rw [wordVisit, children_eq_ok hn, hvalued.sameTerms.children.operands_eq, Checked.ok_bind, hwords, Checked.ok_bind]
  rcases hword : combine g₁ n words with e | word
  · rw [hword] at hfold
    exact hpending.eq_error (fun n => g.fold_unfold h.acyclic step n) (fun m hm => ⟨_, hw.word m hm⟩) hfold
  rw [hword] at hfold
  rw [Checked.ok_bind, Walk.setUserData, Walk.modifySlot_eq hw.slot_eq hlt]
  have hwritten : g₁.Walked (g₁.modify n (·.modifySlot slot fun x => { x with userData := word })) :=
    ⟨.of_modify fun _ => rfl, rfl, rfl⟩
  refine meets_pure.mpr ⟨.of_word hlt slot word, fun w' g' hmoved => ⟨?_, hmoved.slot_eq.trans hw.slot_eq, ?_⟩⟩
  · exact (hw.walked.trans hwritten).trans hmoved.walked
  · intro m hm
    rw [hmoved.userData_eq, Graph.modify, Arena.scratch_modify_slot hlt]
    by_cases hmn : m = n
    · rw [if_pos ⟨hmn, rfl⟩, hmn]
      exact hfold
    · rw [if_neg fun hm => hmn hm.1]
      exact hw.word m ((List.mem_cons.mp hm).resolve_left hmn)

variable (decode) in
/-- **Analyses from the leaves up** are folds. -/
theorem Analysable.map_bottomUp :
    (fun r => decode r.2) <$> g.bottomUp root combine = (g.unfold h.acyclic root).fold step := by
  have hroot := Arena.lt_capacity_of_isAlive (h.isAlive root (.refl _ root))
  obtain ⟨w, g₁, ns, hstart, hdeparts⟩ := Walk.exists_departs_depthFirst h.tagsGiven h.acyclic h.operandsInside h.slot
    hroot
  obtain ⟨slot, hslot, -⟩ := hdeparts.guest.slot
  have hbegun : g.Wording decode (fun m => (g.unfold h.acyclic m).fold step) slot [] w g₁ :=
    ⟨hdeparts.walked, hslot, nofun⟩
  rw [bottomUp_eq, hstart, Checked.ok_bind]
  refine ((hdeparts.meets_visitAll (I := fun left w g₁ _ => g.Wording decode _ slot left w g₁) hbegun fun hw =>
    hw.meets_visit h hcombine).bind fun r _ hr => ?_).map_eq
  obtain ⟨w', g', _⟩ := r
  obtain ⟨left, hleft, hw⟩ := hr
  dsimp only
  rw [Walk.userData_eq hw.slot_eq (hw.walked.children.capacity_eq ▸ hroot)]
  exact meets_pure.mpr (hw.word root ((hleft root).mpr (.refl _ root)))

end Words

/-! ### Evaluation -/

section Values

variable [Scalar α] {g g₁ : Graph α} {root : NodeId} {point : Point α}

/-- A pass caches the values of the nodes that were left, and no others. -/
structure Caching (g : Graph α) (f : NodeId → Checked α (Option α)) (left : List NodeId) (g₁ : Graph α) : Prop where
  valued : g.Valued g₁
  value : ∀ m ∈ left, f m = .ok (g₁.cached m)
  cached_eq : ∀ m, m ∉ left → g₁.cached m = g.cached m

/-- The value of an expression, from those of the operands. -/
theorem value_unfold (h : g.arena.Acyclic) (n : NodeId) : (g.unfold h n).value g.handlerFor point =
    (g.arena.operands n).mapM (fun c => (g.unfold h c).value g.handlerFor point) >>= g.valueFrom point (g.kindAt n) :=
  g.fold_unfold h _ n

variable [BitPattern α]

/-- **A visit** caches the value of a node, made from those of the operands. -/
theorem Caching.meets_visit (h : g.Analysable root) {left : List NodeId} {w : Walk} {n : NodeId}
    {rest : List (NodeId × Nat)} (hg : g.Caching (fun m => (g.unfold h.acyclic m).value g.handlerFor point) left g₁)
    (hops : ∀ c ∈ g.arena.operands n, c ∈ left)
    (hpending : Pending g.arena.operands (· ∈ left) root n rest) :
    Meets (valueVisit point w n (g₁, ())) () (fun e => (g.unfold h.acyclic root).value g.handlerFor point = .error e)
      fun r _ => g₁.SameTracks r.1 ∧ ∀ w' g', w.Moved r.1 w' g' →
        g.Caching (fun m => (g.unfold h.acyclic m).value g.handlerFor point) (n :: left) g' := by
  have hsame := hg.valued.sameTerms
  have hn : g.arena.isAlive n = true := h.isAlive n hpending.below_root
  have hlt : n < g₁.arena.capacity := by
    rw [hsame.children.capacity_eq]
    exact Arena.lt_capacity_of_isAlive hn
  have hvalue : g₁.nodeValue point n = (g.unfold h.acyclic n).value g.handlerFor point := by
    rw [value_unfold, Checked.mapM_eq_ok fun c hc => hg.value c (hops c hc), Checked.ok_bind,
      nodeValue_eq (by rwa [hsame.isAlive_eq]), hg.valued.kindAt_eq, hsame.children.operands_eq, valueFrom, valueFrom,
      hsame.handlerFor_eq]
    rw [hsame.children.operands_eq, hsame.children.capacity_eq]
    exact fun c hc => h.operandsInside c n hc
  rw [valueVisit, hvalue]
  rcases hrun : (g.unfold h.acyclic n).value g.handlerFor point with e | v
  · exact hpending.eq_error (fun n => value_unfold h.acyclic n) (fun m hm => ⟨_, hg.value m hm⟩) hrun
  refine meets_pure.mpr ⟨.of_sameWay (.of_modify fun _ => ⟨rfl, rfl⟩), fun w' g' hmoved => ⟨?_, ?_, ?_⟩⟩
  · exact (hg.valued.trans (.of_modify n v)).trans (.of_walked hmoved.walked)
  · intro m hm
    rw [cached_of_walked hmoved.walked, cached_modify hlt]
    split_ifs with hmn
    · exact hmn ▸ hrun
    · exact hg.value m ((List.mem_cons.mp hm).resolve_left hmn)
  · intro m hm
    rw [List.mem_cons, not_or] at hm
    rw [cached_of_walked hmoved.walked, cached_modify hlt, if_neg hm.1]
    exact hg.cached_eq m hm.2

/-- **Evaluation** answers with a fold, and caches it on each node that it comes to. -/
theorem Analysable.meets_evaluate (h : g.Analysable root) :
    Meets (g.evaluate root point) () (fun e => (g.unfold h.acyclic root).value g.handlerFor point = .error e)
      fun r _ => (g.unfold h.acyclic root).value g.handlerFor point = .ok r.2 ∧
        (∀ n, g.arena.Below n root → r.1.value? n = (g.unfold h.acyclic n).value g.handlerFor point) ∧
        ∀ n, ¬ g.arena.Below n root → r.1.value? n = g.value? n := by
  have hroot := Arena.lt_capacity_of_isAlive (h.isAlive root (.refl _ root))
  obtain ⟨w, g₁, ns, hstart, hdeparts⟩ := Walk.exists_departs_reverseTopological h.tagsGiven h.acyclic h.operandsInside
    h.slot hroot
  have hbegun : g.Caching (fun m => (g.unfold h.acyclic m).value g.handlerFor point) [] g₁ :=
    ⟨.of_walked hdeparts.walked, nofun, fun m _ => congrFun (cached_of_walked hdeparts.walked) m⟩
  rw [evaluate_eq, hstart, Checked.ok_bind]
  refine (hdeparts.meets_visitAll (I := fun left _ g₁ _ => g.Caching _ left g₁) hbegun fun hg =>
    hg.meets_visit h).bind fun r _ hr => ?_
  obtain ⟨w', g', _⟩ := r
  obtain ⟨left, hleft, hg⟩ := hr
  have hwalked : g'.Walked (w'.finish g') := Walk.Guest.walked_finish
  have hvalued : g.Valued (w'.finish g') := hg.valued.trans (.of_walked hwalked)
  have hcached : (w'.finish g').cached = g'.cached := cached_of_walked hwalked
  have hbelow : ∀ n, g.arena.Below n root →
      (w'.finish g').value? n = (g.unfold h.acyclic n).value g.handlerFor point := fun n hn => by
    rw [hg.value n ((hleft n).mpr hn), value?_eq_cached, hcached]
    rw [hvalued.sameTerms.isAlive_eq]
    exact h.isAlive n hn
  have hvalue := hg.value root ((hleft root).mpr (.refl _ root))
  dsimp only
  rw [hbelow root (.refl _ root), hvalue]
  refine meets_pure.mpr ⟨rfl, hbelow, fun n hn => value?_congr hvalued ?_⟩
  rw [hcached]
  exact hg.cached_eq n (mt (hleft n).mp hn)

end Values

/-! ### Answers -/

/-- A word for a constant stands for it, unless it is not a number. -/
theorem constantOfWord_wordOfConstant [Scalar α] [BitPattern α] [LawfulBitPattern α] (constant : Option α) :
    constantOfWord (wordOfConstant constant) = constant.filter fun v => !Scalar.isNaN v := by
  rcases constant with _ | v
  · have hword : wordOfConstant (none : Option α) = notConstant := rfl
    rw [constantOfWord, hword, if_pos (Or.inl rfl)]
    rfl
  have hword : wordOfConstant (some v) = BitPattern.toBits v := rfl
  rw [constantOfWord, hword, LawfulBitPattern.ofBits_toBits, Option.filter_some]
  by_cases hnan : Scalar.isNaN v = true
  · rw [if_pos (Or.inr hnan), hnan]
    rfl
  · have hne : BitPattern.toBits v ≠ notConstant := fun heq => hnan (by
      rw [← LawfulBitPattern.ofBits_toBits v, heq]
      exact LawfulBitPattern.isNaN_ofBits_ones)
    rw [if_neg (not_or.mpr ⟨hne, hnan⟩), Bool.eq_false_iff.mpr hnan]
    rfl

/-- An answer is read from a word at the end. -/
theorem map_snd_decoded {β : Type} {x : Checked α (Graph α × UInt64)} (decode : UInt64 → β) :
    Prod.snd <$> (x >>= fun r => pure (r.1, decode r.2)) = (fun r => decode r.2) <$> x := by
  cases x with
  | error e => rfl
  | ok r => rfl

section Answers

variable [Scalar α] {g : Graph α} {root : NodeId} (h : g.Analysable root)

include h

theorem Analysable.map_digest (mix : List UInt64 → UInt64) :
    Prod.snd <$> g.digest mix root = (g.unfold h.acyclic root).digest g.handlerFor mix := by
  refine h.map_bottomUp id fun g₁ n words hvalued hn => ?_
  rw [h.kind_eq_ok hvalued hn, hvalued.sameTerms.handlerFor_eq, id_map, List.map_id]
  rfl

theorem Analysable.map_curvature :
    Prod.snd <$> g.curvature root = (g.unfold h.acyclic root).curvature g.handlerFor := by
  refine (map_snd_decoded Curvature.ofCode).trans (h.map_bottomUp Curvature.ofCode fun g₁ n words hvalued hn => ?_)
  rw [h.childActivities_eq_ok hvalued hn, h.kind_eq_ok hvalued hn, hvalued.sameTerms.handlerFor_eq, Checked.ok_bind,
    Checked.ok_bind, map_bind]
  simp only [map_pure, Curvature.ofCode_code, bind_pure]

theorem Analysable.map_foldConstant [BitPattern α] [LawfulBitPattern α] :
    Prod.snd <$> g.foldConstant root = (g.unfold h.acyclic root).constant g.handlerFor := by
  refine (map_snd_decoded constantOfWord).trans (h.map_bottomUp constantOfWord fun g₁ n words hvalued hn => ?_)
  rw [h.kind_eq_ok hvalued hn, hvalued.sameTerms.handlerFor_eq, Checked.ok_bind, map_bind]
  simp only [map_pure, constantOfWord_wordOfConstant]
  rfl

end Answers

end Graph

/-! ### Any state of a graph -/

namespace Commons

variable [Scalar α] [BitPattern α] [NumberText α] [LawfulBitPattern α]

/-- **Analyses are folds.** Take any state that a new workspace and its walks can be brought to, whatever handlers were
registered. Let anything be cached on the nodes, let their scratch slots hold anything but tags that are yet to be given
out, and let up to four walks be open. If callers kept to the rules, there are no cycles, and all nodes below one in use
are in use. Whenever this is so of what lies below a root, analyses answer about it what plain recursion over its
expression, with what is shared written out, comes to: the same answer, or the same fault if handlers meet one.
Evaluation caches on each node at or below the root the value of the expression there, and leaves the value of every
other node. Each of these passes visits each node at or below the root just once. -/
theorem analyses_eq_fold (settings : Settings α) (identity : Nat) (store : BoundTable α) {cs : List (Command α)}
    {s : Commons α} {answers : List (Nat × Walk.Answer)}
    (hrun : (new settings identity store).serveAll cs = .ok (s, answers)) {g : Graph α} (hterms : s.graph.SameTerms g)
    (htags : g.TagsGiven) (hactive : g.walks.activeCount ≤ 4) (root : NodeId) :
    ((new settings identity store).PermitsAll cs → g.isAlive root = true →
      g.arena.Acyclic ∧ ∀ n, g.arena.Below n root → g.isAlive n = true) ∧
    ∀ h : g.arena.Acyclic, (∀ n, g.arena.Below n root → g.isAlive n = true) →
      (∀ point, Prod.snd <$> g.evaluate root point = (g.unfold h root).value g.handlerFor point ∧
        ∀ g' v, g.evaluate root point = .ok (g', v) →
          (∀ n, g.arena.Below n root → g'.value? n = (g.unfold h n).value g.handlerFor point) ∧
          ∀ n, ¬ g.arena.Below n root → g'.value? n = g.value? n) ∧
      (∀ mix, Prod.snd <$> g.digest mix root = (g.unfold h root).digest g.handlerFor mix) ∧
      Prod.snd <$> g.foldConstant root = (g.unfold h root).constant g.handlerFor ∧
      Prod.snd <$> g.curvature root = (g.unfold h root).curvature g.handlerFor ∧
      (∀ point, ∃ w g₁, g.newWalk.start g (some root) .reverseTopological false = .ok (w, g₁) ∧
        w.VisitsOnce (Graph.valueVisit point) g₁ () (g.arena.Below · root)) ∧
      ∀ combine, ∃ w g₁,
        { g.newWalk with stops := .ofList [.leave] }.start g (some root) .depthFirst false = .ok (w, g₁) ∧
        w.VisitsOnce (Graph.wordVisit combine) g₁ () (g.arena.Below · root) := by
  have horderly : s.Orderly := orderly_of_serveAll (orderly_new settings identity store) hrun
  refine ⟨fun hcs hroot => ?_, fun hacyclic halive => ?_⟩
  · have hsound : g.Sound s.workspace.held := Graph.Sound.of_sameTerms
      (sound_of_serveAll (orderly_new settings identity store) (.empty settings identity) hcs hrun) hterms
    exact ⟨hsound.acyclic, fun n hn => hsound.counted.isAlive_of_below hn hroot⟩
  have hinside : g.arena.OperandsInside := by
    rw [Arena.OperandsInside, hterms.children.isOperand_eq, hterms.children.capacity_eq]
    exact horderly.ordered.intact.operandsInside
  have hslot : g.walks.lowestFree? ≠ none := SlotPool.lowestFree?_ne_none_of_lt (Nat.lt_succ_of_le hactive)
  have hroot : root < g.arena.capacity := Arena.lt_capacity_of_isAlive (halive root (.refl _ root))
  have h : g.Analysable root := ⟨htags, hacyclic, hinside, hslot, halive⟩
  refine ⟨fun point => ⟨?_, fun g' v hrun => ?_⟩, h.map_digest, h.map_foldConstant, h.map_curvature, fun point => ?_,
    fun combine => ?_⟩
  · exact (h.meets_evaluate.imp fun _ _ hr => hr.1).map_eq
  · have hvalues : Meets (g.evaluate root point) () _ _ := h.meets_evaluate
    rw [hrun] at hvalues
    exact hvalues.2
  · obtain ⟨w, g₁, ns, hstart, hdeparts⟩ := Walk.exists_departs_reverseTopological htags hacyclic hinside hslot hroot
    exact ⟨w, g₁, hstart, hdeparts.visitsOnce Graph.sameTracks_valueVisit⟩
  · obtain ⟨w, g₁, ns, hstart, hdeparts⟩ := Walk.exists_departs_depthFirst htags hacyclic hinside hslot hroot
    exact ⟨w, g₁, hstart, hdeparts.visitsOnce Graph.sameTracks_wordVisit⟩

/-- A sum whose operands are one node. It was evaluated elsewhere, and four walks are open. -/
theorem analyses_eq_fold_of_shared :
    let cs : List (Command Float) :=
      [.work (.request (.var 0)), .work (.request (.add (.sum [2] 1) [0])),
        .work (.request (.add (.sum [1, 1] 0) [1, 1])), .work (.evaluate 2 fun _ => some 7), .analyse (.foldConstant 2),
        .walk 0 (.start (some 2) .depthFirst false), .walk 1 (.start (some 2) .reverseTopological false),
        .walk 2 (.start (some 1) .depthFirst false), .walk 3 (.start (some 2) .depthFirst true), .walk 0 .next]
    ∃ s answers, (new default 0 (.ofList [])).PermitsAll cs ∧
      (new default 0 (.ofList [])).serveAll cs = .ok (s, answers) ∧ s.graph.walks.activeCount = 4 ∧
      ∃ h : s.graph.arena.Acyclic, ∃ g', s.graph.evaluate 2 (fun _ => some 3) = .ok (g', some 14) ∧
        (s.graph.unfold h 2).value s.graph.handlerFor (fun _ => some 3) = .ok (some 14) ∧
        g'.value? 1 = (s.graph.unfold h 1).value s.graph.handlerFor fun _ => some 3 := by
  intro cs
  have hcs : (new default 0 (.ofList [])).PermitsAll cs := by decide +kernel
  have hreturns : (match (new default 0 (.ofList [])).serveAll cs with
      | .ok (s, _) => (s.graph.walks.activeCount == 4 && s.graph.isAlive 2) &&
        (match s.graph.evaluate 2 (fun _ => some 3) with
          | .ok (g', v) => decide (v = some 14 ∧ s.graph.arena.operands 2 = [1, 1])
          | .error _ => false)
      | .error _ => false) = true := by decide +kernel
  rcases hrun : (new default 0 (.ofList [])).serveAll cs with e | ⟨s, answers⟩
  · rw [hrun] at hreturns
    cases hreturns
  rw [hrun, Bool.and_eq_true, Bool.and_eq_true, beq_iff_eq] at hreturns
  obtain ⟨⟨hactive, hroot⟩, hvalue⟩ := hreturns
  have horderly : s.Orderly := orderly_of_serveAll (orderly_new default 0 (.ofList [])) hrun
  obtain ⟨hsound, hanswers⟩ := analyses_eq_fold default 0 (.ofList []) hrun (.refl _) horderly.ordered.tagsGiven
    hactive.le 2
  obtain ⟨h, halive⟩ := hsound hcs hroot
  obtain ⟨hfold, hcached⟩ := (hanswers h halive).1 fun _ => some 3
  rcases hresult : s.graph.evaluate 2 (fun _ => some 3) with e | ⟨g', v⟩
  · rw [hresult] at hvalue
    cases hvalue
  rw [hresult, decide_eq_true_eq] at hvalue
  obtain ⟨rfl, hoperands⟩ := hvalue
  rw [hresult] at hfold
  have hbelow : s.graph.arena.Below 1 2 := by
    refine Arena.IsOperand.below ?_
    rw [Arena.IsOperand, hoperands]
    exact List.mem_cons_self
  exact ⟨s, answers, hcs, rfl, hactive, h, g', hresult, hfold.symm, (hcached g' _ hresult).1 1 hbelow⟩

end Commons

end IntervalDag
