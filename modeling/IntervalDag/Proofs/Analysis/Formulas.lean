import IntervalDag.Proofs.Analysis.Parts
import IntervalDag.Text.Formula

/-!
# Formulas are written by recursion

The pieces of a formula come from a walk that visits shared nodes at every use. Put together they are what plain
recursion over the expression writes (`Commons.Exhibits.map_formula`), so a formula shows nothing of how parts are
shared.

The walk reports its stages as the search does that `Plan.search` describes. `Graph.Dictates` says which text such
reports come to.
-/

namespace IntervalDag

variable {α : Type} [Scalar α] [NumberText α]

/-- What is written for a node: the texts of the operands, each behind what stands before it, between what is written
on arrival and on leaving. -/
def Formula.compose (name : String) (kind : Kind α) (texts : List String) : Checked α String := do
  let parts ← texts.zipIdx.mapM fun p => (· ++ p.1) <$> separator kind p.2
  return opening name kind texts.length ++ String.join parts ++ closing kind texts.length

theorem Formula.compose_cons {name : String} {kind : Kind α} {text before : String} {texts parts : List String}
    (hbefore : separator kind 0 = .ok before)
    (hparts : (texts.zipIdx 1).mapM (fun p => (· ++ p.1) <$> separator kind p.2) = .ok parts) :
    compose name kind (text :: texts) = .ok (opening name kind (texts.length + 1) ++
      (before ++ text ++ String.join parts) ++ closing kind (texts.length + 1)) := by
  rw [compose, List.zipIdx_cons, List.mapM_cons, hbefore, hparts, ← String.join_cons]
  rfl

/-- The formula of an expression. -/
def Expression.formula (handlers : Kind α → Handler α) : Expression α → Checked α String :=
  fold fun kind _ texts => Formula.compose (handlers kind).name kind texts

theorem Expression.formula_node (handlers : Kind α → Handler α) (kind : Kind α) (activity : Interval α)
    (es : List (Expression α)) : (node kind activity es).formula handlers =
      es.mapM (formula handlers) >>= Formula.compose (handlers kind).name kind := by
  rw [formula, fold_node]

/-! ### Following a walk by its reports -/

omit [Scalar α] [NumberText α] in
theorem Walk.stage_of_report {w : Walk} {g : Graph α} {r : Report} (h : w.report g = .ok r) :
    w.stage = r.stage ∧ (r.stage.isAtChild = true → some <$> w.childIndex g = .ok r.child) := by
  obtain ⟨n, -, h⟩ := Checked.bind_eq_ok.mp h
  obtain ⟨stage, hstage, h⟩ := Checked.bind_eq_ok.mp h
  obtain ⟨_, -, hstage⟩ := Checked.bind_eq_ok.mp hstage
  obtain rfl : w.stage = stage := Except.ok.inj hstage
  dsimp only at h
  split_ifs at h with hchild
  all_goals
    obtain ⟨child, hindex, h⟩ := Checked.bind_eq_ok.mp h
    obtain ⟨parent, -, h⟩ := Checked.bind_eq_ok.mp h
    cases h
    refine ⟨rfl, fun hat => ?_⟩
  · exact hindex
  · exact absurd hat hchild

omit [Scalar α] [NumberText α] in
/-- What has been shown stays. -/
theorem Walk.Tours.exists_rest {skips : List Report → Bool} {w w' : Walk} {g g' : Graph α}
    {shown shown' : List Report} (h : Tours skips w g shown w' g' shown') : ∃ rest, shown' = shown ++ rest := by
  induction h with
  | ended => exact ⟨[], (List.append_nil _).symm⟩
  | @go _ _ _ _ _ _ shown _ r _ _ _ ih =>
    obtain ⟨rest, rfl⟩ := ih
    exact ⟨r :: rest, List.append_assoc ..⟩

section Reading

variable {σ : Type} {step : σ → Report → Checked α σ} {g₀ g g' : Graph α} {w w' : Walk} {shown reports : List Report}
  {s s' : σ}

omit [Scalar α] [NumberText α] in
/-- **Reading a tour.** A loop whose turns do at each stop what its report tells, and go on or skip as the tour does,
comes to what the reports tell one after another. -/
theorem Walk.Tours.run_eq {turn : Walk × Graph α × σ → Checked α (Turn (Walk × Graph α × σ) (Walk × Graph α × σ))}
    {skips : List Report → Bool} {I : List Report → σ → Prop}
    (hended : ∀ w g s, w.current = none → turn (w, g, s) = .ok (.done (w, g, s)))
    (hturn : ∀ {w w₁ g g₁ shown r s s₁}, g₀.Walked g → I shown s → w.report g = .ok r →
      (if r.stage ≠ .leave ∧ skips (shown ++ [r]) = true then w.skip g else w.next g) = .ok (w₁, g₁) →
      step s r = .ok s₁ → turn (w, g, s) = .ok (.next (w₁, g₁, s₁)) ∧ I (shown ++ [r]) s₁)
    (h : Tours skips w g shown w' g' (shown ++ reports)) (hg : g₀.Walked g) (hI : I shown s)
    (hlen : reports.length < 2 ^ g.walkExponent) (hread : reports.foldlM step s = .ok s') :
    ∃ w' g', Loop.run α (fun (_, g, _) => .ok (Graph.walkExponent g)) turn (w, g, s) = .ok (w', g', s') := by
  have hmeets : Meets (Loop.run α (fun (_, g, _) => .ok (Graph.walkExponent g)) turn (w, g, s)) () NoFault
      fun r _ => r.2.2 = s' := by
    -- the invariant counts the stops to come
    refine meets_run (I := fun k r _ => ∃ shown reports w' g',
      Tours skips r.1 r.2.1 shown w' g' (shown ++ reports) ∧ g₀.Walked r.2.1 ∧ I shown r.2.2 ∧
        reports.foldlM step r.2.2 = .ok s' ∧ reports.length = k ∧ k < 2 ^ r.2.1.walkExponent)
      (fun k r _ hr => ?_) (fun k r _ hr => ?_) ⟨shown, reports, w', g', h, hg, hI, hread, rfl, hlen⟩
    · obtain ⟨shown, reports, w', g', -, -, -, -, -, hk⟩ := hr
      exact meets_pure.mpr ⟨rfl, hk⟩
    · obtain ⟨w, g, s⟩ := r
      obtain ⟨shown, reports, w', g', htours, hg, hI, hread, hlength, hk⟩ := hr
      dsimp only at htours hg hI hread hk
      generalize hshown : shown ++ reports = shown' at htours
      cases htours with
      | ended hnone =>
        obtain rfl := List.append_cancel_left (hshown.trans (List.append_nil shown).symm)
        rw [hended w g s hnone]
        exact Except.ok.inj hread
      | @go _ w₁ _ _ g₁ _ _ _ r hreport hstep hrest =>
        obtain ⟨rest, hrest'⟩ := hrest.exists_rest
        obtain rfl : reports = r :: rest := List.append_cancel_left (by rw [hshown, hrest', List.append_assoc]; rfl)
        rw [List.foldlM_cons] at hread
        obtain ⟨s₁, hs₁, hread⟩ := Checked.bind_eq_ok.mp hread
        obtain ⟨hnext, hI₁⟩ := hturn hg hI hreport hstep hs₁
        have hmoves : Moves w g (if r.stage ≠ .leave ∧ skips (shown ++ [r]) = true then w.skip g else w.next g) := by
          split
          · exact moves_skip
          · exact moves_next
        have hmoved := hmoves.of_observe (r := ((w₁, g₁), ())) (by rw [hstep]; rfl)
        rw [hnext]
        refine ⟨rest.length, ?_, shown ++ [r], rest, w', g', ?_, hg.trans hmoved.walked, hI₁, hread, rfl, ?_⟩
        · exact hlength ▸ Nat.lt_succ_self _
        · rwa [List.append_assoc, List.singleton_append, hshown]
        · rw [hmoved.exponent_eq]
          exact Nat.lt_trans (hlength ▸ Nat.lt_succ_self _) hk
  obtain ⟨⟨w', g', s''⟩, hrun, rfl⟩ := meets_noFault_iff.mp hmeets
  exact ⟨w', g', hrun⟩

omit [Scalar α] [NumberText α] in
/-- A pass that reads at each stop what its report tells, and never skips. -/
theorem Walk.Tours.visitAll_eq {visit : Walk → NodeId → Graph α × σ → Checked α (Graph α × σ)}
    (hvisit : ∀ w g r s, g₀.Walked g → w.report g = .ok r → visit w r.node (g, s) = (g, ·) <$> step s r)
    (h : Tours (fun _ => false) w g shown w' g' (shown ++ reports)) (hg : g₀.Walked g)
    (hlen : reports.length < 2 ^ g.walkExponent) (hread : reports.foldlM step s = .ok s') :
    ∃ w' g', w.visitAll visit g s = .ok (w', g', s') := by
  refine h.run_eq (I := fun _ _ => True) (fun w g s hnone => ?_)
    (fun {w w₁ g g₁ shown r s s₁} hg _ hreport hstep hs => ?_) hg trivial hlen hread
  · simp only [hnone]
  · have hnext : w.next g = .ok (w₁, g₁) := by simpa using hstep
    simp only [current_of_report hreport, hvisit w g r s hg hreport, hs]
    refine ⟨?_, trivial⟩
    change (w.next g >>= fun r => pure (Turn.next (r.1, r.2, s₁))) = _
    rw [hnext]
    rfl

end Reading

/-! ### What reports come to -/

namespace Graph

/-- The piece of a formula that belongs to a report. -/
def pieceAt (g : Graph α) (r : Report) : Checked α String := do
  let node ← g.node r.node
  match r.stage, r.child with
  | .enter, _ => return Formula.opening (g.handlerFor node.kind).name node.kind node.children.length
  | .visitingChild, some i => Formula.separator node.kind i
  | .leave, _ => return Formula.closing node.kind node.children.length
  | _, _ => return ""

/-- What is done for a formula at a stop. -/
def formulaVisit (w : Walk) (n : NodeId) : Graph α × String → Checked α (Graph α × String)
  | (g, text) => do return (g, text ++ (← g.formulaPiece w n))

theorem formula_eq (g : Graph α) (root : NodeId) :
    g.formula root = do
      let (w, g) ← { g.newWalk with stops := writingStages }.start g (some root) .depthFirst true
      let (w, g, text) ← w.visitAll formulaVisit g ""
      return (w.finish g, text) := rfl

/-- Reports come to a text. -/
def Dictates (g : Graph α) (reports : List Report) (text : String) : Prop :=
  ∀ before, reports.foldlM (fun before r => (before ++ ·) <$> g.pieceAt r) before = .ok (before ++ text)

variable {g g₁ : Graph α}

/-- Walks leave alone what pieces are made of. -/
theorem formulaPiece_eq (hg : g.Walked g₁) {w : Walk} {r : Report} (hreport : w.report g₁ = .ok r) :
    g₁.formulaPiece w r.node = g.pieceAt r := by
  have hsame := (Valued.of_walked hg).sameTerms
  have halive := congrFun hsame.isAlive_eq r.node
  obtain ⟨hstage, hchild⟩ := Walk.stage_of_report hreport
  rw [formulaPiece, pieceAt, hstage]
  by_cases hn : g.arena.isAlive r.node = true
  · obtain ⟨node, hnode, -⟩ := Arena.exists_node?_of_isAlive hn
    obtain ⟨node₁, hnode₁, hkind, hchildren, -⟩ := hsame.exists_node? hnode
    rw [node_of_isAlive hn hnode, node_of_isAlive (halive.trans hn) hnode₁, Checked.ok_bind, Checked.ok_bind,
      hsame.handlerFor_eq, hkind, hchildren]
    cases hr : r.stage with
    | visitingChild =>
      obtain ⟨i, hi, hr⟩ := Checked.map_eq_ok.mp (hchild (by rw [hr]; rfl))
      simp only [hi, ← hr]
      rfl
    | _ => rfl
  · have hnode₁ : g₁.node r.node = .error (.accessReleased r.node) := if_neg fun h => hn (halive.symm.trans h)
    have hnode : g.node r.node = .error (.accessReleased r.node) := if_neg hn
    rw [hnode₁, hnode]
    rfl

namespace Dictates

theorem nil (g : Graph α) : g.Dictates [] "" := fun before => by
  rw [List.foldlM_nil, String.append_empty]
  rfl

theorem append {reports reports' : List Report} {text text' : String} (h : g.Dictates reports text)
    (h' : g.Dictates reports' text') : g.Dictates (reports ++ reports') (text ++ text') := fun before => by
  rw [List.foldlM_append, h before, Checked.ok_bind, h', String.append_assoc]

theorem single {r : Report} {text : String} (h : g.pieceAt r = .ok text) : g.Dictates [r] text := fun before => by
  rw [List.foldlM_cons, h]
  rfl

end Dictates

/-! ### What a search comes to -/

/-- The search that a formula is written from. -/
def writing : Plan := ⟨writingStages, true, fun _ => false⟩

theorem skipsAt_writing (trace : List Report) (stage : Stage) : writing.skipsAt trace stage = false := by
  simp [Plan.skipsAt, writing]

/-- A search goes on with reports that come to a text, not too many of them. -/
def Adds (g : Graph α) (s s' : Progress) (count : Nat) (text : String) : Prop :=
  ∃ reports, s'.trace = s.trace ++ reports ∧ reports.length ≤ count ∧ g.Dictates (writing.shown reports) text

namespace Adds

variable {s s₁ s' : Progress} {count count' : Nat} {text text' : String}

theorem trans (h : g.Adds s s₁ count text) (h' : g.Adds s₁ s' count' text') :
    g.Adds s s' (count + count') (text ++ text') := by
  obtain ⟨reports, htrace, hlen, htext⟩ := h
  obtain ⟨reports', htrace', hlen', htext'⟩ := h'
  refine ⟨reports ++ reports', by rw [htrace', htrace, List.append_assoc], ?_, ?_⟩
  · rw [List.length_append]
    exact Nat.add_le_add hlen hlen'
  · rw [Plan.shown, List.filter_append]
    exact htext.append htext'

theorem report {r : Report} (hstage : writing.stops.contains r.stage = true) (h : g.pieceAt r = .ok text) :
    g.Adds s (s.report r) 1 text := by
  refine ⟨[r], rfl, Nat.le_refl 1, ?_⟩
  rw [Plan.shown, List.filter_singleton, hstage]
  exact .single h

theorem mono (h : g.Adds s s' count text) (hle : count ≤ count') : g.Adds s s' count' text := by
  obtain ⟨reports, htrace, hlen, htext⟩ := h
  exact ⟨reports, htrace, hlen.trans hle, htext⟩

/-- What is not shown adds nothing. -/
theorem pass (h : g.Adds s s₁ count text) {r : Report} (hstage : writing.stops.contains r.stage = false) :
    g.Adds s (s₁.report r) (count + 1) text := by
  obtain ⟨reports, htrace, hlen, htext⟩ := h
  refine ⟨reports ++ [r], ?_, ?_, ?_⟩
  · rw [Progress.report, htrace, List.append_assoc]
  · rw [List.length_append]
    exact Nat.succ_le_succ hlen
  · rwa [writing.shown_concat_of_not hstage]

end Adds

variable {n : NodeId} {node : Node α} {i : Nat} {s : Progress}

/-- **Siblings.** If the search adds the text of each child, it adds the parts for all of them. -/
theorem adds_siblings (parent : Option NodeId) (hnode : g.node n = .ok node) {f : NodeId → Checked α String}
    {visit : (c : NodeId) → g.arena.IsOperand c n → Progress → Progress}
    (hvisit : ∀ c hc s text, f c = .ok text → ∃ k, k + 2 ≤ 4 * g.arena.weight c ∧ g.Adds s (visit c hc s) k text)
    (cs : List NodeId) (hcs : ∀ c ∈ cs, g.arena.IsOperand c n) {texts parts : List String}
    (htexts : cs.mapM f = .ok texts)
    (hparts : (texts.zipIdx i).mapM (fun p => (· ++ p.1) <$> Formula.separator node.kind p.2) = .ok parts) :
    g.Adds s (writing.siblings parent n visit cs hcs i s) (4 * (cs.map g.arena.weight).sum) (String.join parts) := by
  induction cs generalizing i s texts parts with
  | nil =>
    obtain rfl : [] = texts := Except.ok.inj htexts
    obtain rfl : [] = parts := Except.ok.inj hparts
    exact ⟨[], (List.append_nil _).symm, Nat.zero_le _, .nil g⟩
  | cons c cs ih =>
    rw [List.mapM_cons] at htexts
    obtain ⟨text, htext, htexts⟩ := Checked.bind_eq_ok.mp htexts
    obtain ⟨rest, hrest, htexts⟩ := Checked.bind_eq_ok.mp htexts
    obtain rfl := Except.ok.inj htexts
    rw [List.zipIdx_cons, List.mapM_cons] at hparts
    obtain ⟨part, hpart, hparts⟩ := Checked.bind_eq_ok.mp hparts
    obtain ⟨between, hbetween, rfl⟩ := Checked.map_eq_ok.mp hpart
    obtain ⟨parts, hparts', hparts⟩ := Checked.bind_eq_ok.mp hparts
    obtain rfl := Except.ok.inj hparts
    obtain ⟨k, hk, hchild⟩ := hvisit c (hcs c List.mem_cons_self) (s.report ⟨n, .visitingChild, some i, parent⟩) text
      htext
    have hvisiting : g.Adds s (s.report ⟨n, .visitingChild, some i, parent⟩) 1 between := by
      refine .report rfl ?_
      rw [pieceAt, hnode]
      exact hbetween
    have hvisited := (hvisiting.trans hchild).pass (r := ⟨n, .visitedChild, some i, parent⟩) rfl
    have hall := hvisited.trans (ih (fun c hc => hcs c (List.mem_cons_of_mem _ hc)) hrest hparts')
    rw [Plan.siblings]
    simp only [skipsAt_writing, Bool.false_eq_true, if_false]
    rw [if_neg (by simp [Plan.passesBy, writing]), String.join_cons]
    refine hall.mono ?_
    rw [List.map_cons, List.sum_cons]
    omega

/-- **Nodes.** The search adds the formula of the expression at the node. -/
theorem adds_search (h : g.arena.Acyclic) {root : NodeId} (halive : ∀ n, g.arena.Below n root → g.isAlive n = true)
    (n : NodeId) (hn : g.arena.Below n root) {text : String}
    (htext : (g.unfold h n).formula g.handlerFor = .ok text) (parent : Option NodeId) (s : Progress) :
    ∃ k, k + 2 ≤ 4 * g.arena.weight n ∧ g.Adds s (writing.search h parent n s) k text := by
  induction n using h.induction generalizing parent s text with
  | _ n ih =>
    obtain ⟨node, hnode?, -⟩ := Arena.exists_node?_of_isAlive (halive n hn)
    have hnode := node_of_isAlive (halive n hn) hnode?
    have hkind : g.kindAt n = node.kind := by rw [kindAt, hnode?]; rfl
    have hoperands : g.arena.operands n = node.children := Arena.operands_eq_of_node? hnode?
    rw [Expression.formula, fold_unfold, ← Expression.formula] at htext
    obtain ⟨texts, htexts, htext⟩ := Checked.bind_eq_ok.mp htext
    obtain ⟨parts, hparts, htext⟩ := Checked.bind_eq_ok.mp htext
    obtain rfl := Except.ok.inj htext
    have hlength : texts.length = node.children.length := by
      rw [Checked.length_of_mapM htexts, hoperands]
    have henter : g.Adds s (s.report ⟨n, .enter, none, parent⟩) 1
        (Formula.opening (g.handlerFor node.kind).name node.kind node.children.length) := .report rfl (by
      rw [pieceAt, hnode]
      rfl)
    have hsiblings := adds_siblings parent hnode
      (fun c hc s text htext => ih c hc ((Arena.IsOperand.below hc).trans hn) htext (some n) s) (g.arena.operands n)
      (fun _ hc => hc) (s := s.report ⟨n, .enter, none, parent⟩) htexts (hkind ▸ hparts)
    have hall := (henter.trans hsiblings).trans (.report (r := ⟨n, .leave, none, parent⟩) rfl (by
      rw [pieceAt, hnode]
      rfl))
    have hweight := Arena.sum_weight_operands_lt (h.apply n)
    rw [Plan.search, hkind, hlength]
    simp only [skipsAt_writing, Bool.false_eq_true, if_false]
    exact ⟨_, by omega, hall⟩

/-- **Formulas** are written by recursion. -/
theorem Analysable.map_formula {root : NodeId} (h : g.Analysable root) {text : String}
    (htext : (g.unfold h.acyclic root).formula g.handlerFor = .ok text) : Prod.snd <$> g.formula root = .ok text := by
  have hroot := Arena.lt_capacity_of_isAlive (h.isAlive root (.refl _ root))
  obtain ⟨w, g₁, w', g', hstart, htours⟩ := Walk.exists_tours (w := { g.newWalk with stops := writingStages })
    (p := writing) h.tagsGiven h.acyclic h.operandsInside rfl (Or.inr h.slot) rfl hroot
  obtain ⟨k, hk, reports, htrace, hlen, hreports⟩ :=
    adds_search h.acyclic h.isAlive root (.refl _ root) htext none .start
  obtain ⟨-, hwalked⟩ := (Walk.Guest.meets_start h.tagsGiven rfl rfl rfl (some root)).of_observe
    (r := ((w, g₁), ())) (by rw [hstart]; rfl)
  have hshort : (writing.shown reports).length < 2 ^ g₁.walkExponent := by
    have hfilter : (writing.shown reports).length ≤ reports.length := List.length_filter_le ..
    have hweight := g.arena.weight_le root
    rw [walkExponent, hwalked.children.edgeCount_eq, Nat.pow_add]
    omega
  have hshown : (writing.search h.acyclic none root .start).trace = reports := htrace
  rw [hshown, ← List.nil_append (writing.shown reports)] at htours
  have hread := hreports ""
  rw [String.empty_append] at hread
  have hvisit : ∀ (w : Walk) (g₁ : Graph α) (r : Report) (text : String), g.Walked g₁ → w.report g₁ = .ok r →
      formulaVisit w r.node (g₁, text) = (g₁, ·) <$> ((text ++ ·) <$> g.pieceAt r) := fun w g₁ r text hg hreport => by
    rw [formulaVisit, formulaPiece_eq hg hreport]
    cases g.pieceAt r <;> rfl
  obtain ⟨w₂, g₂, hvisits⟩ := htours.visitAll_eq hvisit hwalked hshort hread
  have hstart : ({ g.newWalk with stops := writingStages } : Walk).start g (some root) .depthFirst true =
    .ok (w, g₁) := hstart
  rw [formula_eq, hstart, Checked.ok_bind]
  simp only [hvisits]
  rfl

end Graph

namespace Expression

/-- Each operand has something that stands before it. -/
theorem exists_separator {kind : Kind α} {count i : Nat} (htakes : kind.Takes count) (hi : i < count) :
    ∃ text, Formula.separator kind i = .ok text := by
  cases kind with
  | sum coefs constant =>
    have hlt : i < coefs.length := (Kind.takes_sum_iff.mp htakes).symm ▸ hi
    refine ⟨_, Checked.bind_eq_ok.mpr ⟨coefs[i], ?_, rfl⟩⟩
    rw [Checked.get, List.getElem?_eq_getElem hlt]
  | _ => exact ⟨_, rfl⟩

/-- A node can be written, from the texts of as many operands as it takes. -/
theorem exists_compose (name : String) {kind : Kind α} {texts : List String} (htakes : kind.Takes texts.length) :
    ∃ text, Formula.compose name kind texts = .ok text := by
  have hparts : ∀ p ∈ texts.zipIdx, ∃ part, (· ++ p.1) <$> Formula.separator kind p.2 = .ok part := by
    intro p hp
    obtain ⟨between, hbetween⟩ := exists_separator htakes (List.mem_zipIdx' hp).1
    exact ⟨between ++ p.1, by rw [hbetween]; rfl⟩
  choose! part hpart using hparts
  rw [Formula.compose, Checked.mapM_eq_ok hpart]
  exact ⟨_, rfl⟩

/-- An expression can be written. -/
theorem exists_formula (handlers : Kind α → Handler α) {e : Expression α} (hproper : e.Proper) :
    ∃ text, e.formula handlers = .ok text := by
  induction e using ind with
  | node kind activity es ih =>
    have htexts : ∀ e ∈ es, ∃ text, e.formula handlers = .ok text := fun e he => ih e he (hproper.operand he)
    choose! text htext using htexts
    rw [formula_node, Checked.mapM_eq_ok htext, Checked.ok_bind]
    exact exists_compose _ ((List.length_map text).symm ▸ hproper kind activity es .refl)

/-- Two expressions are the same tree if they differ in what is cached at most. -/
inductive SameTree : Expression α → Expression α → Prop
  | node {kind : Kind α} {activity activity' : Interval α} {es es' : List (Expression α)}
      (h : List.Forall₂ SameTree es es') : SameTree (.node kind activity es) (.node kind activity' es')

/-- The formula depends on the tree, and on the names of the handlers. -/
theorem SameTree.formula_eq {handlers handlers' : Kind α → Handler α} {e e' : Expression α} (h : e.SameTree e')
    (hnames : ∀ k, (handlers k).name = (handlers' k).name) : e.formula handlers = e'.formula handlers' := by
  induction e using ind generalizing e' with
  | node kind activity es ih =>
    cases h with
    | @node _ _ _ _ es' hall =>
      have htexts : es.mapM (formula handlers) = es'.mapM (formula handlers') := by
        induction hall with
        | nil => rfl
        | @cons e e' es es' he _ ihs =>
          rw [List.mapM_cons, List.mapM_cons, ih e List.mem_cons_self he,
            ihs fun e he => ih e (List.mem_cons_of_mem _ he)]
      rw [formula_node, formula_node, htexts, hnames]

end Expression

namespace Commons

variable [BitPattern α] {s : Commons α} {root : NodeId}

/-- The formula of a root is that of its expression. -/
theorem Exhibits.map_formula (h : s.Exhibits root) : ∃ text, Prod.snd <$> s.graph.formula root = .ok text ∧
    (s.graph.unfold h.acyclic root).formula s.graph.handlerFor = .ok text := by
  obtain ⟨text, htext⟩ := Expression.exists_formula s.graph.handlerFor h.proper
  exact ⟨text, h.analysable.map_formula htext, htext⟩

end Commons

end IntervalDag
