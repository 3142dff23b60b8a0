import IntervalDag.Proofs.Walk.Recursion

/-!
# Operands first

Walks can visit the nodes below a root in such an order that each node comes once, after its operands and after all that
lies to the left of some way down to it (`Postorder`). Depth-first search leaves nodes in such an order
(`Plan.retires_search`).
-/

namespace IntervalDag

variable {α : Type}

/-- After the nodes `left`, last one first, the nodes `ns` are left one by one: each of them once, after its operands,
and after everything to the left of a way down to it from the root. -/
inductive OperandsFirst (operands : NodeId → List NodeId) (root : NodeId) : List NodeId → List NodeId → Prop where
  | done (left : List NodeId) : OperandsFirst operands root left []
  | leave {left ns : List NodeId} {n : NodeId} {rest : List (NodeId × Nat)} (hnew : n ∉ left)
      (hops : ∀ c ∈ operands n, c ∈ left) (hpending : Pending operands (· ∈ left) root n rest)
      (hrest : OperandsFirst operands root (n :: left) ns) : OperandsFirst operands root left (n :: ns)

/-- All nodes at or below a root, operands first. -/
structure Postorder (operands : NodeId → List NodeId) (root : NodeId) (ns : List NodeId) : Prop where
  operandsFirst : OperandsFirst operands root [] ns
  root_mem : root ∈ ns

namespace OperandsFirst

variable {operands : NodeId → List NodeId} {root n : NodeId} {left ns ms : List NodeId}

theorem append (h : OperandsFirst operands root left ns) (h' : OperandsFirst operands root (ns.reverse ++ left) ms) :
    OperandsFirst operands root left (ns ++ ms) := by
  induction h with
  | done => exact h'
  | leave hnew hops hpending _ ih =>
    rw [List.reverse_cons, List.append_assoc] at h'
    exact .leave hnew hops hpending (ih h')

theorem nodup (h : OperandsFirst operands root left ns) : ns.Nodup ∧ ∀ n ∈ ns, n ∉ left := by
  induction h with
  | done => exact ⟨List.nodup_nil, nofun⟩
  | leave hnew _ _ _ ih =>
    obtain ⟨hnodup, hfresh⟩ := ih
    refine ⟨List.nodup_cons.mpr ⟨fun hn => hfresh _ hn List.mem_cons_self, hnodup⟩, fun m hm => ?_⟩
    rcases List.mem_cons.mp hm with rfl | hm
    · exact hnew
    · exact fun hleft => hfresh m hm (List.mem_cons_of_mem _ hleft)

/-- The operands of a node that is left were left. -/
theorem operand_mem (h : OperandsFirst operands root left ns) (hn : n ∈ ns) {c : NodeId} (hc : c ∈ operands n) :
    c ∈ left ∨ c ∈ ns := by
  induction h with
  | done => cases hn
  | leave _ hops _ _ ih =>
    rcases List.mem_cons.mp hn with rfl | hn
    · exact Or.inl (hops c hc)
    · rcases ih hn with hleft | hns
      · rw [List.mem_cons] at hleft
        exact hleft.elim (fun heq => Or.inr (heq ▸ List.mem_cons_self)) Or.inl
      · exact Or.inr (List.mem_cons_of_mem _ hns)

theorem below_root {a : Arena α} (h : OperandsFirst a.operands root left ns) (hn : n ∈ ns) : a.Below n root := by
  induction h with
  | done => cases hn
  | leave _ _ hpending _ ih =>
    rcases List.mem_cons.mp hn with rfl | hn
    · exact hpending.below_root
    · exact ih hn

end OperandsFirst

namespace Postorder

variable {a : Arena α} {root n : NodeId} {ns : List NodeId}

theorem mem_iff (h : Postorder a.operands root ns) (n : NodeId) : n ∈ ns ↔ a.Below n root := by
  constructor
  · exact h.operandsFirst.below_root
  · intro hn
    induction hn using Relation.ReflTransGen.head_induction_on with
    | refl => exact h.root_mem
    | head hop _ ih => exact (h.operandsFirst.operand_mem ih hop).resolve_left List.not_mem_nil

/-- Every node but the root is an operand of one. -/
theorem length_le (h : Postorder a.operands root ns) : ns.length ≤ a.edgeCount + 1 := by
  have hsub : ns.erase root ⊆ (List.range a.capacity).flatMap a.operands := by
    intro n hn
    rw [h.operandsFirst.nodup.1.mem_erase_iff, h.mem_iff] at hn
    obtain ⟨m, hop, -⟩ := (Relation.ReflTransGen.cases_head hn.2).resolve_left hn.1
    have hm : m < a.capacity := by
      by_contra hm
      rw [Arena.IsOperand, Arena.operands_eq_nil_of_le (Nat.le_of_not_lt hm)] at hop
      cases hop
    exact List.mem_flatMap.mpr ⟨m, List.mem_range.mpr hm, hop⟩
  have hle := ((h.operandsFirst.nodup.1.erase root).subperm hsub).length_le
  rw [List.length_erase_of_mem h.root_mem, List.length_flatMap] at hle
  rw [a.edgeCount_eq]
  exact Nat.sub_le_iff_le_add.mp hle

end Postorder

/-! ### Depth-first search -/

namespace Plan

/-- Reports of leaving nodes of a kind, operands first. -/
structure Retires (a : Arena α) (root : NodeId) (P : NodeId → Prop) (s : Progress) (reports : List Report)
    (s' : Progress) : Prop where
  trace_eq : s'.trace = s.trace ++ reports
  left_eq : s'.left = (nodesAt .leave reports).reverse ++ s.left
  operandsFirst : OperandsFirst a.operands root s.left (nodesAt .leave reports)
  within : ∀ n ∈ nodesAt .leave reports, P n

namespace Retires

variable {a : Arena α} {root n : NodeId} {P Q : NodeId → Prop} {s s₁ s₂ : Progress} {reports reports' : List Report}

theorem none (s : Progress) : Retires a root P s [] s :=
  ⟨(List.append_nil _).symm, rfl, .done s.left, nofun⟩

/-- A report of something else. -/
theorem report {r : Report} (hr : r.stage ≠ .leave) (s : Progress) : Retires a root P s [r] (s.report r) := by
  have hnone : nodesAt .leave [r] = [] := by rw [nodesAt_singleton, if_neg hr]
  refine ⟨rfl, ?_, ?_, ?_⟩
  · rw [hnone]
    rfl
  · rw [hnone]
    exact .done s.left
  · rw [hnone]
    nofun

theorem mono (h : Retires a root P s reports s₁) (hPQ : ∀ n, P n → Q n) : Retires a root Q s reports s₁ :=
  ⟨h.trace_eq, h.left_eq, h.operandsFirst, fun n hn => hPQ n (h.within n hn)⟩

theorem append (h : Retires a root P s reports s₁) (h' : Retires a root P s₁ reports' s₂) :
    Retires a root P s (reports ++ reports') s₂ := by
  have hleft := h.left_eq
  refine ⟨by rw [h'.trace_eq, h.trace_eq, List.append_assoc], ?_, ?_, fun n hn => ?_⟩
  · rw [h'.left_eq, hleft, nodesAt_append, List.reverse_append, List.append_assoc]
  · rw [nodesAt_append]
    exact h.operandsFirst.append (hleft ▸ h'.operandsFirst)
  · rw [nodesAt_append, List.mem_append] at hn
    exact hn.elim (h.within n) (h'.within n)

theorem after_report {r : Report} (hr : r.stage ≠ .leave) (h : Retires a root P (s.report r) reports s₁) :
    Retires a root P s (r :: reports) s₁ := (report hr s).append h

/-- What was left stays so. -/
theorem subset (h : Retires a root P s reports s₁) : s.left ⊆ s₁.left := by
  rw [h.left_eq]
  exact List.subset_append_right _ _

/-- Leaving a node whose operands were left. -/
theorem leave (hn : n ∉ s.left) (hops : ∀ c ∈ a.operands n, c ∈ s.left) {rest : List (NodeId × Nat)}
    (hpending : Pending a.operands (· ∈ s.left) root n rest) (parent : Option NodeId) :
    Retires a root (· = n) s [⟨n, .leave, Option.none, parent⟩]
      ((s.report ⟨n, .leave, Option.none, parent⟩).leave n) := by
  refine ⟨rfl, rfl, .leave hn hops hpending (.done _), fun m hm => ?_⟩
  exact List.mem_singleton.mp hm

end Retires

variable {p : Plan} {a : Arena α} {root n : NodeId} {rest : List (NodeId × Nat)}

/-- **Siblings.** If `visit` leaves a child after all that lies below it, then going through the children leaves all of
them. -/
theorem retires_siblings (hrevisits : p.revisits = false) (hskips : ∀ shown, p.skips shown = false)
    (parent : Option NodeId) {visit : (c : NodeId) → a.IsOperand c n → Progress → Progress}
    (hvisit : ∀ c hc s rest, c ∉ s.left → Pending a.operands (· ∈ s.left) root c rest →
      ∃ reports, Retires a root (a.Below · c) s reports (visit c hc s) ∧ c ∈ (visit c hc s).left)
    (cs : List NodeId) (hcs : ∀ c ∈ cs, a.IsOperand c n) (i : Nat) (hdrop : (a.operands n).drop i = cs) {s : Progress}
    (hpending : Pending a.operands (· ∈ s.left) root n rest)
    (hdone : ∀ j d, j < i → (a.operands n)[j]? = some d → d ∈ s.left) :
    ∃ reports, Retires a root (fun m => ∃ c ∈ a.operands n, a.Below m c) s reports
        (p.siblings parent n visit cs hcs i s) ∧
      ∀ c ∈ a.operands n, c ∈ (p.siblings parent n visit cs hcs i s).left := by
  have hnever : ∀ trace stage, p.skipsAt trace stage = false := fun trace stage => by simp [skipsAt, hskips]
  induction cs generalizing i s with
  | nil =>
    refine ⟨[], .none s, fun c hc => ?_⟩
    obtain ⟨j, hj⟩ := List.mem_iff_getElem?.mp hc
    have hlt := (List.getElem?_eq_some_iff.mp hj).1
    exact hdone j c (Nat.lt_of_lt_of_le hlt (List.drop_eq_nil_iff.mp hdrop)) hj
  | cons c cs ih =>
    have hcs' : ∀ c ∈ cs, a.IsOperand c n := fun c hc => hcs c (List.mem_cons_of_mem _ hc)
    have hc : (a.operands n)[i]? = some c := by
      rw [← List.head?_drop, hdrop]
      rfl
    have hdrop' : (a.operands n).drop (i + 1) = cs := by
      rw [← List.tail_drop, hdrop]
      rfl
    have hnext : ∀ {s₁ : Progress}, s.left ⊆ s₁.left → c ∈ s₁.left →
        ∀ j d, j < i + 1 → (a.operands n)[j]? = some d → d ∈ s₁.left := by
      intro s₁ hsub hleft j d hj hd
      rcases Nat.lt_succ_iff_lt_or_eq.mp hj with hj | rfl
      · exact hsub (hdone j d hj hd)
      · rw [hc] at hd
        exact Option.some.inj hd ▸ hleft
    rw [siblings]
    by_cases hleft : c ∈ s.left
    · rw [if_pos (by simp [passesBy, hrevisits, hleft])]
      exact ih hcs' (i + 1) hdrop' hpending (hnext (List.Subset.refl _) hleft)
    · rw [if_neg (by simp [passesBy, hleft])]
      simp only [hnever, Bool.false_eq_true, if_false]
      have hop := hcs c List.mem_cons_self
      obtain ⟨inside, hinside, hmem⟩ := hvisit c hop (s.report ⟨n, .visitingChild, some i, parent⟩)
        ((n, i + 1) :: rest) hleft (.child hpending hc hdone)
      have hinside := hinside.mono (Q := fun m => ∃ c ∈ a.operands n, a.Below m c) fun m hm => ⟨c, hop, hm⟩
      have hchild := (hinside.after_report (r := ⟨n, .visitingChild, some i, parent⟩) (by simp)).append
        (.report (r := ⟨n, .visitedChild, some i, parent⟩) (by simp) _)
      obtain ⟨reports, hreports, hall⟩ := ih hcs' (i + 1) hdrop' (hpending.mono fun _ hm => hchild.subset hm)
        (hnext hchild.subset hmem)
      exact ⟨_, hchild.append hreports, hall⟩

/-- **Nodes.** The search leaves a node after all that lies below it, from left to right. -/
theorem retires_search (hrevisits : p.revisits = false) (hskips : ∀ shown, p.skips shown = false) (h : a.Acyclic)
    (parent : Option NodeId) (n : NodeId) {s : Progress} (hn : n ∉ s.left)
    (hpending : Pending a.operands (· ∈ s.left) root n rest) :
    ∃ reports, Retires a root (a.Below · n) s reports (p.search h parent n s) ∧ n ∈ (p.search h parent n s).left := by
  induction n using h.induction generalizing parent s rest with
  | _ n ih =>
    have hnever : ∀ trace, p.skipsAt trace .enter = false := fun trace => by simp [skipsAt, hskips]
    obtain ⟨inside, hinside, hall⟩ := retires_siblings (s := s.report ⟨n, .enter, none, parent⟩) hrevisits hskips parent
      (fun c hc s rest hleft hpending => ih c hc (some n) hleft hpending) (a.operands n) (fun _ hc => hc) 0 rfl hpending
      (fun j _ hj => absurd hj (Nat.not_lt_zero j))
    rw [search]
    simp only [hnever, Bool.false_eq_true, if_false]
    have hentered := hinside.after_report (r := ⟨n, .enter, none, parent⟩) (by simp)
    -- nothing that was left below the operands is the node itself
    have hnew : n ∉ (p.siblings parent n (fun c _ s => p.search h (some n) c s) (a.operands n) (fun _ hc => hc) 0
        (s.report ⟨n, .enter, none, parent⟩)).left := by
      rw [hentered.left_eq, List.mem_append, List.mem_reverse, not_or]
      refine ⟨fun hmem => ?_, hn⟩
      obtain ⟨c, hc, hbelow⟩ := hentered.within n hmem
      exact h.not_below hc hbelow
    have hleave := Retires.leave hnew hall (hpending.mono fun _ hm => hentered.subset hm) parent
    refine ⟨_, (hentered.mono fun m hm => ?_).append (hleave.mono fun m hm => ?_), List.mem_cons_self⟩
    · exact Arena.below_iff.mpr (Or.inr hm)
    · exact hm ▸ .refl a m

end Plan

end IntervalDag
