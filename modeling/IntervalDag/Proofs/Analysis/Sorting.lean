import Std.Data.HashSet.Lemmas
import Mathlib.Data.List.Nodup
import IntervalDag.Analysis.DepthFirstSort
import IntervalDag.Proofs.Analysis.Digraphs

/-!
# Sorting by depth-first search

Depth-first sort sorts (`Digraph.Sorter.sorts_depthFirst`). Its two passes are considered over any lists of
successors and predecessors.

* `Search.Sound.searchAll`: the first pass ends with all vertices finished, or at a vertex that is its own successor.
  Unless there is a cycle, successors are finished before the vertices that they succeed.
* `passOverAll`: the second pass goes through only if predecessors come first, and it goes through unless there is a
  cycle.

An entry of the stack is seen again after all that is above it. So what carries the first pass is that an open vertex
reaches all that is above its first entry on the stack, while its successors are above it or finished
(`Search.Sound.reached`, `Search.Sound.successors_covered`). A successor that was open already would close a cycle.
-/

namespace IntervalDag.Digraph

open scoped List

/-! ### Computations that may be refused -/

section

variable {β γ δ : Type} {x : Except Nat β} {f : β → Except Nat γ} {E : Nat → Prop} {P : β → Prop} {Q : γ → Prop}

/-- The computation answers as `Q` allows, or is refused at a vertex as `E` allows. -/
def Answers (E : Nat → Prop) (Q : β → Prop) : Except Nat β → Prop
  | .ok b => Q b
  | .error v => E v

theorem Answers.bind (h : Answers E P x) (hf : ∀ b, P b → Answers E Q (f b)) : Answers E Q (x >>= f) := by
  cases x with
  | error v => exact h
  | ok b => exact hf b h

/-- A fold keeps what each of its steps keeps. -/
theorem answers_foldlM {f : γ → δ → Except Nat γ} {I : List δ → γ → Prop} {xs : List δ} {c : γ} (h : I [] c)
    (hstep : ∀ past x rest c, xs = past ++ x :: rest → I past c → Answers E (I (past ++ [x])) (f c x)) :
    Answers E (I xs) (xs.foldlM f c) := by
  suffices hsuffix : ∀ past rest c, xs = past ++ rest → I past c → Answers E (I xs) (rest.foldlM f c) from
    hsuffix [] xs c rfl h
  intro past rest
  induction rest generalizing past with
  | nil =>
    intro c hxs hI
    rw [List.append_nil] at hxs
    rw [hxs]
    exact hI
  | cons x rest ih =>
    intro c hxs hI
    rw [List.foldlM_cons]
    refine (hstep past x rest c hxs hI).bind fun c' hI' => ih _ c' ?_ hI'
    rw [List.append_assoc]
    exact hxs

end

/-! ### Successors and predecessors -/

/-- **The table of targets** has those of each source, latest edge first. -/
theorem getElem?_targets (size : Nat) (edges : Array (Nat × Nat)) (v : Nat) : (targets size edges)[v]? =
    if v < size then some (edges.toList.filterMap fun e => if e.1 = v then some e.2 else none).reverse else none := by
  have hfold : ∀ (es : List (Nat × Nat)) (table : Array (List Nat)),
      (es.foldl (fun table e => table.modify e.1 (e.2 :: ·)) table)[v]? =
        table[v]?.map ((es.filterMap fun e => if e.1 = v then some e.2 else none).reverse ++ ·) := by
    intro es
    induction es with
    | nil => simp
    | cons e es ih =>
      intro table
      rw [List.foldl_cons, ih, Array.getElem?_modify]
      by_cases he : e.1 = v
      · simp [he, Function.comp_def]
      · simp [he]
  rw [targets, ← Array.foldl_toList, hfold, Array.getElem?_replicate]
  split_ifs <;> simp

theorem mem_targets {size : Nat} {edges : Array (Nat × Nat)} {v w : Nat} (hv : ∀ e ∈ edges, e.1 < size) :
    w ∈ (targets size edges)[v]?.getD [] ↔ (v, w) ∈ edges := by
  rw [getElem?_targets]
  split_ifs with hsize
  · rw [Option.getD_some, List.mem_reverse, List.mem_filterMap]
    constructor
    · rintro ⟨e, he, hw⟩
      obtain ⟨hv, hw⟩ := Option.ite_none_right_eq_some.mp hw
      rw [← hv, ← Option.some.inj hw]
      exact Array.mem_toList_iff.mp he
    · exact fun he => ⟨(v, w), Array.mem_toList_iff.mpr he, if_pos rfl⟩
  · exact iff_of_false List.not_mem_nil fun he => hsize (hv (v, w) he)

/-- No vertex has more targets than there are edges. -/
theorem length_targets_le (size : Nat) (edges : Array (Nat × Nat)) (v : Nat) :
    ((targets size edges)[v]?.getD []).length ≤ edges.size := by
  rw [getElem?_targets]
  split_ifs
  · rw [Option.getD_some, List.length_reverse, ← Array.length_toList]
    exact List.length_filterMap_le ..
  · exact Nat.zero_le _

/-! ### The search for an order -/

/-- What is in a set after an insertion. -/
theorem contains_insert_iff {set : Std.HashSet Nat} {m n : Nat} :
    (set.insert n).contains m = true ↔ m = n ∨ set.contains m = true := by
  rw [Std.HashSet.contains_insert, Bool.or_eq_true, beq_iff_eq, eq_comm]

variable {successors : Nat → List Nat} {vertices listed : List Nat} {limit : Nat} {s : Search}

/-- Some vertex can be reached from itself by going to successors. -/
def HasCycle (successors : Nat → List Nat) : Prop := ∃ n, Relation.TransGen (fun n m => m ∈ successors n) n n

namespace Search

/-- What has to be looked at before a vertex on the stack is seen again. -/
def above (stack : List Nat) (n : Nat) : List Nat := stack.takeWhile (· != n)

theorem above_cons_self (n : Nat) (stack : List Nat) : above (n :: stack) n = [] :=
  List.takeWhile_cons_of_neg (by simp)

theorem above_cons_of_ne {m n : Nat} (h : m ≠ n) (stack : List Nat) :
    above (m :: stack) n = m :: above stack n :=
  List.takeWhile_cons_of_pos (by simp [h])

theorem above_append {pushed : List Nat} {n : Nat} (h : n ∉ pushed) (stack : List Nat) :
    above (pushed ++ stack) n = pushed ++ above stack n :=
  List.takeWhile_append_of_pos fun m hm => by
    rw [bne_iff_ne]
    rintro rfl
    exact h hm

/-- A vertex was reached and is not finished yet. -/
def IsOpen (s : Search) (n : Nat) : Prop := s.discovered.contains n = true ∧ n ∉ s.order

/-- What holds before every turn of a search from the vertices `listed` so far. -/
structure Sound (successors : Nat → List Nat) (vertices listed : List Nat) (s : Search) : Prop where
  nodup : s.order.Nodup
  finished_iff : ∀ n, s.finished.contains n = true ↔ n ∈ s.order
  discovered : ∀ n ∈ s.order, s.discovered.contains n = true
  inside : ∀ n, n ∈ s.order ∨ n ∈ s.stack → n ∈ vertices
  /-- what is asked for or reached is finished or will be -/
  covered : ∀ n, n ∈ listed ∨ s.discovered.contains n = true → n ∈ s.order ∨ n ∈ s.stack
  not_self : ∀ n, s.discovered.contains n = true → n ∉ successors n
  /-- open vertices reach all that is above them -/
  reached : ∀ n, s.IsOpen n → ∀ m ∈ above s.stack n, Relation.TransGen (fun n m => m ∈ successors n) n m
  /-- the successors of an open vertex are finished or above it -/
  successors_covered : ¬ HasCycle successors → ∀ n, s.IsOpen n → ∀ m ∈ successors n, m ∈ s.order ∨ m ∈ above s.stack n
  /-- the successors of a finished vertex were finished earlier -/
  successors_after : ¬ HasCycle successors → ∀ n ∈ s.order, ∀ m ∈ successors n, [n, m] <+ s.order

namespace Sound

/-- The search begins with nothing reached. -/
theorem initial : Sound successors vertices [] ⟨[], ∅, ∅, []⟩ where
  nodup := List.nodup_nil
  finished_iff n := by simp
  discovered n hn := by cases hn
  inside n hn := by simp at hn
  covered n hn := by simp at hn
  not_self n hn := by simp at hn
  reached n hn := by simp [IsOpen] at hn
  successors_covered _ n hn := by simp [IsOpen] at hn
  successors_after _ n hn := by cases hn

/-- When the stack is empty, all that was reached is finished. -/
theorem not_isOpen (h : Sound successors vertices listed s) (hstack : s.stack = []) (n : Nat) : ¬ s.IsOpen n := by
  rintro ⟨hn, horder⟩
  rcases h.covered n (Or.inr hn) with hn | hn
  · exact horder hn
  · rw [hstack] at hn
    cases hn

/-- A vertex that was reached needs no search. -/
theorem pass (h : Sound successors vertices listed s) {n : Nat} (hn : s.discovered.contains n = true) :
    Sound successors vertices (listed ++ [n]) s :=
  { h with
    covered := fun m hm => by
      rw [List.mem_append, List.mem_singleton] at hm
      rcases hm with (hm | rfl) | hm
      · exact h.covered m (Or.inl hm)
      · exact h.covered m (Or.inr hn)
      · exact h.covered m (Or.inr hm) }

/-- A search starts over with one vertex. -/
theorem start (h : Sound successors vertices listed s) (hstack : s.stack = []) {n : Nat} (hn : n ∈ vertices) :
    Sound successors vertices (listed ++ [n]) { s with stack := [n] } :=
  { h with
    inside := fun m hm => by
      rcases hm with hm | hm
      · exact h.inside m (Or.inl hm)
      · rwa [List.mem_singleton.mp hm]
    covered := fun m hm => by
      rw [List.mem_append] at hm
      rcases hm with (hm | hm) | hm
      · exact (h.covered m (Or.inl hm)).imp_right fun hm => by rw [hstack] at hm; cases hm
      · exact Or.inr hm
      · exact (h.covered m (Or.inr hm)).imp_right fun hm => by rw [hstack] at hm; cases hm
    reached := fun m hm => absurd hm (h.not_isOpen hstack m)
    successors_covered := fun _ m hm => absurd hm (h.not_isOpen hstack m) }

variable {n : Nat} {stack : List Nat}

/-- A vertex that was finished before is passed over. -/
theorem skip (h : Sound successors vertices listed s) (hstack : s.stack = n :: stack) (hn : n ∈ s.order) :
    Sound successors vertices listed { s with stack } := by
  have habove : ∀ m, s.IsOpen m → above s.stack m = n :: above stack m := fun m hm => by
    rw [hstack]
    refine above_cons_of_ne ?_ stack
    rintro rfl
    exact hm.2 hn
  exact { h with
    inside := fun m hm => h.inside m (hm.imp_right fun hm => by
      rw [hstack]
      exact List.mem_cons_of_mem n hm)
    covered := fun m hm => by
      rcases h.covered m hm with hm | hm
      · exact Or.inl hm
      · rw [hstack] at hm
        rcases List.mem_cons.mp hm with rfl | hm
        · exact Or.inl hn
        · exact Or.inr hm
    reached := fun m hm x hx => h.reached m hm x (by
      rw [habove m hm]
      exact List.mem_cons_of_mem n hx)
    successors_covered := fun hacyclic m hm x hx => by
      rcases h.successors_covered hacyclic m hm x hx with hx | hx
      · exact Or.inl hx
      · rw [habove m hm] at hx
        rcases List.mem_cons.mp hx with rfl | hx
        · exact Or.inl hn
        · exact Or.inr hx }

/-- A vertex that is seen again is finished. -/
theorem finish (h : Sound successors vertices listed s) (hstack : s.stack = n :: stack) (hn : s.IsOpen n) :
    Sound successors vertices listed { s with stack, finished := s.finished.insert n, order := n :: s.order } := by
  have hmem : n ∈ s.stack := by
    rw [hstack]
    exact List.mem_cons_self ..
  have hopen : ∀ m, s.discovered.contains m = true → m ∉ n :: s.order →
      s.IsOpen m ∧ above s.stack m = n :: above stack m := fun m hm horder => by
    rw [List.mem_cons, not_or] at horder
    rw [hstack]
    exact ⟨⟨hm, horder.2⟩, above_cons_of_ne (Ne.symm horder.1) stack⟩
  exact {
    nodup := List.nodup_cons.mpr ⟨hn.2, h.nodup⟩
    finished_iff := fun m => by
      rw [contains_insert_iff, h.finished_iff, List.mem_cons]
    discovered := fun m hm => by
      rcases List.mem_cons.mp hm with rfl | hm
      · exact hn.1
      · exact h.discovered m hm
    inside := fun m hm => by
      rcases hm with hm | hm
      · rcases List.mem_cons.mp hm with rfl | hm
        · exact h.inside m (Or.inr hmem)
        · exact h.inside m (Or.inl hm)
      · exact h.inside m (Or.inr (by rw [hstack]; exact List.mem_cons_of_mem n hm))
    covered := fun m hm => by
      rcases h.covered m hm with hm | hm
      · exact Or.inl (List.mem_cons_of_mem n hm)
      · rw [hstack] at hm
        exact (List.mem_cons.mp hm).imp_left fun heq => List.mem_cons.mpr (Or.inl heq)
    not_self := h.not_self
    reached := fun m hm x hx => by
      obtain ⟨hm, habove⟩ := hopen m hm.1 hm.2
      refine h.reached m hm x ?_
      rw [habove]
      exact List.mem_cons_of_mem n hx
    successors_covered := fun hacyclic m hm x hx => by
      obtain ⟨hm, habove⟩ := hopen m hm.1 hm.2
      rcases h.successors_covered hacyclic m hm x hx with hx | hx
      · exact Or.inl (List.mem_cons_of_mem n hx)
      · rw [habove] at hx
        exact (List.mem_cons.mp hx).imp_left fun heq => List.mem_cons.mpr (Or.inl heq)
    successors_after := fun hacyclic m hm x hx => by
      rcases List.mem_cons.mp hm with rfl | hm
      · -- nothing is above the vertex, so all its successors are finished
        rcases h.successors_covered hacyclic m hn x hx with hx | hx
        · exact (List.singleton_sublist.mpr hx).cons_cons m
        · rw [hstack, above_cons_self] at hx
          cases hx
      · exact (h.successors_after hacyclic m hm x hx).cons n }

/-- A vertex that is reached for the first time gets its successors on top of it. -/
theorem discover (h : Sound successors vertices listed s) (hclosed : ∀ m, m ∈ successors n → m ∈ vertices)
    (hstack : s.stack = n :: stack) (hn : s.discovered.contains n = false) (hself : n ∉ successors n) :
    Sound successors vertices listed { s with
      stack := ((successors n).filter fun m => !(s.discovered.insert n).contains m).reverse ++ s.stack
      discovered := s.discovered.insert n } := by
  have hmem : n ∈ s.stack := by
    rw [hstack]
    exact List.mem_cons_self ..
  have hfresh : n ∉ s.order := fun hn' => by
    rw [h.discovered n hn'] at hn
    cases hn
  generalize hpushed : ((successors n).filter fun m => !(s.discovered.insert n).contains m).reverse = pushed
  have hpushed_iff : ∀ m, m ∈ pushed ↔ m ∈ successors n ∧ ¬ (m = n ∨ s.discovered.contains m = true) := fun m => by
    rw [← hpushed, List.mem_reverse, List.mem_filter, Bool.not_eq_true', ← Bool.not_eq_true, contains_insert_iff]
  -- what was open stays so, with the new entries above it, and the vertex itself opens
  have hopen : ∀ m, ((s.discovered.insert n).contains m = true ∧ m ∉ s.order) →
      (m = n ∧ above (pushed ++ s.stack) m = pushed) ∨
        (s.IsOpen m ∧ n ∈ above s.stack m ∧ above (pushed ++ s.stack) m = pushed ++ above s.stack m) := by
    rintro m ⟨hm, horder⟩
    have hnot : m ∉ pushed := fun hm' => ((hpushed_iff m).mp hm').2 (contains_insert_iff.mp hm)
    rw [above_append hnot]
    by_cases heq : m = n
    · refine Or.inl ⟨heq, ?_⟩
      rw [hstack, heq, above_cons_self, List.append_nil]
    · refine Or.inr ⟨⟨(contains_insert_iff.mp hm).resolve_left heq, horder⟩, ?_, rfl⟩
      rw [hstack, above_cons_of_ne (Ne.symm heq)]
      exact List.mem_cons_self ..
  exact {
    nodup := h.nodup
    finished_iff := h.finished_iff
    discovered := fun m hm => contains_insert_iff.mpr (Or.inr (h.discovered m hm))
    inside := fun m hm => by
      rcases hm with hm | hm
      · exact h.inside m (Or.inl hm)
      · rcases List.mem_append.mp hm with hm | hm
        · exact hclosed m ((hpushed_iff m).mp hm).1
        · exact h.inside m (Or.inr hm)
    covered := fun m hm => by
      rw [contains_insert_iff] at hm
      have hold : m = n ∨ m ∈ s.order ∨ m ∈ s.stack := by
        rcases hm with hm | hm | hm
        · exact Or.inr (h.covered m (Or.inl hm))
        · exact Or.inl hm
        · exact Or.inr (h.covered m (Or.inr hm))
      rcases hold with rfl | hm | hm
      · exact Or.inr (List.mem_append_right pushed hmem)
      · exact Or.inl hm
      · exact Or.inr (List.mem_append_right pushed hm)
    not_self := fun m hm => by
      rcases contains_insert_iff.mp hm with rfl | hm
      · exact hself
      · exact h.not_self m hm
    reached := fun m hm x hx => by
      rcases hopen m hm with ⟨rfl, habove⟩ | ⟨hm, hn', habove⟩
      · rw [habove] at hx
        exact .single ((hpushed_iff x).mp hx).1
      · rw [habove] at hx
        rcases List.mem_append.mp hx with hx | hx
        · exact (h.reached m hm n hn').tail ((hpushed_iff x).mp hx).1
        · exact h.reached m hm x hx
    successors_covered := fun hacyclic m hm x hx => by
      rcases hopen m hm with ⟨rfl, habove⟩ | ⟨hm, -, habove⟩
      · rw [habove, hpushed_iff]
        by_cases hold : x = m ∨ s.discovered.contains x = true
        · refine Or.inl ?_
          have hdiscovered : s.discovered.contains x = true := hold.resolve_left fun heq => hself (heq ▸ hx)
          -- a successor that is still open would be reached from itself
          by_contra horder
          have hcovers : m ∈ above s.stack x := by
            have hne : m ≠ x := by
              rintro rfl
              exact hself hx
            rw [hstack, above_cons_of_ne hne]
            exact List.mem_cons_self ..
          exact hacyclic ⟨x, (h.reached x ⟨hdiscovered, horder⟩ m hcovers).tail hx⟩
        · exact Or.inr ⟨hx, hold⟩
      · rw [habove]
        exact (h.successors_covered hacyclic m hm x hx).imp_right (List.mem_append_right pushed)
    successors_after := h.successors_after }

/-- A bound on the turns to come, if no vertex has more than `limit` successors. -/
def remaining (vertices : List Nat) (limit : Nat) (s : Search) : Nat :=
  s.stack.length + (vertices.filter fun n => !s.discovered.contains n).length * (limit + 1)

/-- Reaching a vertex makes up for the successors that are put on the stack. -/
theorem remaining_discover (hn : n ∈ vertices) (hfresh : s.discovered.contains n = false)
    (hlimit : (successors n).length ≤ limit) :
    remaining vertices limit { s with
      stack := ((successors n).filter fun m => !(s.discovered.insert n).contains m).reverse ++ s.stack
      discovered := s.discovered.insert n } < remaining vertices limit s := by
  have hpushed : ((successors n).filter fun m => !(s.discovered.insert n).contains m).length ≤ (successors n).length :=
    List.length_filter_le ..
  have hfewer : (vertices.filter fun m => !(s.discovered.insert n).contains m).length <
      (vertices.filter fun m => !s.discovered.contains m).length := by
    have hfilter : (vertices.filter fun m => !(s.discovered.insert n).contains m) =
        (vertices.filter fun m => !s.discovered.contains m).filter fun m => !(n == m) := by
      rw [List.filter_filter]
      exact List.filter_congr fun m _ => by rw [Std.HashSet.contains_insert, Bool.not_or]
    rw [hfilter, List.length_filter_lt_length_iff_exists]
    exact ⟨n, List.mem_filter.mpr ⟨hn, by rw [hfresh]; rfl⟩, by simp⟩
  have hmul := Nat.mul_le_mul_right (limit + 1) (Nat.succ_le_of_lt hfewer)
  rw [Nat.succ_mul] at hmul
  simp only [remaining, List.length_append, List.length_reverse]
  omega

/-- **One search** ends with all that was asked for finished, or at a vertex that is its own successor. -/
theorem search {fuel : Nat} (h : Sound successors vertices listed s)
    (hclosed : ∀ n m, m ∈ successors n → m ∈ vertices) (hlimit : ∀ n, (successors n).length ≤ limit)
    (hfuel : remaining vertices limit s ≤ fuel) :
    Answers (fun v => HasCycle successors ∧ v ∈ vertices) (fun s' => Sound successors vertices listed s' ∧ s'.stack = [])
      (Digraph.search successors fuel s) := by
  induction fuel generalizing s with
  | zero =>
    refine ⟨h, List.eq_nil_of_length_eq_zero ?_⟩
    rw [remaining] at hfuel
    omega
  | succ fuel ih =>
    rcases hstack : s.stack with _ | ⟨n, stack⟩
    · rw [Digraph.search, hstack]
      exact ⟨h, hstack⟩
    have hpop : remaining vertices limit { s with stack } < remaining vertices limit s := by
      simp only [remaining, hstack, List.length_cons]
      omega
    rw [Digraph.search, hstack]
    dsimp only
    split_ifs with hn hfinished hself
    · exact ih (h.skip hstack ((h.finished_iff n).mp hfinished)) (Nat.le_of_lt_succ (Nat.lt_of_lt_of_le hpop hfuel))
    · have horder : n ∉ s.order := mt (h.finished_iff n).mpr hfinished
      exact ih (h.finish hstack ⟨hn, horder⟩) (Nat.le_of_lt_succ (Nat.lt_of_lt_of_le hpop hfuel))
    · have hmem : n ∈ successors n := List.contains_iff_mem.mp hself
      exact ⟨⟨n, .single hmem⟩, hclosed n n hmem⟩
    · have hn := Bool.eq_false_iff.mpr hn
      have hmem : n ∈ vertices := h.inside n (Or.inr (by rw [hstack]; exact List.mem_cons_self ..))
      refine hstack ▸ ih (h.discover (hclosed n) hstack hn fun hself' => hself (List.contains_iff_mem.mpr hself')) ?_
      exact Nat.le_of_lt_succ (Nat.lt_of_lt_of_le (remaining_discover hmem hn (hlimit n)) hfuel)

/-- **All searches.** Unless a vertex is its own successor, every vertex is finished in the end. -/
theorem searchAll {fuel : Nat} (hclosed : ∀ n m, m ∈ successors n → m ∈ vertices)
    (hlimit : ∀ n, (successors n).length ≤ limit) (hfuel : vertices.length * (limit + 1) + 1 ≤ fuel) :
    Answers (fun v => HasCycle successors ∧ v ∈ vertices)
      (fun s' => Sound successors vertices vertices s' ∧ s'.stack = [])
      (vertices.foldlM (searchFrom successors fuel) ⟨[], ∅, ∅, []⟩) := by
  refine answers_foldlM (I := fun listed s => Sound successors vertices listed s ∧ s.stack = []) ⟨initial, rfl⟩ ?_
  rintro past n rest s hvertices ⟨h, hstack⟩
  rw [searchFrom]
  split_ifs with hn
  · exact ⟨h.pass hn, hstack⟩
  · have hmem : n ∈ vertices := by
      rw [hvertices]
      exact List.mem_append_right past (List.mem_cons_self ..)
    refine (h.start hstack hmem).search hclosed hlimit (Nat.le_trans ?_ hfuel)
    have hle := Nat.mul_le_mul_right (limit + 1) (List.length_filter_le (fun n => !s.discovered.contains n) vertices)
    simp only [remaining, List.length_singleton]
    omega

end Sound

end Search

/-! ### The check for cycles -/

variable {predecessors : Nat → List Nat} {passed : Std.HashSet Nat} {E : Nat → Prop} {Q : Std.HashSet Nat → Prop}

/-- **One vertex** is passed over if its predecessors were, and otherwise one that was not is refused. -/
theorem answers_passOver {n : Nat}
    (hlate : ∀ m ∈ predecessors n, m ≠ n → passed.contains m = false → E m)
    (hproper : (∀ m ∈ predecessors n, m ≠ n → passed.contains m = true) → Q (passed.insert n)) :
    Answers E Q (passOver predecessors passed n) := by
  have hmem : ∀ m, m ∈ (predecessors n).filter (fun w => !(passed.insert n).contains w) ↔
      m ∈ predecessors n ∧ ¬ (m = n ∨ passed.contains m = true) := fun m => by
    rw [List.mem_filter, Bool.not_eq_true', ← Bool.not_eq_true, contains_insert_iff]
  rw [passOver]
  split
  · rename_i m hlast
    obtain ⟨hm, hnot⟩ := (hmem m).mp (List.mem_of_getLast? hlast)
    rw [not_or] at hnot
    exact hlate m hm hnot.1 (Bool.eq_false_iff.mpr hnot.2)
  · rename_i hnone
    refine hproper fun m hm hne => ?_
    by_contra hnot
    have hlate := (hmem m).mpr ⟨hm, fun h => h.elim hne hnot⟩
    rw [List.getLast?_eq_none_iff.mp hnone] at hlate
    cases hlate

/-- What comes before a member of a list without repetitions was listed by then. -/
theorem mem_of_sublist {past rest : List Nat} {c n : Nat} (hnodup : (past ++ n :: rest).Nodup)
    (h : [c, n] <+ past ++ n :: rest) : c ∈ past := by
  obtain ⟨before, after, heq, hbefore, hafter⟩ := List.sublist_append_iff.mp h
  rcases before with _ | ⟨d, before⟩
  · -- nothing can come between a member and itself
    rw [List.nil_append] at heq
    rw [← heq] at hafter
    have hnot : n ∉ rest := (List.nodup_cons.mp (List.nodup_append.mp hnodup).2.1).1
    rcases List.sublist_cons_iff.mp hafter with hrest | ⟨_, hcons, hrest⟩
    · exact absurd (hrest.subset (List.mem_cons_of_mem c (List.mem_singleton_self n))) hnot
    · rw [List.cons.injEq] at hcons
      rw [← hcons.2] at hrest
      exact absurd (List.singleton_sublist.mp hrest) hnot
  · rw [List.cons_append, List.cons.injEq] at heq
    exact hbefore.subset (heq.1 ▸ List.mem_cons_self ..)

/-- What is known after some vertices were passed over. -/
def ChecksOut (predecessors : Nat → List Nat) (past : List Nat) (passed : Std.HashSet Nat) : Prop :=
  (∀ n, passed.contains n = true ↔ n ∈ past) ∧ ∀ n ∈ past, ∀ c ∈ predecessors n, c ≠ n → [c, n] <+ past

/-- **The check** goes through if predecessors come first, except for vertices that are their own. -/
theorem passOverAll {order : List Nat} (hnodup : order.Nodup)
    (hsorted : ¬ HasCycle successors → ∀ n ∈ order, ∀ c ∈ predecessors n, [c, n] <+ order)
    (hclosed : ∀ n m, m ∈ predecessors n → m ∈ vertices) :
    Answers (fun v => HasCycle successors ∧ v ∈ vertices) (ChecksOut predecessors order)
      (order.foldlM (passOver predecessors) ∅) := by
  refine answers_foldlM (I := ChecksOut predecessors) ⟨by simp, by simp⟩ ?_
  rintro past n rest passed horder ⟨hpassed, hpast⟩
  rw [horder] at hnodup hsorted
  refine answers_passOver (fun m hm hne hnew => ⟨?_, hclosed n m hm⟩) fun hproper => ?_
  · by_contra hacyclic
    have hbefore := mem_of_sublist hnodup (hsorted hacyclic n (List.mem_append_right past (List.mem_cons_self ..)) m hm)
    rw [(hpassed m).mpr hbefore] at hnew
    cases hnew
  · refine ⟨fun m => ?_, fun m hm c hc hne => ?_⟩
    · rw [contains_insert_iff, hpassed, List.mem_append, List.mem_singleton, or_comm]
    · rcases List.mem_append.mp hm with hm | hm
      · exact (hpast m hm c hc hne).trans (List.sublist_append_left past [n])
      · rw [List.mem_singleton.mp hm] at hc hne ⊢
        have hbefore := (hpassed c).mp (hproper c hc hne)
        exact (List.singleton_sublist.mpr hbefore).append (List.Sublist.refl [n])

/-! ### Both passes -/

/-- A graph is sorted, or it is cyclic and refused at a vertex. -/
theorem answers_sortAlong {d : Digraph} {fuel : Nat} (hsuccessors : ∀ v w, w ∈ successors v ↔ (v, w) ∈ d.edges)
    (hpredecessors : ∀ v w, w ∈ predecessors v ↔ (w, v) ∈ d.edges) (hlimit : ∀ v, (successors v).length ≤ d.edges.size)
    (hfuel : d.nodes.size * (d.edges.size + 1) + 1 ≤ fuel) :
    Answers (fun v => d.IsCyclic ∧ v < d.nodes.size) d.IsSorted
      (sortAlong successors predecessors d.nodes.size fuel) := by
  have hrefused : (fun v => d.IsCyclic ∧ v < d.nodes.size) = fun v =>
      HasCycle successors ∧ v ∈ List.range d.nodes.size := by
    simp only [HasCycle, IsCyclic, hsuccessors, List.mem_range]
  rw [hrefused]
  rw [← List.length_range (n := d.nodes.size)] at hfuel
  have hsearch : Answers (fun v => HasCycle successors ∧ v ∈ List.range d.nodes.size) _ _ :=
    Search.Sound.searchAll (fun v w hw => List.mem_range.mpr (d.inside _ ((hsuccessors v w).mp hw)).2) hlimit hfuel
  refine hsearch.bind fun s ⟨hsound, hstack⟩ => ?_
  have hmem : ∀ v, v ∈ s.order ↔ v < d.nodes.size := fun v => by
    refine ⟨fun hv => List.mem_range.mp (hsound.inside v (Or.inl hv)), fun hv => ?_⟩
    rcases hsound.covered v (Or.inl (List.mem_range.mpr hv)) with hv | hv
    · exact hv
    · rw [hstack] at hv
      cases hv
  have hcheck : Answers (fun v => HasCycle successors ∧ v ∈ List.range d.nodes.size)
      (ChecksOut predecessors s.order) _ :=
    passOverAll hsound.nodup (fun hacyclic w hw v hv => ?_) fun v w hw => ?_
  · refine hcheck.bind fun _ hout => ⟨hsound.nodup, hmem, fun (v, w) he => ?_⟩
    obtain ⟨hv, hw⟩ := d.inside (v, w) he
    refine hout.2 w ((hmem w).mpr hw) v ((hpredecessors w v).mpr he) ?_
    rintro rfl
    exact hsound.not_self v (hsound.discovered v ((hmem v).mpr hv)) ((hsuccessors v v).mpr he)
  · have he := (hpredecessors w v).mp hv
    exact hsound.successors_after hacyclic v ((hmem v).mpr (d.inside _ he).1) w ((hsuccessors v w).mpr he)
  · exact List.mem_range.mpr (d.inside _ ((hpredecessors v w).mp hw)).1

theorem answers_depthFirst (d : Digraph) :
    Answers (fun v => d.IsCyclic ∧ v < d.nodes.size) d.IsSorted (Sorter.depthFirst d) := by
  refine answers_sortAlong (fun v w => mem_targets fun e he => (d.inside e he).1) (fun v w => ?_)
    (length_targets_le _ _) (Nat.le_refl _)
  rw [mem_targets]
  · rw [Array.mem_map]
    constructor
    · rintro ⟨⟨a, b⟩, he, heq⟩
      cases heq
      exact he
    · exact fun he => ⟨(w, v), he, rfl⟩
  · intro e he
    obtain ⟨e', he', rfl⟩ := Array.mem_map.mp he
    exact (d.inside e' he').2

/-- **Depth-first sort sorts.** -/
theorem Sorter.sorts_depthFirst : Sorter.depthFirst.Sorts where
  sorted d hacyclic := by
    have h := d.answers_depthFirst
    cases hsort : Sorter.depthFirst d with
    | error v =>
      rw [hsort] at h
      exact absurd h.1 hacyclic
    | ok order =>
      rw [hsort] at h
      exact ⟨order, rfl, h⟩
  refused d hcyclic := by
    have h := d.answers_depthFirst
    cases hsort : Sorter.depthFirst d with
    | error v =>
      rw [hsort] at h
      exact ⟨v, rfl, h.2⟩
    | ok order =>
      rw [hsort] at h
      exact absurd hcyclic (IsSorted.not_isCyclic h)

end IntervalDag.Digraph
