import Mathlib.Order.Lattice.Nat
import IntervalDag.Proofs.Graph.Paths

/-!
# Layers below a node

Nodes below a root stand in line (`Arena.Acyclic.served`). Whenever one is served, its operands get in line behind all
others: each of them, or only those that have not been in line. What is in line then comes in layers: shorter ways down
from the root before longer ones, and never more than two lengths at a time (`Arena.Layered`).

* `Arena.Exhausted`, `Arena.Acyclic.served_ways`: if all operands get in line, every way down from the root is served
  once.
* `Arena.Discovered`, `Arena.Acyclic.served_nodes`: if only new ones do, every node below the root is served once, at
  its distance from the root. Nodes at one distance come in the order in which they were first used.
-/

namespace IntervalDag

variable {α : Type}

/-! ### Distances and uses -/

namespace Arena

/-- The length of the shortest way down from a node to another one. -/
noncomputable def distance (a : Arena α) (root n : NodeId) : Nat :=
  sInf {k | ∃ way, a.descend root way = some n ∧ way.length = k}

/-- Where a node is first used by some nodes: the position of the first of them that has it as an operand, and its first
position among the operands of that one. -/
def firstUse (a : Arena α) (ns : List NodeId) (n : NodeId) : Nat × Nat :=
  let i := ns.findIdx fun p => (a.operands p).contains n
  (i, ns[i]?.elim 0 fun p => (a.operands p).idxOf n)

variable {a : Arena α} {root n : NodeId}

theorem distance_eq {way : List Nat} (h : a.descend root way = some n)
    (hle : ∀ way', a.descend root way' = some n → way.length ≤ way'.length) : a.distance root n = way.length := by
  refine Nat.le_antisymm (Nat.sInf_le ⟨way, h, rfl⟩) (le_csInf ⟨_, way, h, rfl⟩ ?_)
  rintro _ ⟨way', hway', rfl⟩
  exact hle way' hway'

/-- Nodes that come later do not matter to one that was used. -/
theorem firstUse_append {ns : List NodeId} (h : ∃ p ∈ ns, a.IsOperand n p) (ms : List NodeId) :
    a.firstUse (ns ++ ms) n = a.firstUse ns n := by
  have hlt : (ns.findIdx fun p => (a.operands p).contains n) < ns.length := by
    obtain ⟨p, hp, hop⟩ := h
    exact List.findIdx_lt_length_of_exists ⟨p, hp, List.contains_iff_mem.mpr hop⟩
  rw [firstUse, firstUse, List.findIdx_append, if_pos hlt, List.getElem?_append_left hlt]

theorem firstUse_fst_lt {ns : List NodeId} (h : ∃ p ∈ ns, a.IsOperand n p) : (a.firstUse ns n).1 < ns.length := by
  obtain ⟨p, hp, hop⟩ := h
  exact List.findIdx_lt_length_of_exists ⟨p, hp, List.contains_iff_mem.mpr hop⟩

/-- A node is first used by the last of some nodes. -/
theorem firstUse_concat {ns : List NodeId} (h : ¬ ∃ p ∈ ns, a.IsOperand n p) {p : NodeId} (hp : a.IsOperand n p) :
    a.firstUse (ns ++ [p]) n = (ns.length, (a.operands p).idxOf n) := by
  have hlast : ((ns ++ [p]).findIdx fun p => (a.operands p).contains n) = ns.length := by
    have hnone : (ns.findIdx fun p => (a.operands p).contains n) = ns.length := by
      refine List.findIdx_eq_length.mpr fun q hq => ?_
      exact Bool.eq_false_of_not_eq_true fun hop => h ⟨q, hq, List.contains_iff_mem.mp hop⟩
    rw [List.findIdx_append, if_neg (by omega), List.findIdx_cons, List.contains_iff_mem.mpr hp]
    simp
  rw [firstUse, hlast, List.getElem?_concat_length]
  rfl

end Arena

/-! ### Standing in line -/

/-- A way down to a node. -/
structure Place where
  /-- The operand positions taken. -/
  way : List Nat
  /-- The node they lead to. -/
  node : NodeId

/-- The places one position further down. -/
def Place.steps (a : Arena α) (p : Place) : List Place :=
  (a.operands p.node).zipIdx.map fun c => ⟨p.way ++ [c.2], c.1⟩

/-- Those of some places that get in line: each of them or, without revisits, those at nodes not seen before. -/
def newcomers (revisits : Bool) : List NodeId → List Place → List Place
  | _, [] => []
  | seen, p :: ps =>
    if !revisits && seen.contains p.node then newcomers revisits seen ps
    else p :: newcomers revisits (seen ++ [p.node]) ps

namespace Place

variable {a : Arena α} {p q : Place}

theorem mem_steps_iff : q ∈ p.steps a ↔ ∃ i, (a.operands p.node)[i]? = some q.node ∧ q.way = p.way ++ [i] := by
  simp only [steps, List.mem_map, Prod.exists, List.mem_zipIdx_iff_getElem?]
  constructor
  · rintro ⟨c, i, hc, rfl⟩
    exact ⟨i, hc, rfl⟩
  · rintro ⟨i, hc, hway⟩
    exact ⟨q.node, i, hc, by rw [← hway]⟩

theorem map_node_steps (a : Arena α) (p : Place) : (p.steps a).map node = a.operands p.node := by
  rw [steps, List.map_map]
  exact List.zipIdx_map_fst 0 _

theorem nodup_steps (a : Arena α) (p : Place) : ((p.steps a).map way).Nodup := by
  have hpositions : (a.operands p.node).zipIdx.map Prod.snd = List.range' 0 (a.operands p.node).length :=
    List.zipIdx_map_snd 0 _
  have hways : (p.steps a).map way = ((a.operands p.node).zipIdx.map Prod.snd).map fun i => p.way ++ [i] := by
    rw [steps, List.map_map, List.map_map]
    rfl
  rw [hways, hpositions]
  refine List.Nodup.map (fun i j hij => ?_) List.nodup_range'
  simpa using hij

theorem length_of_mem_steps (h : q ∈ p.steps a) : q.way.length = p.way.length + 1 := by
  obtain ⟨i, -, hway⟩ := mem_steps_iff.mp h
  rw [hway, List.length_append]
  rfl

end Place

section Newcomers

variable {revisits : Bool} {seen : List NodeId} {ps : List Place}

@[simp] theorem newcomers_true (seen : List NodeId) (ps : List Place) : newcomers true seen ps = ps := by
  induction ps generalizing seen with
  | nil => rfl
  | cons p ps ih => rw [newcomers, if_neg (by simp), ih]

theorem newcomers_sublist (revisits : Bool) (seen : List NodeId) (ps : List Place) :
    (newcomers revisits seen ps).Sublist ps := by
  induction ps generalizing seen with
  | nil => exact .slnil
  | cons p ps ih =>
    rw [newcomers]
    split
    · exact (ih seen).cons p
    · exact (ih _).cons_cons p

/-- New nodes get in line once. -/
theorem nodup_newcomers (seen : List NodeId) (ps : List Place) :
    ((newcomers false seen ps).map Place.node).Nodup ∧ ∀ p ∈ newcomers false seen ps, p.node ∉ seen := by
  induction ps generalizing seen with
  | nil => exact ⟨List.nodup_nil, nofun⟩
  | cons p ps ih =>
    rw [newcomers]
    split
    · exact ih seen
    · rename_i hnew
      obtain ⟨hnodup, hfresh⟩ := ih (seen ++ [p.node])
      simp only [List.mem_append, List.mem_singleton, not_or] at hfresh
      refine ⟨List.nodup_cons.mpr ⟨fun hp => ?_, hnodup⟩, fun q hq => ?_⟩
      · obtain ⟨q, hq, heq⟩ := List.mem_map.mp hp
        exact (hfresh q hq).2 heq
      · rcases List.mem_cons.mp hq with rfl | hq
        · simpa using hnew
        · exact (hfresh q hq).1

/-- Whoever does not get in line has been there. -/
theorem mem_newcomers (seen : List NodeId) {p : Place} (hp : p ∈ ps) :
    p.node ∈ seen ∨ ∃ q ∈ newcomers false seen ps, q.node = p.node := by
  induction ps generalizing seen with
  | nil => cases hp
  | cons p' ps ih =>
    rw [newcomers]
    split
    · rename_i hseen
      rcases List.mem_cons.mp hp with rfl | hp
      · exact Or.inl (by simpa using hseen)
      · exact ih seen hp
    · rcases List.mem_cons.mp hp with rfl | hp
      · exact Or.inr ⟨p, List.mem_cons_self, rfl⟩
      · rcases ih (seen ++ [p'.node]) hp with hmem | ⟨q, hq, heq⟩
        · rcases List.mem_append.mp hmem with hmem | hmem
          · exact Or.inl hmem
          · exact Or.inr ⟨p', List.mem_cons_self, (List.mem_singleton.mp hmem).symm⟩
        · exact Or.inr ⟨q, List.mem_cons_of_mem _ hq, heq⟩

/-- New nodes get in line in the order in which they first occur. -/
theorem pairwise_newcomers (before : List NodeId) (hbefore : ∀ n ∈ before, n ∈ seen) :
    (newcomers false seen ps).Pairwise fun p q => (before ++ ps.map Place.node).idxOf p.node <
      (before ++ ps.map Place.node).idxOf q.node := by
  induction ps generalizing seen before with
  | nil => exact .nil
  | cons p ps ih =>
    have hshift : before ++ (p :: ps).map Place.node = (before ++ [p.node]) ++ ps.map Place.node := by simp
    rw [newcomers, hshift]
    split
    · rename_i hseen
      refine ih _ fun n hn => ?_
      rcases List.mem_append.mp hn with hn | hn
      · exact hbefore n hn
      · rw [List.mem_singleton.mp hn]
        simpa using hseen
    · rename_i hnew
      have hnew : p.node ∉ before := fun hp => by simpa using (hnew (by simpa using hbefore _ hp))
      refine List.pairwise_cons.mpr ⟨fun q hq => ?_, ih _ fun n hn => ?_⟩
      · -- the node stands right behind those before, and the others further behind
        have hq : q.node ∉ before ++ [p.node] := fun hmem => (nodup_newcomers _ ps).2 q hq <| by
          rcases List.mem_append.mp hmem with hmem | hmem
          · exact List.mem_append_left _ (hbefore _ hmem)
          · exact List.mem_append_right _ hmem
        rw [List.idxOf_append_of_mem (by simp), List.idxOf_append_of_notMem hnew, List.idxOf_append_of_notMem hq,
          List.idxOf_cons_self, List.length_append]
        exact Nat.lt_add_right _ (Nat.lt_succ_self _)
      · exact List.mem_append.mpr ((List.mem_append.mp hn).imp_left (hbefore n))

end Newcomers

namespace Arena

/-- The places served, from the first in line to the last, after those already done. -/
def Acyclic.served {a : Arena α} (h : a.Acyclic) (revisits : Bool) : List Place → List Place → List Place
  | _, [] => []
  | done, p :: line =>
    p :: h.served revisits (done ++ [p])
      (line ++ newcomers revisits ((done ++ p :: line).map Place.node) (p.steps a))
termination_by _ line => (line.map fun p => a.weight p.node).sum
decreasing_by
  -- a node outweighs its operands
  have hlt := sum_weight_operands_lt (h.apply p.node)
  have hle := ((newcomers_sublist revisits ((done ++ p :: line).map Place.node) (p.steps a)).map
    fun p => a.weight p.node).sum_le_sum fun _ _ => Nat.zero_le _
  rw [← Place.map_node_steps, List.map_map] at hlt
  rw [List.map_append, List.sum_append, List.map_cons, List.sum_cons, Nat.add_comm]
  exact Nat.add_lt_add_right (Nat.lt_of_le_of_lt hle hlt) _

/-- What is handed on whenever a place is served holds in the end. -/
theorem Acyclic.served_induction {a : Arena α} (h : a.Acyclic) (revisits : Bool) {I : List Place → List Place → Prop}
    (hstep : ∀ {done p line}, I done (p :: line) →
      I (done ++ [p]) (line ++ newcomers revisits ((done ++ p :: line).map Place.node) (p.steps a)))
    {done line : List Place} (hI : I done line) : I (done ++ h.served revisits done line) [] := by
  fun_induction Acyclic.served h revisits done line with
  | case1 done =>
    rw [List.append_nil]
    exact hI
  | case2 done p line ih =>
    have hend := ih (hstep hI)
    rwa [List.append_assoc, List.singleton_append] at hend

/-! ### In layers -/

/-- What was served and what is in line comes in layers: shorter ways come first, and the ways in line are at most one
longer than the first of them. -/
structure Layered (a : Arena α) (root : NodeId) (done line : List Place) : Prop where
  way_eq : ∀ p ∈ done ++ line, a.descend root p.way = some p.node
  sorted : (done ++ line).Pairwise fun p q => p.way.length ≤ q.way.length
  near : ∀ p ∈ line.head?, ∀ q ∈ done ++ line, q.way.length ≤ p.way.length + 1

variable {a : Arena α} {root : NodeId} {done line new : List Place} {p : Place}

/-- All who have come, once one more was served and others got in line. -/
theorem serve_append (done line new : List Place) (p : Place) :
    (done ++ [p]) ++ (line ++ new) = (done ++ p :: line) ++ new := by simp

theorem Layered.start (a : Arena α) (root : NodeId) : a.Layered root [] [⟨[], root⟩] := by
  refine ⟨fun p hp => ?_, List.pairwise_singleton _ _, fun p hp q hq => ?_⟩
  · rw [List.mem_singleton.mp hp]
    rfl
  · rw [List.mem_singleton.mp hq]
    exact Nat.zero_le _

/-- **Serving** keeps the layers: those who get in line are one longer than the one served, and so are at most one
longer than the next. -/
theorem Layered.serve (h : a.Layered root done (p :: line)) (hnew : ∀ q ∈ new, q ∈ p.steps a) :
    a.Layered root (done ++ [p]) (line ++ new) := by
  have hp : p ∈ done ++ p :: line := List.mem_append_right _ List.mem_cons_self
  have hnear := h.near p rfl
  have hlength : ∀ q ∈ new, q.way.length = p.way.length + 1 := fun q hq => Place.length_of_mem_steps (hnew q hq)
  have hall : ∀ q ∈ (done ++ p :: line) ++ new, q.way.length ≤ p.way.length + 1 := by
    intro q hq
    rcases List.mem_append.mp hq with hq | hq
    · exact hnear q hq
    · exact Nat.le_of_eq (hlength q hq)
  refine ⟨fun q hq => ?_, ?_, fun q hq r hr => ?_⟩
  · rw [serve_append] at hq
    rcases List.mem_append.mp hq with hq | hq
    · exact h.way_eq q hq
    · obtain ⟨i, hi, hway⟩ := Place.mem_steps_iff.mp (hnew q hq)
      rw [hway, descend_concat, h.way_eq p hp]
      exact hi
  · rw [serve_append, List.pairwise_append]
    refine ⟨h.sorted, List.pairwise_of_forall_mem_list fun q hq r hr => ?_, fun q hq r hr => ?_⟩
    · rw [hlength q hq, hlength r hr]
    · rw [hlength r hr]
      exact hnear q hq
  · rw [serve_append] at hr
    refine (hall r hr).trans (Nat.succ_le_succ ?_)
    -- the next in line comes after the one served, or is one of those who got in line
    have hq := List.mem_of_mem_head? hq
    rcases List.mem_append.mp hq with hq | hq
    · exact List.rel_of_pairwise_cons (List.pairwise_append.mp h.sorted).2.1 hq
    · exact hlength q hq ▸ Nat.le_succ _

/-! ### With revisits -/

/-- All operands of what was served were served or are in line. -/
structure Exhausted (a : Arena α) (root : NodeId) (done line : List Place) : Prop extends Layered a root done line where
  nodup : ((done ++ line).map Place.way).Nodup
  root_mem : ⟨[], root⟩ ∈ done ++ line
  steps_mem : ∀ p ∈ done, ∀ q ∈ p.steps a, q ∈ done ++ line
  from_done : ∀ q ∈ done ++ line, q.way = [] ∨ ∃ p ∈ done, q ∈ p.steps a

theorem Exhausted.start (a : Arena α) (root : NodeId) : a.Exhausted root [] [⟨[], root⟩] :=
  ⟨.start a root, List.nodup_singleton _, List.mem_singleton_self _, nofun, fun q hq => by
    rw [List.mem_singleton.mp hq]
    exact Or.inl rfl⟩

theorem Exhausted.serve (h : a.Exhausted root done (p :: line)) :
    a.Exhausted root (done ++ [p]) (line ++ p.steps a) := by
  have hp : p ∈ done ++ p :: line := List.mem_append_right _ List.mem_cons_self
  refine ⟨h.toLayered.serve fun q hq => hq, ?_, ?_, fun q hq r hr => ?_, fun q hq => ?_⟩
  · rw [serve_append, List.map_append, List.nodup_append]
    refine ⟨h.nodup, Place.nodup_steps a p, fun way hway way' hway' heq => ?_⟩
    -- a way that is one longer than that of `p` and was in line comes from an earlier place with the way of `p`
    obtain ⟨q, hq, rfl⟩ := List.mem_map.mp hway
    obtain ⟨r, hr, rfl⟩ := List.mem_map.mp hway'
    obtain ⟨i, -, hr⟩ := Place.mem_steps_iff.mp hr
    rcases h.from_done q hq with hq | ⟨p', hp', hq⟩
    · rw [hq, hr] at heq
      exact List.append_ne_nil_of_right_ne_nil _ (List.cons_ne_nil _ _) heq.symm
    · obtain ⟨j, -, hq⟩ := Place.mem_steps_iff.mp hq
      rw [hq, hr] at heq
      have hsame : p'.way = p.way := List.append_inj_left' heq rfl
      have hnodup := h.nodup
      rw [List.map_append, List.nodup_append] at hnodup
      exact hnodup.2.2 _ (List.mem_map_of_mem hp') _ (List.mem_map_of_mem List.mem_cons_self) hsame
  · rw [serve_append]
    exact List.mem_append_left _ h.root_mem
  · rw [serve_append]
    rcases List.mem_append.mp hq with hq | hq
    · exact List.mem_append_left _ (h.steps_mem q hq r hr)
    · rw [List.mem_singleton.mp hq] at hr
      exact List.mem_append_right _ hr
  · rw [serve_append] at hq
    rcases List.mem_append.mp hq with hq | hq
    · exact (h.from_done q hq).imp_right fun ⟨p', hp', hq⟩ => ⟨p', List.mem_append_left _ hp', hq⟩
    · exact Or.inr ⟨p, List.mem_append_right _ (List.mem_singleton_self p), hq⟩

/-- In the end every way down was served. -/
theorem Exhausted.mem_of_descend (h : a.Exhausted root done []) {way : List Nat} {n : NodeId}
    (hway : a.descend root way = some n) : ⟨way, n⟩ ∈ done := by
  have hroot := h.root_mem
  have hsteps := h.steps_mem
  rw [List.append_nil] at hroot hsteps
  induction way using List.reverseRecOn generalizing n with
  | nil =>
    obtain rfl := Option.some.inj hway
    exact hroot
  | append_singleton way i ih =>
    rw [descend_concat] at hway
    obtain ⟨m, hm, hi⟩ := Option.bind_eq_some_iff.mp hway
    exact hsteps ⟨way, m⟩ (ih hm) _ (Place.mem_steps_iff.mpr ⟨i, hi, rfl⟩)

/-- **With revisits** every way down from the root is served once, shorter ones first. -/
theorem Acyclic.served_ways (h : a.Acyclic) (root : NodeId) :
    (∀ p ∈ h.served true [] [⟨[], root⟩], a.descend root p.way = some p.node) ∧
      ((h.served true [] [⟨[], root⟩]).map Place.way).Nodup ∧
      (∀ way n, a.descend root way = some n → ⟨way, n⟩ ∈ h.served true [] [⟨[], root⟩]) ∧
      (h.served true [] [⟨[], root⟩]).Pairwise fun p q => p.way.length ≤ q.way.length := by
  have hend := h.served_induction true (I := a.Exhausted root)
    (fun hI => by rw [newcomers_true]; exact hI.serve) (.start a root)
  rw [List.nil_append] at hend
  have hway := hend.way_eq
  have hnodup := hend.nodup
  have hsorted := hend.sorted
  rw [List.append_nil] at hway hnodup hsorted
  exact ⟨hway, hnodup, fun way n hdescend => hend.mem_of_descend hdescend, hsorted⟩

/-! ### Without revisits -/

/-- What was served and what is in line are different nodes. Operands of what was served were served or are in line, at
most one further down, and apart from the root all have come in the order in which they are used. -/
structure Discovered (a : Arena α) (root : NodeId) (done line : List Place) : Prop
    extends Layered a root done line where
  nodup : ((done ++ line).map Place.node).Nodup
  head : (done ++ line).head? = some ⟨[], root⟩
  closed : ∀ p ∈ done, ∀ c, a.IsOperand c p.node →
    ∃ q ∈ done ++ line, q.node = c ∧ q.way.length ≤ p.way.length + 1
  used : ∀ q ∈ (done ++ line).tail, ∃ n ∈ done.map Place.node, a.IsOperand q.node n
  ordered : (done ++ line).tail.Pairwise fun p q => Prod.Lex (· < ·) (· < ·)
    (a.firstUse (done.map Place.node) p.node) (a.firstUse (done.map Place.node) q.node)

theorem Discovered.start (a : Arena α) (root : NodeId) : a.Discovered root [] [⟨[], root⟩] :=
  ⟨.start a root, List.nodup_singleton _, rfl, nofun, nofun, .nil⟩

/-- New nodes were not used before. -/
theorem Discovered.not_used (h : a.Discovered root done (p :: line)) {q : Place}
    (hq : q.node ∉ (done ++ p :: line).map Place.node) : ¬ ∃ n ∈ done.map Place.node, a.IsOperand q.node n := by
  rintro ⟨n, hn, hop⟩
  obtain ⟨p', hp', rfl⟩ := List.mem_map.mp hn
  obtain ⟨r, hr, heq, -⟩ := h.closed p' hp' _ hop
  exact hq (heq ▸ List.mem_map_of_mem hr)

theorem Discovered.serve (h : a.Discovered root done (p :: line)) :
    a.Discovered root (done ++ [p])
      (line ++ newcomers false ((done ++ p :: line).map Place.node) (p.steps a)) := by
  have hsub := (newcomers_sublist false ((done ++ p :: line).map Place.node) (p.steps a)).subset
  obtain ⟨hnodup, hfresh⟩ := nodup_newcomers ((done ++ p :: line).map Place.node) (p.steps a)
  have hpairwise : (newcomers false ((done ++ p :: line).map Place.node) (p.steps a)).Pairwise _ :=
    pairwise_newcomers [] nofun
  have hcover : ∀ q ∈ p.steps a, q.node ∈ (done ++ p :: line).map Place.node ∨ _ := fun q hq => mem_newcomers _ hq
  generalize newcomers false ((done ++ p :: line).map Place.node) (p.steps a) = new at *
  have hop : ∀ q ∈ new, a.IsOperand q.node p.node := fun q hq => by
    rw [IsOperand, ← Place.map_node_steps]
    exact List.mem_map_of_mem (hsub hq)
  have htail : ((done ++ p :: line) ++ new).tail = (done ++ p :: line).tail ++ new :=
    List.tail_append_of_ne_nil (by simp)
  -- uses: those who were there keep theirs, and the new ones are used by `p` first
  have hkept : ∀ q ∈ (done ++ p :: line).tail,
      a.firstUse ((done ++ [p]).map Place.node) q.node = a.firstUse (done.map Place.node) q.node := fun q hq => by
    rw [List.map_append]
    exact firstUse_append (h.used q hq) _
  have hfirst : ∀ q ∈ new,
      a.firstUse ((done ++ [p]).map Place.node) q.node = (done.length, (a.operands p.node).idxOf q.node) :=
    fun q hq => by
      rw [List.map_append, List.map_singleton, firstUse_concat (h.not_used (hfresh q hq)) (hop q hq), List.length_map]
  refine ⟨h.toLayered.serve fun q hq => hsub hq, ?_, ?_, fun q hq c hc => ?_, fun q hq => ?_, ?_⟩
  · rw [serve_append, List.map_append, List.nodup_append]
    refine ⟨h.nodup, hnodup, fun n hn n' hn' heq => ?_⟩
    obtain ⟨q, hq, rfl⟩ := List.mem_map.mp hn'
    exact hfresh q hq (heq ▸ hn)
  · rw [serve_append, List.head?_append_of_ne_nil _ (by simp)]
    exact h.head
  · rw [serve_append]
    rcases List.mem_append.mp hq with hq | hq
    · obtain ⟨r, hr, hr'⟩ := h.closed q hq c hc
      exact ⟨r, List.mem_append_left _ hr, hr'⟩
    · rw [List.mem_singleton.mp hq] at hc ⊢
      rw [IsOperand, ← Place.map_node_steps] at hc
      obtain ⟨r, hr, rfl⟩ := List.mem_map.mp hc
      rcases hcover r hr with hseen | ⟨r', hr', heq⟩
      · obtain ⟨r', hr', heq⟩ := List.mem_map.mp hseen
        exact ⟨r', List.mem_append_left _ hr', heq, h.near p rfl r' hr'⟩
      · exact ⟨r', List.mem_append_right _ hr', heq, Nat.le_of_eq (Place.length_of_mem_steps (hsub hr'))⟩
  · rw [serve_append, htail] at hq
    rw [List.map_append]
    rcases List.mem_append.mp hq with hq | hq
    · obtain ⟨n, hn, hop⟩ := h.used q hq
      exact ⟨n, List.mem_append_left _ hn, hop⟩
    · exact ⟨p.node, List.mem_append_right _ List.mem_cons_self, hop q hq⟩
  · rw [serve_append, htail, List.pairwise_append]
    refine ⟨h.ordered.imp_of_mem fun hq hr hlt => ?_, hpairwise.imp_of_mem fun hq hr hlt => ?_, fun q hq r hr => ?_⟩
    · rwa [hkept _ hq, hkept _ hr]
    · rw [hfirst _ hq, hfirst _ hr]
      rw [List.nil_append, Place.map_node_steps] at hlt
      exact .right _ hlt
    · have hlt := firstUse_fst_lt (h.used q hq)
      rw [List.length_map] at hlt
      rw [hkept q hq, hfirst r hr]
      exact Prod.lex_def.mpr (Or.inl hlt)

namespace Discovered

variable (h : a.Discovered root done [])

include h

/-- In the end every node below was served, no further down than any way to it. -/
theorem exists_of_descend {way : List Nat} {n : NodeId} (hway : a.descend root way = some n) :
    ∃ q ∈ done, q.node = n ∧ q.way.length ≤ way.length := by
  have hhead := h.head
  have hclosed := h.closed
  rw [List.append_nil] at hhead hclosed
  induction way using List.reverseRecOn generalizing n with
  | nil =>
    obtain rfl := Option.some.inj hway
    exact ⟨⟨[], root⟩, List.mem_of_mem_head? hhead, rfl, Nat.le_refl _⟩
  | append_singleton way i ih =>
    rw [descend_concat] at hway
    obtain ⟨m, hm, hi⟩ := Option.bind_eq_some_iff.mp hway
    obtain ⟨p, hp, rfl, hle⟩ := ih hm
    obtain ⟨q, hq, heq, hle'⟩ := hclosed p hp n (List.mem_of_getElem? hi)
    refine ⟨q, hq, heq, ?_⟩
    rw [List.length_append, List.length_singleton]
    exact hle'.trans (Nat.succ_le_succ hle)

theorem distance_eq {p : Place} (hp : p ∈ done) : a.distance root p.node = p.way.length := by
  have hway := h.way_eq
  have hnodup := h.nodup
  rw [List.append_nil] at hway hnodup
  refine Arena.distance_eq (hway p hp) fun way hdescend => ?_
  obtain ⟨q, hq, heq, hle⟩ := h.exists_of_descend hdescend
  rwa [List.inj_on_of_nodup_map hnodup hp hq heq.symm]

end Discovered

/-- **Without revisits** every node at or below the root is served once. Nodes closer to the root come first, and nodes
at one distance in the order in which they are used by what is served. -/
theorem Acyclic.served_nodes (h : a.Acyclic) (root : NodeId) {order : List NodeId}
    (horder : order = (h.served false [] [⟨[], root⟩]).map Place.node) :
    order.Nodup ∧ (∀ n, n ∈ order ↔ a.Below n root) ∧
      order.Pairwise fun m n => a.distance root m < a.distance root n ∨
        a.distance root m = a.distance root n ∧
          Prod.Lex (· < ·) (· < ·) (a.firstUse order m) (a.firstUse order n) := by
  have hend := h.served_induction false (I := a.Discovered root) Discovered.serve (.start a root)
  rw [List.nil_append] at hend
  have hway := hend.way_eq
  have hnodup := hend.nodup
  have hhead := hend.head
  have hsorted := hend.sorted
  have hordered := hend.ordered
  rw [List.append_nil] at hway hnodup hhead hsorted hordered
  rw [← horder] at hnodup hordered
  refine ⟨hnodup, fun n => ?_, ?_⟩
  · rw [horder, List.mem_map]
    constructor
    · rintro ⟨p, hp, rfl⟩
      exact below_of_descend (hway p hp)
    · intro hn
      obtain ⟨way, hdescend⟩ := exists_descend_of_below hn
      obtain ⟨q, hq, heq, -⟩ := hend.exists_of_descend hdescend
      exact ⟨q, hq, heq⟩
  · have hdistance : ∀ p ∈ h.served false [] [⟨[], root⟩], a.distance root p.node = p.way.length :=
      fun p hp => hend.distance_eq hp
    generalize h.served false [] [⟨[], root⟩] = places at *
    obtain ⟨rest, rfl⟩ : ∃ rest, places = ⟨[], root⟩ :: rest := by
      rcases places with _ | ⟨p, rest⟩
      · cases hhead
      · exact ⟨rest, by rw [Option.some.inj hhead]⟩
    have hfirst := hdistance ⟨[], root⟩ List.mem_cons_self
    have hsorted := (List.pairwise_cons.mp hsorted).2
    conv => arg 2; rw [horder]
    rw [List.pairwise_map, List.pairwise_cons]
    refine ⟨fun q hq => Or.inl ?_, (hsorted.and hordered).imp_of_mem fun hp hq hlt => ?_⟩
    · -- the root is served first and is the only node with the empty way
      have hq' : q ∈ (⟨[], root⟩ : Place) :: rest := List.mem_cons_of_mem _ hq
      rw [hfirst, hdistance q hq']
      refine List.length_pos_of_ne_nil fun hnil => ?_
      have hroot := hway q hq'
      rw [hnil] at hroot
      rw [horder, List.map_cons, List.nodup_cons] at hnodup
      exact hnodup.1 (List.mem_map.mpr ⟨q, hq, (Option.some.inj hroot).symm⟩)
    · rw [hdistance _ (List.mem_cons_of_mem _ hp), hdistance _ (List.mem_cons_of_mem _ hq)]
      exact (Nat.lt_or_eq_of_le hlt.1).imp_right fun heq => ⟨heq, hlt.2⟩

end Arena

end IntervalDag
