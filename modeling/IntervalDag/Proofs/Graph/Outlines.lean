import IntervalDag.Proofs.Graph.Paths

/-!
# Outlines

An outline lists ways down from a target in depth-first order: a way comes before those that go on from it, and those
through one operand before those through a later one. The first of the listed ways to a node is the *arrival* there
(`Arena.arrival?`). Only arrivals are followed further, by one position each, so that an outline does not list what
lies below a shared node again.

* `Arena.Outline.enter` and `Arena.Outline.pass` take an outline one way on, at a node not arrived at yet and at any
  other.
* `Arena.Outline.existsUnique_way`: a complete outline lists every operand position below the target exactly once, and
  `Arena.Outline.length_eq` counts the ways.
* `Arena.rails` tells for every step of a way whether there are operands left behind the one taken.
-/

namespace IntervalDag.Arena

variable {α : Type} {a : Arena α} {target m n : NodeId} {way first : List Nat} {ways ahead : List (List Nat)} {i : Nat}

/-- One position more. -/
theorem descend_snoc (h : a.descend target way = some n) (i : Nat) :
    a.descend target (way ++ [i]) = (a.operands n)[i]? := by
  rw [descend_concat, h, Option.bind_some]

/-! ### Arrivals -/

/-- The first of some ways that leads to a node. -/
def arrival? (a : Arena α) (target : NodeId) (ways : List (List Nat)) (n : NodeId) : Option (List Nat) :=
  ways.find? fun way => a.descend target way == some n

theorem mem_of_arrival? (h : a.arrival? target ways n = some way) : way ∈ ways := List.mem_of_find?_eq_some h

theorem descend_of_arrival? (h : a.arrival? target ways n = some way) : a.descend target way = some n :=
  eq_of_beq (List.find?_some (p := fun way => a.descend target way == some n) h)

theorem arrival?_eq_none_iff : a.arrival? target ways n = none ↔ ∀ way ∈ ways, a.descend target way ≠ some n := by
  simp [arrival?]

/-- A way leads to its node first, or another one was there before. -/
theorem exists_arrival? (hway : way ∈ ways) (hn : a.descend target way = some n) :
    ∃ first, a.arrival? target ways n = some first := by
  refine Option.ne_none_iff_exists'.mp fun hnone => ?_
  exact arrival?_eq_none_iff.mp hnone way hway hn

theorem arrival?_append (ways ways' : List (List Nat)) :
    a.arrival? target (ways ++ ways') n = (a.arrival? target ways n).or (a.arrival? target ways' n) :=
  List.find?_append

theorem arrival?_snoc (way : List Nat) : a.arrival? target (ways ++ [way]) n =
    (a.arrival? target ways n).or (if a.descend target way = some n then some way else none) := by
  rw [arrival?_append]
  simp only [arrival?, List.find?_singleton, beq_iff_eq]

/-- Arrivals stay what they are. -/
theorem arrival?_snoc_of_some (h : a.arrival? target ways n = some first) (way : List Nat) :
    a.arrival? target (ways ++ [way]) n = some first := by
  rw [arrival?_snoc, h, Option.some_or]

/-- One way more is the arrival at its own node, unless there is one. -/
theorem arrival?_snoc_eq_some_iff (hn : a.descend target way = some n) :
    a.arrival? target (ways ++ [way]) m = some first ↔
      a.arrival? target ways m = some first ∨ a.arrival? target ways n = none ∧ m = n ∧ first = way := by
  rw [arrival?_snoc, Option.or_eq_some_iff, hn]
  refine or_congr_right ⟨fun ⟨hnone, h⟩ => ?_, fun ⟨hnone, hm, hfirst⟩ => ?_⟩
  · split_ifs at h with hm
    obtain rfl := Option.some.inj hm
    exact ⟨hnone, rfl, (Option.some.inj h).symm⟩
  · subst hm hfirst
    exact ⟨hnone, if_pos rfl⟩

/-- A way to a node that was arrived at changes no arrival. -/
theorem arrival?_snoc_of_old (hn : a.descend target way = some n) (hold : a.arrival? target ways n = some first)
    (m : NodeId) : a.arrival? target (ways ++ [way]) m = a.arrival? target ways m := by
  refine Option.ext fun other => ?_
  rw [arrival?_snoc_eq_some_iff hn, hold]
  simp

/-! ### Ways that go on from a way -/

/-- The ways that go on from a way by one of so many positions, counted from one of them. -/
def goingOn (way : List Nat) (i count : Nat) : List (List Nat) := (List.range' i count).map fun j => way ++ [j]

theorem snoc_mem_goingOn {count : Nat} : first ++ [i] ∈ goingOn way 0 count ↔ first = way ∧ i < count := by
  simp only [goingOn, List.mem_map, List.mem_range'_1, Nat.zero_le, true_and, Nat.zero_add]
  constructor
  · rintro ⟨j, hj, heq⟩
    obtain ⟨rfl, hij⟩ := List.append_inj' heq rfl
    obtain rfl := List.singleton_inj.mp hij
    exact ⟨rfl, hj⟩
  · rintro ⟨rfl, hi⟩
    exact ⟨i, hi, rfl⟩

theorem lt_snoc (way : List Nat) (i : Nat) : way < way ++ [i] := by
  have h : way ++ [] < way ++ [i] := List.append_left_lt (List.nil_lt_cons i [])
  rwa [List.append_nil] at h

theorem pairwise_goingOn (way : List Nat) (i count : Nat) : (goingOn way i count).Pairwise (· < ·) := by
  refine List.pairwise_map.mpr ((List.pairwise_lt_range' 1).imp fun hij => ?_)
  exact List.append_left_lt (List.cons_lt_cons_iff.mpr (Or.inl hij))

/-- What comes behind a way, and does not go on from it, comes behind all that does. -/
theorem snoc_lt_of_lt {other : List Nat} (h : way < other) (hnot : ¬ way <+: other) (i : Nat) : way ++ [i] < other := by
  induction way generalizing other with
  | nil => exact absurd List.nil_prefix hnot
  | cons j way ih =>
    cases other with
    | nil => exact absurd h (List.not_lt_nil _)
    | cons k other =>
      rw [List.cons_append, List.cons_lt_cons_iff]
      refine (List.cons_lt_cons_iff.mp h).imp_right fun ⟨hjk, hlt⟩ => ⟨hjk, ih hlt fun hpre => hnot ?_⟩
      rw [hjk]
      exact List.cons_prefix_cons.mpr ⟨rfl, hpre⟩

/-! ### Operand positions -/

open Classical in
/-- The operand positions at or below a node. -/
noncomputable def positionsBelow (a : Arena α) (n : NodeId) : Finset (Σ _ : NodeId, Nat) :=
  (Finset.range a.capacity).sigma fun m => Finset.range (if a.Below m n then (a.operands m).length else 0)

theorem mem_positionsBelow {p : Σ _ : NodeId, Nat} :
    p ∈ a.positionsBelow n ↔ a.Below p.1 n ∧ p.2 < (a.operands p.1).length := by
  obtain ⟨m, i⟩ := p
  simp only [positionsBelow, Finset.mem_sigma, Finset.mem_range]
  constructor
  · rintro ⟨-, hi⟩
    split_ifs at hi with hm
    · exact ⟨hm, hi⟩
    · exact absurd hi (Nat.not_lt_zero i)
  · rintro ⟨hm, hi⟩
    refine ⟨Nat.lt_of_not_le fun hle => ?_, by rwa [if_pos hm]⟩
    rw [operands_eq_nil_of_le hle] at hi
    exact Nat.not_lt_zero i hi

theorem card_positionsBelow (a : Arena α) (n : NodeId) : (a.positionsBelow n).card = a.edgesBelow n := by
  rw [positionsBelow, Finset.card_sigma, edgesBelow, openEdges]
  refine Finset.sum_congr rfl fun m _ => ?_
  rw [Finset.card_range]
  by_cases hm : a.Below m n <;> simp [hm]

/-! ### Outlines -/

/-- Some ways are listed and others are ahead, all in depth-first order. They are the empty way and those that go on
from an arrival by one operand position. -/
structure Outline (a : Arena α) (target : NodeId) (ways ahead : List (List Nat)) : Prop where
  nil_mem : [] ∈ ways ++ ahead
  ordered : (ways ++ ahead).Pairwise (· < ·)
  snoc_mem_iff : ∀ way i, way ++ [i] ∈ ways ++ ahead ↔
    ∃ n, a.arrival? target ways n = some way ∧ i < (a.operands n).length

namespace Outline

/-- The target itself is ahead. -/
theorem start (a : Arena α) (target : NodeId) : Outline a target [] [[]] where
  nil_mem := List.mem_singleton_self _
  ordered := List.pairwise_singleton _ _
  snoc_mem_iff way i := by simp [arrival?]

/-- A way to a node that was arrived at is listed and not followed. -/
theorem pass (h : Outline a target ways (way :: ahead)) (hn : a.descend target way = some n)
    (hold : a.arrival? target ways n = some first) : Outline a target (ways ++ [way]) ahead := by
  have hall : ways ++ [way] ++ ahead = ways ++ way :: ahead := List.append_assoc ..
  refine ⟨hall ▸ h.nil_mem, hall ▸ h.ordered, fun x i => ?_⟩
  rw [hall, h.snoc_mem_iff]
  simp only [arrival?_snoc_of_old hn hold]

/-- What is ahead does not go on from the way that is next. -/
theorem not_isPrefix (h : Outline a target ways (way :: ahead)) {other : List Nat} (hother : other ∈ ahead) :
    ¬ way <+: other := by
  obtain ⟨-, hahead, hbefore⟩ := List.pairwise_append.mp h.ordered
  have hlt : way < other := (List.pairwise_cons.mp hahead).1 other hother
  rcases List.eq_nil_or_concat other with rfl | ⟨last, i, rfl⟩
  · exact absurd hlt (List.not_lt_nil _)
  rw [List.concat_eq_append] at hother hlt ⊢
  -- the way is ahead, so nothing that is listed goes on from it
  have hmem : last ++ [i] ∈ ways ++ way :: ahead := List.mem_append_right _ (List.mem_cons_of_mem _ hother)
  obtain ⟨n, harrival, -⟩ := (h.snoc_mem_iff last i).mp hmem
  have hlast : last < way := hbefore last (mem_of_arrival? harrival) way List.mem_cons_self
  intro hpre
  rcases List.prefix_concat_iff.mp hpre with heq | hpre
  · exact hlt.ne heq
  · exact hpre.le hlast

/-- A way to a node that is new is listed, and those that go on from it come next. -/
theorem enter (h : Outline a target ways (way :: ahead)) (hn : a.descend target way = some n)
    (hnew : a.arrival? target ways n = none) :
    Outline a target (ways ++ [way]) (goingOn way 0 (a.operands n).length ++ ahead) := by
  have hmem : ∀ x, x ∈ ways ++ [way] ++ (goingOn way 0 (a.operands n).length ++ ahead) ↔
      x ∈ ways ++ way :: ahead ∨ x ∈ goingOn way 0 (a.operands n).length := by
    intro x
    simp only [List.mem_append, List.mem_cons, List.not_mem_nil, or_false]
    tauto
  refine ⟨(hmem []).mpr (Or.inl h.nil_mem), ?_, fun x i => ?_⟩
  · obtain ⟨hways, hahead, hbefore⟩ := List.pairwise_append.mp h.ordered
    obtain ⟨hnext, hahead⟩ := List.pairwise_cons.mp hahead
    have hon : ∀ x ∈ goingOn way 0 (a.operands n).length, way < x ∧ ∀ y ∈ ahead, x < y := by
      intro x hx
      obtain ⟨j, -, rfl⟩ := List.mem_map.mp hx
      exact ⟨lt_snoc way j, fun y hy => snoc_lt_of_lt (hnext y hy) (h.not_isPrefix hy) j⟩
    rw [List.append_assoc, List.singleton_append, List.pairwise_append, List.pairwise_cons, List.pairwise_append]
    refine ⟨hways, ⟨fun x hx => ?_, pairwise_goingOn .., hahead, fun x hx => (hon x hx).2⟩, fun x hx y hy => ?_⟩
    · exact (List.mem_append.mp hx).elim (fun hx => (hon x hx).1) (hnext x)
    · have hxway := hbefore x hx way List.mem_cons_self
      rcases List.mem_cons.mp hy with rfl | hy
      · exact hxway
      rcases List.mem_append.mp hy with hy | hy
      · exact List.lt_trans hxway (hon y hy).1
      · exact hbefore x hx y (List.mem_cons_of_mem _ hy)
  · rw [hmem, h.snoc_mem_iff, snoc_mem_goingOn]
    simp only [arrival?_snoc_eq_some_iff hn, hnew, true_and]
    constructor
    · rintro (⟨m, hm, hi⟩ | ⟨hx, hi⟩)
      · exact ⟨m, Or.inl hm, hi⟩
      · exact ⟨n, Or.inr ⟨rfl, hx⟩, hi⟩
    · rintro ⟨m, hm | ⟨rfl, hx⟩, hi⟩
      · exact Or.inl ⟨m, hm, hi⟩
      · exact Or.inr ⟨hx, hi⟩

/-! ### Complete outlines -/

section Complete

variable (h : Outline a target ways [])

include h

theorem nil_mem' : [] ∈ ways := by
  have hnil := h.nil_mem
  rwa [List.append_nil] at hnil

theorem ordered' : ways.Pairwise (· < ·) := by
  have hordered := h.ordered
  rwa [List.append_nil] at hordered

theorem nodup : ways.Nodup := h.ordered'.imp ne_of_lt

theorem snoc_mem_iff' : way ++ [i] ∈ ways ↔ ∃ n, a.arrival? target ways n = some way ∧ i < (a.operands n).length := by
  have hmem := h.snoc_mem_iff way i
  rwa [List.append_nil] at hmem

/-- The target is arrived at by the empty way. -/
theorem arrival?_target : a.arrival? target ways target = some [] := by
  have hnil := h.nil_mem'
  cases ways with
  | nil => cases hnil
  | cons first ways =>
    rcases List.mem_cons.mp hnil with rfl | hnil
    · exact List.find?_cons_of_pos (beq_self_eq_true (some target))
    · exact absurd ((List.pairwise_cons.mp h.ordered').1 [] hnil) (List.not_lt_nil _)

/-- Just the nodes at or below the target are arrived at. -/
theorem exists_arrival?_iff : (∃ way, a.arrival? target ways n = some way) ↔ a.Below n target := by
  refine ⟨fun ⟨way, hway⟩ => below_of_descend (descend_of_arrival? hway), fun hn => ?_⟩
  -- from the target down; an operand of a node that was arrived at is at the end of a way that goes on from there
  induction hn using Relation.ReflTransGen.head_induction_on with
  | refl => exact ⟨[], h.arrival?_target⟩
  | head hop _ ih =>
    obtain ⟨way, hway⟩ := ih
    obtain ⟨i, hi⟩ := List.mem_iff_getElem?.mp hop
    refine exists_arrival? (h.snoc_mem_iff'.mpr ⟨_, hway, (List.getElem?_eq_some_iff.mp hi).1⟩) ?_
    rw [descend_snoc (descend_of_arrival? hway), hi]

/-- There are as many ways as operand positions at or below the target, and the empty one. -/
theorem length_eq : ways.length = 1 + a.edgesBelow target := by
  have hway : ∀ p ∈ a.positionsBelow target, ∃ way, a.arrival? target ways p.1 = some way :=
    fun p hp => h.exists_arrival?_iff.mpr (mem_positionsBelow.mp hp).1
  choose! way hway using hway
  -- each of the positions is taken behind the arrival at its node
  have hcard : (a.positionsBelow target).card = (ways.toFinset.erase []).card := by
    refine Finset.card_nbij (fun p => way p ++ [p.2]) (fun p hp => ?_) (fun p hp q hq heq => ?_) fun x hx => ?_
    · rw [Finset.mem_coe, Finset.mem_erase, List.mem_toFinset, h.snoc_mem_iff']
      exact ⟨by simp, p.1, hway p hp, (mem_positionsBelow.mp hp).2⟩
    · obtain ⟨hsame, hi⟩ := List.append_inj' heq rfl
      have hn : some p.1 = some q.1 := by
        rw [← descend_of_arrival? (hway p hp), ← descend_of_arrival? (hway q hq), hsame]
      exact Sigma.ext (Option.some.inj hn) (heq_of_eq (List.singleton_inj.mp hi))
    · obtain ⟨hne, hmem⟩ := Finset.mem_erase.mp hx
      rcases List.eq_nil_or_concat x with rfl | ⟨last, i, rfl⟩
      · exact absurd rfl hne
      rw [List.concat_eq_append, List.mem_toFinset, h.snoc_mem_iff'] at hmem
      obtain ⟨n, hn, hi⟩ := hmem
      have hp : ⟨n, i⟩ ∈ a.positionsBelow target := mem_positionsBelow.mpr ⟨h.exists_arrival?_iff.mp ⟨last, hn⟩, hi⟩
      obtain rfl : way ⟨n, i⟩ = last := Option.some.inj ((hway _ hp).symm.trans hn)
      exact ⟨⟨n, i⟩, hp, (List.concat_eq_append ..).symm⟩
  have hnil : [] ∈ ways.toFinset := List.mem_toFinset.mpr h.nil_mem'
  have hpos := List.length_pos_of_mem (List.mem_toFinset.mp hnil)
  rw [← card_positionsBelow, hcard, Finset.card_erase_of_mem hnil, List.toFinset_card_of_nodup h.nodup]
  omega

end Complete

section Unique

variable {before rest rest' : List (List Nat)}

theorem lt_of_mem_rest (h : Outline a target (before ++ way :: rest) []) {other : List Nat} (hother : other ∈ rest) :
    way < other :=
  (List.pairwise_cons.mp (List.pairwise_append.mp h.ordered').2.1).1 other hother

theorem notMem_before (h : Outline a target (before ++ way :: rest) []) : way ∉ before := fun hway =>
  (List.nodup_append.mp h.nodup).2.2 way hway way List.mem_cons_self rfl

/-- What an outline lists after some ways belongs to any outline that begins with these. -/
theorem mem_of_common (h : Outline a target (before ++ way :: rest) [])
    (h' : Outline a target (before ++ rest') []) : way ∈ before ++ rest' := by
  rcases List.eq_nil_or_concat way with rfl | ⟨last, i, rfl⟩
  · exact h'.nil_mem'
  rw [List.concat_eq_append] at h ⊢
  obtain ⟨n, hlast, hi⟩ := h.snoc_mem_iff'.mp (List.mem_append_right _ List.mem_cons_self)
  -- the arrival that the way goes on from is among those listed before it
  have hmem : last ∈ before := by
    refine (List.mem_append.mp (mem_of_arrival? hlast)).resolve_right fun hmem => ?_
    rcases List.mem_cons.mp hmem with heq | hmem
    · exact (lt_snoc last i).ne heq
    · exact List.lt_asymm (lt_snoc last i) (h.lt_of_mem_rest hmem)
  obtain ⟨first, hfirst⟩ := exists_arrival? hmem (descend_of_arrival? hlast)
  rw [arrival?_append, hfirst, Option.some_or] at hlast
  exact h'.snoc_mem_iff'.mpr ⟨n, by rw [arrival?_append, hfirst, Option.some_or, hlast], hi⟩

/-- Two outlines that begin alike go on alike. -/
theorem eq_of_common (h : Outline a target (before ++ rest) []) (h' : Outline a target (before ++ rest') []) :
    rest = rest' := by
  induction rest generalizing before rest' with
  | nil =>
    cases rest' with
    | nil => rfl
    | cons way' rest' => exact absurd (List.append_nil before ▸ h'.mem_of_common h) h'.notMem_before
  | cons way rest ih =>
    have hmem := (List.mem_append.mp (h.mem_of_common h')).resolve_left h.notMem_before
    cases rest' with
    | nil => cases hmem
    | cons way' rest' =>
      have hmem' := (List.mem_append.mp (h'.mem_of_common h)).resolve_left h'.notMem_before
      obtain rfl : way = way' := by
        rcases List.mem_cons.mp hmem with heq | hmem
        · exact heq
        rcases List.mem_cons.mp hmem' with heq | hmem'
        · exact heq.symm
        exact absurd (h'.lt_of_mem_rest hmem) (List.lt_asymm (h.lt_of_mem_rest hmem'))
      rw [List.append_cons] at h h'
      rw [ih h h']

/-- **The target determines** which ways are listed, and in which order. -/
theorem unique {ways' : List (List Nat)} (h : Outline a target ways []) (h' : Outline a target ways' []) :
    ways = ways' :=
  eq_of_common (List.nil_append ways ▸ h) (List.nil_append ways' ▸ h')

end Unique

end Outline

/-! ### Rails -/

/-- For each step of a way down, whether there are operands behind the one it takes. -/
def rails (a : Arena α) (n : NodeId) : List Nat → List Bool
  | [] => []
  | i :: way => decide (i + 1 < (a.operands n).length) :: (a.operands n)[i]?.elim [] fun c => a.rails c way

theorem length_rails (h : a.descend target way = some n) : (a.rails target way).length = way.length := by
  induction way generalizing target with
  | nil => rfl
  | cons j way ih =>
    obtain ⟨c, hc, hway⟩ := Option.bind_eq_some_iff.mp h
    rw [rails, hc, Option.elim_some, List.length_cons, ih hway, List.length_cons]

end IntervalDag.Arena
