import Mathlib.Algebra.BigOperators.Fin
import Mathlib.Data.Finite.Sigma
import Mathlib.Data.Set.Card
import Mathlib.SetTheory.Cardinal.NatCard
import IntervalDag.Proofs.Graph.Edges

/-!
# Ways down

A way down from a node is a list of operand positions, taken one after another from the node on
(`Arena.descend`). The empty list is a way down, and an operand that occurs twice has two positions, so that
ways lead through it twice.

* `Arena.finite_ways`, `Arena.ncard_ways`: where all ways down end, they are finitely many, one more than the
  ways down from the operands together.
* `Arena.Acyclic.wayCount_le`: their number is at most exponential in the number of edges.
-/

namespace IntervalDag.Arena

variable {α : Type} {a : Arena α} {n : NodeId}

/-- Where operand positions lead, taken one after another from a node down. -/
def descend (a : Arena α) (n : NodeId) : List Nat → Option NodeId
  | [] => some n
  | i :: way => (a.operands n)[i]?.bind fun c => a.descend c way

/-- The ways down from a node, each as the operand positions taken. -/
def ways (a : Arena α) (n : NodeId) : Set (List Nat) := {way | (a.descend n way).isSome = true}

theorem nil_mem_ways (a : Arena α) (n : NodeId) : [] ∈ a.ways n := rfl

theorem cons_mem_ways_iff {i : Nat} {way : List Nat} :
    i :: way ∈ a.ways n ↔ ∃ c, (a.operands n)[i]? = some c ∧ way ∈ a.ways c := by
  simp only [ways, descend, Set.mem_ofPred_eq]
  cases (a.operands n)[i]? with
  | none => simp
  | some c => simp

/-- A way down leads to a node below. -/
theorem below_of_descend {way : List Nat} {m : NodeId} (h : a.descend n way = some m) : a.Below m n := by
  induction way generalizing n with
  | nil =>
    obtain rfl := Option.some.inj h
    exact .refl a n
  | cons i way ih =>
    obtain ⟨c, hc, hm⟩ := Option.bind_eq_some_iff.mp h
    exact (ih hm).trans (IsOperand.below (List.mem_of_getElem? hc))

/-- The last position of a way leads from where the others lead. -/
theorem descend_concat (way : List Nat) (i : Nat) :
    a.descend n (way ++ [i]) = (a.descend n way).bind fun m => (a.operands m)[i]? := by
  induction way generalizing n with
  | nil => simp [descend]
  | cons j way ih =>
    rw [List.cons_append, descend, descend, Option.bind_assoc]
    exact congrArg _ (funext fun c => ih)

/-- To each node below a node there is a way down. -/
theorem exists_descend_of_below {m : NodeId} (h : a.Below m n) : ∃ way, a.descend n way = some m := by
  induction h with
  | refl => exact ⟨[], rfl⟩
  | tail _ hop ih =>
    obtain ⟨way, hway⟩ := ih
    obtain ⟨i, hi⟩ := List.mem_iff_getElem?.mp hop
    exact ⟨i :: way, by rw [descend, hi]; exact hway⟩

/-! ### How many there are -/

/-- A way down that is not empty takes a position first, and then a way down from the operand there. -/
def extendWay (a : Arena α) (n : NodeId) :
    Option (Σ i : Fin (a.operands n).length, a.ways ((a.operands n).get i)) → a.ways n
  | none => ⟨[], a.nil_mem_ways n⟩
  | some ⟨i, way⟩ => ⟨i :: way.1, cons_mem_ways_iff.mpr ⟨_, List.getElem?_eq_getElem i.isLt, way.2⟩⟩

theorem bijective_extendWay (a : Arena α) (n : NodeId) : Function.Bijective (a.extendWay n) := by
  constructor
  · rintro (_ | ⟨i, way, hway⟩) (_ | ⟨j, way', hway'⟩) heq
    · rfl
    · cases congrArg Subtype.val heq
    · cases congrArg Subtype.val heq
    · obtain ⟨hij, rfl⟩ := List.cons.inj (congrArg Subtype.val heq)
      obtain rfl := Fin.ext hij
      rfl
  · rintro ⟨_ | ⟨i, way⟩, hway⟩
    · exact ⟨none, rfl⟩
    · obtain ⟨c, hc, hmem⟩ := cons_mem_ways_iff.mp hway
      obtain ⟨hi, rfl⟩ := List.getElem?_eq_some_iff.mp hc
      exact ⟨some ⟨⟨i, hi⟩, ⟨way, hmem⟩⟩, rfl⟩

/-- Where all ways down from a node end, they are finitely many. -/
theorem finite_ways (h : Acc a.IsOperand n) : (a.ways n).Finite := by
  induction h with
  | intro n _ ih =>
    have hoperand : ∀ i : Fin (a.operands n).length, Finite (a.ways ((a.operands n).get i)) := fun i =>
      ih _ (List.get_mem ..)
    exact Set.finite_coe_iff.mp (.of_surjective _ (a.bijective_extendWay n).surjective)

/-- The number of ways down from the nodes of a list, those of a node counted as often as it occurs. -/
noncomputable def wayCount (a : Arena α) (ns : List NodeId) : Nat := (ns.map fun n => (a.ways n).ncard).sum

@[simp] theorem wayCount_nil (a : Arena α) : a.wayCount [] = 0 := rfl

@[simp] theorem wayCount_cons (a : Arena α) (n : NodeId) (ns : List NodeId) :
    a.wayCount (n :: ns) = (a.ways n).ncard + a.wayCount ns := by
  simp [wayCount]

@[simp] theorem wayCount_append (a : Arena α) (ns ms : List NodeId) :
    a.wayCount (ns ++ ms) = a.wayCount ns + a.wayCount ms := by
  simp [wayCount]

theorem wayCount_le_of_sublist (a : Arena α) {ns ms : List NodeId} (h : ns.Sublist ms) :
    a.wayCount ns ≤ a.wayCount ms :=
  (h.map _).sum_le_sum fun _ _ => Nat.zero_le _

/-- **Ways down are counted from below**: apart from the empty one, each goes on from an operand position. -/
theorem ncard_ways (h : Acc a.IsOperand n) : (a.ways n).ncard = 1 + a.wayCount (a.operands n) := by
  have hoperand : ∀ i : Fin (a.operands n).length, Finite (a.ways ((a.operands n).get i)) := fun i =>
    finite_ways (h.inv (List.get_mem ..))
  calc (a.ways n).ncard
      = Nat.card (Option (Σ i : Fin (a.operands n).length, a.ways ((a.operands n).get i))) :=
        (Nat.card_eq_of_bijective _ (a.bijective_extendWay n)).symm
    _ = 1 + ∑ i : Fin (a.operands n).length, (a.ways ((a.operands n).get i)).ncard := by
        rw [Finite.card_option, Nat.card_sigma, Nat.add_comm]
        rfl
    _ = 1 + a.wayCount (a.operands n) := by
        rw [wayCount, ← Fin.sum_univ_fun_getElem]
        rfl

/-- There are no more ways down from a node than it weighs. -/
theorem ncard_ways_le_weight (h : Acc a.IsOperand n) : (a.ways n).ncard ≤ a.weight n := by
  induction h with
  | intro n hacc ih =>
    have hoperands : a.wayCount (a.operands n) ≤ ((a.operands n).map a.weight).sum := List.sum_le_sum ih
    have hweight := sum_weight_operands_lt (.intro n hacc)
    rw [ncard_ways (.intro n hacc)]
    omega

/-- Their number is at most exponential in the number of edges. -/
theorem Acyclic.wayCount_le (h : a.Acyclic) (ns : List NodeId) :
    a.wayCount ns ≤ ns.length * 2 ^ a.edgeCount := by
  have hle := List.sum_le_card_nsmul (ns.map fun n => (a.ways n).ncard) (2 ^ a.edgeCount)
    (by simpa using fun n _ => (ncard_ways_le_weight (h.apply n)).trans (a.weight_le n))
  rwa [List.length_map] at hle

end IntervalDag.Arena
