import Mathlib.Data.Set.Card
import IntervalDag.Graph.SlotPool

/-!
# Slots on loan

The slots of a graph that are taken are lent to walks. `Lent` says that each of them is lent to exactly one walk, and
`Lent.update` that this stays so whatever one walk does about its slot.
-/

namespace IntervalDag

/-- The slots that are taken are lent to walks, each to one of them. -/
structure Lent (slots : Nat → Option Nat) (taken : List Nat) : Prop where
  nodup : taken.Nodup
  mem_iff : ∀ k, k ∈ taken ↔ ∃ i, slots i = some k
  injective : ∀ i j k, slots i = some k → slots j = some k → i = j

/-- A walk keeps its slot, takes a free one or gives its slot back. -/
inductive Releases (slot : Option Nat) (taken : List Nat) : Option Nat → List Nat → Prop where
  | kept : Releases slot taken slot taken
  | taken {k : Nat} (hslot : slot = none) (hk : k ∉ taken) : Releases slot taken (some k) (k :: taken)
  | given : Releases slot taken none (slot.elim taken taken.erase)

namespace Lent

variable {slots : Nat → Option Nat} {taken taken' : List Nat} {slot : Option Nat}

/-- Every slot that is taken is lent to another walk unless the walk `i` holds it. -/
theorem mem_iff_or (h : Lent slots taken) (i k : Nat) :
    k ∈ taken ↔ slots i = some k ∨ ∃ j, j ≠ i ∧ slots j = some k := by
  rw [h.mem_iff]
  constructor
  · rintro ⟨j, hj⟩
    by_cases hji : j = i
    · exact Or.inl (hji ▸ hj)
    · exact Or.inr ⟨j, hji, hj⟩
  · rintro (hi | ⟨j, -, hj⟩)
    · exact ⟨i, hi⟩
    · exact ⟨j, hj⟩

/-- What becomes of one slot leaves the others lent. -/
theorem update (h : Lent slots taken) {i : Nat} (hslot : Releases (slots i) taken slot taken') :
    Lent (Function.update slots i slot) taken' := by
  have hother : ∀ j, j ≠ i → Function.update slots i slot j = slots j := fun j hj => Function.update_of_ne hj _ _
  have hself : Function.update slots i slot i = slot := Function.update_self ..
  -- the slot that the walk comes to hold is nobody else's, and the others are those it did not hold
  obtain ⟨hnodup, hfree, htaken⟩ : taken'.Nodup ∧ (∀ j k, j ≠ i → slots j = some k → slot ≠ some k) ∧
      ∀ k, k ∈ taken' ↔ slot = some k ∨ ∃ j, j ≠ i ∧ slots j = some k := by
    have hne : ∀ j k, j ≠ i → slots j = some k → slots i ≠ some k := fun j k hj hk hi => hj (h.injective j i k hk hi)
    cases hslot with
    | kept => exact ⟨h.nodup, hne, h.mem_iff_or i⟩
    | @taken k hnone hk =>
      refine ⟨List.nodup_cons.mpr ⟨hk, h.nodup⟩, fun j k' _ hj heq => ?_, fun k' => ?_⟩
      · exact hk ((h.mem_iff k).mpr ⟨j, heq ▸ hj⟩)
      · rw [List.mem_cons, h.mem_iff_or i, hnone]
        simp [eq_comm]
    | given =>
      rcases hi : slots i with _ | k
      · refine ⟨h.nodup, fun _ _ _ _ => nofun, fun k => ?_⟩
        rw [Option.elim_none, h.mem_iff_or i, hi]
      · refine ⟨h.nodup.erase k, fun _ _ _ _ => nofun, fun k' => ?_⟩
        rw [Option.elim_some, h.nodup.mem_erase_iff, h.mem_iff_or i, hi]
        constructor
        · rintro ⟨hk, hk' | hk'⟩
          · exact absurd (Option.some.inj hk').symm hk
          · exact Or.inr hk'
        · rintro (hk' | ⟨j, hj, hk'⟩)
          · cases hk'
          · exact ⟨fun hk => hne j k' hj hk' (hi.trans (congrArg some hk.symm)), Or.inr ⟨j, hj, hk'⟩⟩
  refine ⟨hnodup, fun k => ?_, fun j j' k hj hj' => ?_⟩
  · rw [htaken]
    constructor
    · rintro (hk | ⟨j, hj, hk⟩)
      · exact ⟨i, hself.trans hk⟩
      · exact ⟨j, (hother j hj).trans hk⟩
    · rintro ⟨j, hj⟩
      by_cases hji : j = i
      · rw [hji, hself] at hj
        exact Or.inl hj
      · rw [hother j hji] at hj
        exact Or.inr ⟨j, hji, hj⟩
  · by_cases hji : j = i
    · by_cases hji' : j' = i
      · exact hji.trans hji'.symm
      · rw [hji, hself] at hj
        rw [hother j' hji'] at hj'
        exact absurd hj (hfree j' k hji' hj')
    · by_cases hji' : j' = i
      · rw [hji', hself] at hj'
        rw [hother j hji] at hj
        exact absurd hj' (hfree j k hji hj)
      · rw [hother j hji] at hj
        rw [hother j' hji'] at hj'
        exact h.injective j j' k hj hj'

/-- As many slots are taken as walks hold one. -/
theorem length_eq (h : Lent slots taken) : taken.length = {i | (slots i).isSome = true}.ncard := by
  have hex : ∀ k, ∃ i, k ∈ taken → slots i = some k := by
    intro k
    by_cases hk : k ∈ taken
    · obtain ⟨i, hi⟩ := (h.mem_iff k).mp hk
      exact ⟨i, fun _ => hi⟩
    · exact ⟨0, fun hk' => absurd hk' hk⟩
  choose holder hholder using hex
  have himage : {i | (slots i).isSome = true} = holder '' {k | k ∈ taken} := by
    ext i
    simp only [Set.mem_ofPred_eq, Set.mem_image, Option.isSome_iff_exists]
    constructor
    · rintro ⟨k, hk⟩
      have hmem : k ∈ taken := (h.mem_iff k).mpr ⟨i, hk⟩
      exact ⟨k, hmem, h.injective _ i k (hholder k hmem) hk⟩
    · rintro ⟨k, hk, rfl⟩
      exact ⟨k, hholder k hk⟩
  have hinj : Set.InjOn holder {k | k ∈ taken} := by
    intro k hk k' hk' heq
    have h₁ := hholder k hk
    rw [heq, hholder k' hk'] at h₁
    exact (Option.some.inj h₁).symm
  rw [himage, hinj.ncard_image, ← List.toFinset_card_of_nodup h.nodup, ← Set.ncard_coe_finset]
  congr 1
  ext k
  simp

end Lent

end IntervalDag
