import Mathlib
import IntervalDag.Operator.Table
import IntervalDag.Proofs.Graph.Requests

/-!
# What digests are made of

The default handlers mix one list of words for each node (`Handler.digest_default`): words for its kind and then the
digests of its operands. Sums and products put the latter in an order of their own, those of a sum each with its
coefficient. `Kind.feed` is that list. It can be read back: two kinds feed the same words exactly if they agree bit for
bit and the operands are the same, up to the order of terms and factors (`Kind.feed_eq_feed_iff`).
-/

namespace IntervalDag

variable {α β γ : Type}

/-! ### Lists in an order of their own -/

/-- Lists sorted by a key of their own are equal exactly if they are rearrangements of each other. -/
theorem mergeSort_eq_mergeSort_iff [LinearOrder γ] {le : β → β → Bool} {key : β → γ} (hkey : Function.Injective key)
    (hle : ∀ a b, le a b = true ↔ key a ≤ key b) {xs ys : List β} :
    xs.mergeSort le = ys.mergeSort le ↔ xs.Perm ys := by
  have htrans : ∀ a b c, le a b = true → le b c = true → le a c = true := fun a b c hab hbc =>
    (hle a c).mpr (((hle a b).mp hab).trans ((hle b c).mp hbc))
  have htotal : ∀ a b, (le a b || le b a) = true := fun a b => by
    rw [Bool.or_eq_true, hle, hle]
    exact le_total _ _
  refine ⟨fun h => ?_, fun h => ?_⟩
  · exact (List.mergeSort_perm xs le).symm.trans (h ▸ List.mergeSort_perm ys le)
  · refine List.Perm.eq_of_pairwise (fun a b _ _ hab hba => ?_) (List.pairwise_mergeSort htrans htotal xs)
      (List.pairwise_mergeSort htrans htotal ys) ?_
    · exact hkey (((hle a b).mp hab).antisymm ((hle b a).mp hba))
    · exact (List.mergeSort_perm xs le).trans (h.trans (List.mergeSort_perm ys le).symm)

/-- A rearrangement of images is the image of a rearrangement. -/
theorem exists_perm_of_map_perm {f : β → γ} {xs : List β} {ys : List γ} (h : (xs.map f).Perm ys) :
    ∃ xs', xs.Perm xs' ∧ xs'.map f = ys := by
  have hcomp : Relation.Comp (List.Forall₂ fun x y => f x = y) List.Perm xs ys :=
    ⟨xs.map f, List.forall₂_map_right_iff.mpr (List.forall₂_same.mpr fun _ _ => rfl), h⟩
  rw [List.forall₂_comp_perm_eq_perm_comp_forall₂] at hcomp
  obtain ⟨xs', hperm, hall⟩ := hcomp
  refine ⟨xs', hperm, ?_⟩
  rw [← List.forall₂_eq_eq_eq]
  exact List.forall₂_map_left_iff.mpr hall

/-- Pairs written one after another can be read back. -/
theorem flatMap_pair_injective : Function.Injective fun ps : List (β × β) => ps.flatMap fun (x, y) => [x, y] := by
  intro ps
  induction ps with
  | nil =>
    rintro (_ | ⟨⟨x, y⟩, qs⟩) h
    · rfl
    · cases h
  | cons p ps ih =>
    rintro (_ | ⟨⟨x, y⟩, qs⟩) h
    · cases h
    · simp only [List.flatMap_cons, List.cons_append, List.nil_append, List.cons.injEq] at h
      obtain ⟨hx, hy, hrest⟩ := h
      rw [ih hrest, ← hx, ← hy]

namespace WeightedSum

/-- Pairs of words are compared by the first ones, and by the second ones if those are equal. -/
theorem pairLe_iff (a b : UInt64 × UInt64) :
    pairLe a b = true ↔ toLex (a.1.toNat, a.2.toNat) ≤ toLex (b.1.toNat, b.2.toNat) := by
  rw [pairLe, Prod.Lex.le_iff]
  simp [UInt64.lt_iff_toNat_lt, UInt64.le_iff_toNat_le, UInt64.toNat_inj]

theorem mergeSort_pairLe_eq_iff {xs ys : List (UInt64 × UInt64)} :
    xs.mergeSort pairLe = ys.mergeSort pairLe ↔ xs.Perm ys := by
  refine mergeSort_eq_mergeSort_iff (fun a b h => ?_) pairLe_iff
  obtain ⟨hfst, hsnd⟩ := Prod.mk.inj (toLex.injective h)
  exact Prod.ext (UInt64.toNat_inj.mp hfst) (UInt64.toNat_inj.mp hsnd)

end WeightedSum

namespace Kind

variable [BitPattern α]

/-! ### Kinds that agree -/

/-- Two kinds agree in their operator and, bit for bit, in their data. The coefficients of sums are left to be compared
with the operands. -/
inductive Agrees : Kind α → Kind α → Prop
  | var (v : VarId) : Agrees (.var v) (.var v)
  | value {x y : α} (h : BitPattern.toBits x = BitPattern.toBits y) : Agrees (.value x) (.value y)
  | sum {coefs coefs' : List α} {x y : α} (h : BitPattern.toBits x = BitPattern.toBits y) :
      Agrees (.sum coefs x) (.sum coefs' y)
  | product {x y : α} (h : BitPattern.toBits x = BitPattern.toBits y) : Agrees (.product x) (.product y)
  | pow {x y : α} (h : BitPattern.toBits x = BitPattern.toBits y) : Agrees (.pow x) (.pow y)
  | exp : Agrees .exp .exp
  | log : Agrees .log .log
  | sin : Agrees .sin .sin
  | cos : Agrees .cos .cos
  | abs : Agrees .abs .abs
  | entropy : Agrees .entropy .entropy

/-- The number of a variable fits into a word. -/
def NumberFits : Kind α → Prop
  | .var v => v < UInt64.size
  | _ => True

omit [BitPattern α] in
theorem op_eq_of_index {k k' : Kind α} (h : k.op.index.toUInt64 = k'.op.index.toUInt64) : k.op = k'.op := by
  revert h
  generalize k.op = o
  generalize k'.op = o'
  cases o <;> cases o' <;> decide

theorem Agrees.words_eq {k k' : Kind α} (h : k.Agrees k') : k.words = k'.words := by
  cases h with
  | var v => rfl
  | value h | sum h | product h | pow h => exact congrArg (fun w => [_, w]) h
  | exp | log | sin | cos | abs | entropy => rfl

theorem length_words_eq {k k' : Kind α} (hop : k.op = k'.op) : k.words.length = k'.words.length := by
  cases k <;> cases k' <;> first | rfl | cases hop

/-- The words of a kind say what it is. -/
theorem agrees_of_words_eq {k k' : Kind α} (hk : k.NumberFits) (hk' : k'.NumberFits) (h : k.words = k'.words) :
    k.Agrees k' := by
  have hop : k.op = k'.op := op_eq_of_index (List.cons.inj h).1
  have hdata := (List.cons.inj h).2
  cases k <;> cases k' <;> try cases hop
  case var v w =>
    have hv : v.toUInt64.toNat = w.toUInt64.toNat := congrArg UInt64.toNat (List.cons.inj hdata).1
    rw [Nat.toUInt64_eq, Nat.toUInt64_eq, UInt64.toNat_ofNat', UInt64.toNat_ofNat', Nat.mod_eq_of_lt hk,
      Nat.mod_eq_of_lt hk'] at hv
    exact hv ▸ .var v
  case value | sum | product | pow =>
    constructor
    exact (List.cons.inj hdata).1
  all_goals constructor

/-! ### Operands in another order -/

/-- The second list has the operands of `k'` in an order in which they can be compared with those of `k` one by one.
Factors may change places, and so may terms as long as they come to stand where `k` has their coefficient. -/
def Rearranges (k k' : Kind α) (operands ordered : List β) : Prop :=
  match k, k' with
  | .sum coefs _, .sum coefs' _ =>
    ((coefs'.map BitPattern.toBits).zip operands).Perm ((coefs.map BitPattern.toBits).zip ordered)
  | .product _, .product _ => operands.Perm ordered
  | _, _ => operands = ordered

theorem Rearranges.map {k k' : Kind α} {operands ordered : List β} (h : k.Rearranges k' operands ordered) (f : β → γ) :
    k.Rearranges k' (operands.map f) (ordered.map f) := by
  unfold Rearranges at *
  split at h
  · rw [List.zip_map_right, List.zip_map_right]
    exact h.map _
  · exact h.map f
  · exact congrArg (List.map f) h

/-- Results of operands can only be rearranged with the operands. -/
theorem exists_rearranges_of_map {k k' : Kind α} {operands : List β} {f : β → γ} {results : List γ}
    (h : k.Rearranges k' (operands.map f) results) (hk : k.Takes results.length) (hk' : k'.Takes operands.length) :
    ∃ ordered, k.Rearranges k' operands ordered ∧ ordered.map f = results := by
  unfold Rearranges at *
  split at h
  · rename_i coefs _ coefs' _
    rw [List.zip_map_right] at h
    obtain ⟨pairs, hperm, hpairs⟩ := exists_perm_of_map_perm h
    have hlength : (coefs.map BitPattern.toBits).length = results.length := by
      rw [List.length_map, takes_sum_iff.mp hk]
    -- the pairs come with the coefficients of the first sum
    have hfst : pairs.map Prod.fst = coefs.map BitPattern.toBits := by
      rw [← List.map_fst_zip hlength.le, ← hpairs, List.map_map]
      rfl
    have hsnd : pairs.map (f ∘ Prod.snd) = results := by
      rw [← List.map_snd_zip hlength.ge, ← hpairs, List.map_map]
      rfl
    refine ⟨pairs.map Prod.snd, ?_, by rw [List.map_map, hsnd]⟩
    rw [← hfst, ← List.unzip_fst, ← List.unzip_snd, List.zip_unzip]
    exact hperm
  · exact exists_perm_of_map_perm h
  · exact ⟨operands, rfl, h⟩

theorem Rearranges.subset {k k' : Kind α} {operands ordered : List β} (h : k.Rearranges k' operands ordered)
    (hk : k.Takes ordered.length) : ∀ e ∈ ordered, e ∈ operands := by
  unfold Rearranges at h
  intro e he
  split at h
  · rename_i coefs _ coefs' _
    have hlength : ordered.length ≤ (coefs.map BitPattern.toBits).length := by
      rw [List.length_map, takes_sum_iff.mp hk]
    rw [← List.map_snd_zip hlength] at he
    obtain ⟨⟨c, e⟩, hpair, rfl⟩ := List.mem_map.mp he
    exact (List.of_mem_zip (h.mem_iff.mpr hpair)).2
  · exact h.mem_iff.mpr he
  · exact h ▸ he

/-! ### Feeds -/

/-- The words for the operands of a node: how many there are, and their digests. -/
def operandWords (k : Kind α) (digests : List UInt64) : List UInt64 :=
  match k with
  | .sum coefs _ =>
    let terms := ((digests.zip coefs).map fun (h, c) => (h, BitPattern.toBits c)).mergeSort WeightedSum.pairLe
    terms.length.toUInt64 :: terms.flatMap fun (h, c) => [h, c]
  | .product _ =>
    let factors := digests.mergeSort fun a b => a ≤ b
    factors.length.toUInt64 :: factors
  | _ => digests.length.toUInt64 :: digests

/-- The words that the digest of a node is mixed from. -/
def feed (k : Kind α) (digests : List UInt64) : List UInt64 := k.words ++ k.operandWords digests

/-- The coefficients of a sum stand with the digests of their operands. -/
theorem map_zip_eq (digests : List UInt64) (coefs : List α) :
    ((digests.zip coefs).map fun (h, c) => (h, BitPattern.toBits c)) =
      ((coefs.map BitPattern.toBits).zip digests).map Prod.swap := by
  rw [List.zip_swap, List.zip_map_right]
  rfl

/-- A sum feeds the same words for rearranged terms only. -/
theorem operandWords_sum_eq_iff {coefs coefs' : List α} {x y : α} {digests digests' : List UInt64} :
    (Kind.sum coefs x).operandWords digests = (Kind.sum coefs' y).operandWords digests' ↔
      (Kind.sum coefs x).Rearranges (.sum coefs' y) digests' digests := by
  have hswap : Function.Injective (Prod.swap : UInt64 × UInt64 → UInt64 × UInt64) := Prod.swap_injective
  have hsorted : (Kind.sum coefs x).Rearranges (.sum coefs' y) digests' digests ↔ _ :=
    (List.map_perm_map_iff hswap).symm.trans (List.perm_comm.trans WeightedSum.mergeSort_pairLe_eq_iff.symm)
  rw [hsorted, operandWords, operandWords, map_zip_eq, map_zip_eq]
  refine ⟨fun h => flatMap_pair_injective (List.cons.inj h).2, fun h => ?_⟩
  rw [h]

/-- A product feeds the same words for rearranged factors only. -/
theorem operandWords_product_eq_iff {x y : α} {digests digests' : List UInt64} :
    (Kind.product x).operandWords digests = (Kind.product y).operandWords digests' ↔ digests'.Perm digests := by
  have hsorted : digests.Perm digests' ↔ _ := (mergeSort_eq_mergeSort_iff (fun _ _ => UInt64.toNat_inj.mp)
    fun a b => decide_eq_true_iff.trans UInt64.le_iff_toNat_le).symm
  rw [List.perm_comm, hsorted, operandWords, operandWords]
  refine ⟨fun h => (List.cons.inj h).2, fun h => ?_⟩
  rw [h]

theorem Agrees.operandWords_eq_iff {k k' : Kind α} (h : k.Agrees k') {digests digests' : List UInt64} :
    k.operandWords digests = k'.operandWords digests' ↔ k.Rearranges k' digests' digests := by
  have hplain : digests.length.toUInt64 :: digests = digests'.length.toUInt64 :: digests' ↔ digests' = digests :=
    ⟨fun h => (List.cons.inj h).2.symm, fun h => by rw [h]⟩
  cases h with
  | sum _ => exact operandWords_sum_eq_iff
  | product _ => exact operandWords_product_eq_iff
  | _ => exact hplain

theorem Agrees.feed_eq {k k' : Kind α} (h : k.Agrees k') {digests digests' : List UInt64}
    (horder : k.Rearranges k' digests' digests) : k.feed digests = k'.feed digests' := by
  rw [feed, feed, h.words_eq, h.operandWords_eq_iff.mpr horder]

/-- **Feeds can be read back.** Two kinds feed the same words only if they agree and the digests of their operands are
the same in some order that the kinds allow. -/
theorem feed_eq_feed_iff {k k' : Kind α} (hk : k.NumberFits) (hk' : k'.NumberFits) {digests digests' : List UInt64} :
    k.feed digests = k'.feed digests' ↔ k.Agrees k' ∧ k.Rearranges k' digests' digests := by
  refine ⟨fun h => ?_, fun h => h.1.feed_eq h.2⟩
  have hop : k.op = k'.op := op_eq_of_index (List.cons.inj h).1
  obtain ⟨hwords, hoperands⟩ := List.append_inj h (length_words_eq hop)
  have hagrees := agrees_of_words_eq hk hk' hwords
  exact ⟨hagrees, hagrees.operandWords_eq_iff.mp hoperands⟩

end Kind

/-- The default handlers mix what kinds feed. -/
theorem Handler.digest_default [Scalar α] [BitPattern α] (settings : Settings α) (mix : List UInt64 → UInt64)
    (k : Kind α) (digests : List UInt64) :
    (Handler.default settings k.op).digest mix k digests = .ok (mix (k.feed digests)) := by
  cases k <;> rfl

end IntervalDag
