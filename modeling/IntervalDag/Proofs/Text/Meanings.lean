import IntervalDag.Proofs.Analysis.Formulas
import IntervalDag.Proofs.Interval.Roots
import IntervalDag.Proofs.Operator.Algebraic
import IntervalDag.Proofs.Text.Shortest

/-!
# What formulas mean

A term has a value once its variables have theirs (`Formula.Term.value`). A numeral stands for the number of the format
that is nearest. `Formula.Means` says of a text that it reads as a term for a function of the variables. The rules for
reading carry over to it. With them, what is written for sums and products means weighted sums and products of what is
written for the operands (`Formula.exists_sum`, `Formula.exists_product`).
-/

namespace IntervalDag.Formula

open Exact NumberText Binary64

/-! ### Terms -/

/-- A function of real variables, which may be undefined. -/
abbrev Meaning := (VarId → Option ℝ) → Option ℝ

/-- The value of a function. -/
noncomputable def Function.value : Function → ℝ → Option ℝ
  | exp, r => some (Real.exp r)
  | log, r => if 0 < r then some (Real.log r) else none
  | sin, r => some (Real.sin r)
  | cos, r => some (Real.cos r)
  | abs, r => some |r|
  | entropy, r => if 0 ≤ r then some (-r * Real.log r) else none

open Classical in
/-- The value of two operands with a connective in between. -/
noncomputable def Connective.value : Connective → ℝ → ℝ → Option ℝ
  | plus, r, s => some (r + s)
  | minus, r, s => some (r - s)
  | times, r, s => some (r * s)
  | power, r, s => if HasPower r s then some (r ^ s) else none

/-- The value of a term, where variables have the given ones. -/
noncomputable def Term.value (x : VarId → Option ℝ) : Term → Option ℝ
  | number q => some (nearest q : ℚ)
  | var v => x v
  | negate t => (t.value x).map fun r => -r
  | join c s t => (s.value x).bind fun r => (t.value x).bind (c.value r)
  | apply f t => (t.value x).bind f.value

/-! ### Texts -/

/-- **A text means a function.** It reads as a term for it. -/
def Means (above level : ℕ) (text : String) (f : Meaning) : Prop :=
  ∃ t, Reads above level text t ∧ ∀ x, t.value x = f x

variable {above above' level level' : ℕ} {text text' : String} {f g : Meaning} {v : Float}

namespace Means

theorem congr (h : Means above level text f) (hfg : ∀ x, f x = g x) : Means above level text g := by
  obtain ⟨t, hreads, hvalue⟩ := h
  exact ⟨t, hreads, fun x => (hvalue x).trans (hfg x)⟩

theorem mono (h : Means above level text f) (habove : above' ≤ above) (hlevel : level' ≤ level) :
    Means above' level' text f := by
  obtain ⟨t, hreads, hvalue⟩ := h
  exact ⟨t, hreads.mono habove hlevel, hvalue⟩

theorem negate (h : Means 4 2 text f) : Means 4 2 ("-" ++ text) fun x => (f x).map fun r => -r := by
  obtain ⟨t, hreads, hvalue⟩ := h
  exact ⟨.negate t, hreads.negate, fun x => by rw [Term.value, hvalue]⟩

theorem join {c : Connective} {between : String} (hc : c.IsWritten between) (level : ℕ)
    (h : Means c.reach c.reach text f) (h' : Means (c.level + 1) level text' g) (hlevel : level ≤ c.level) :
    Means c.reach level (text ++ between ++ text') fun x => (f x).bind fun r => (g x).bind (c.value r) := by
  obtain ⟨t, hreads, hvalue⟩ := h
  obtain ⟨t', hreads', hvalue'⟩ := h'
  exact ⟨.join c t t', hreads.join hc hreads' hlevel, fun x => by rw [Term.value, hvalue, hvalue']⟩

/-- Parentheses. -/
theorem parentheses (h : Means 1 1 text f) : Means 4 4 ("(" ++ text ++ ")") f := by
  obtain ⟨t, hreads, hvalue⟩ := h
  have hparentheses : Reads 4 4 ("" ++ "(" ++ text ++ ")") ((Pending.opened none).complete t) :=
    hreads.parentheses nofun rfl
  exact ⟨t, by simpa [Pending.complete] using hparentheses, hvalue⟩

/-- Functions. -/
theorem apply (F : Function) (h : Means 1 1 text f) :
    Means 4 4 (F.name ++ "(" ++ text ++ ")") fun x => (f x).bind F.value := by
  obtain ⟨t, hreads, hvalue⟩ := h
  have hname : F.name.toList.all Token.isWordChar = true := by cases F <;> rfl
  have hopening : Token.opening? F.name.toList = some (.opened (some F)) := by cases F <;> rfl
  exact ⟨.apply F t, hreads.parentheses (List.all_eq_true.mp hname) hopening, fun x => by rw [Term.value, hvalue]⟩

theorem var (v : VarId) : Means 4 4 (variableName v) fun x => x v := ⟨.var v, reads_variableName v, fun _ => rfl⟩

end Means

/-! ### Numbers -/

theorem value_numeral (hv : Scalar.isFinite v = true) (x : VarId → Option ℝ) :
    (numeral v).value x = some ((value v : ℚ) : ℝ) := by
  rw [value_eq hv, numeral]
  cases sign v with
  | positive => rfl
  | negative => simp [Term.value]

theorem means_plain (hv : Scalar.isFinite v = true) : Means 4 2 (plain v) fun _ => some ((value v : ℚ) : ℝ) :=
  ⟨numeral v, reads_plain hv, value_numeral hv⟩

theorem means_plain_of_positive (hv : Scalar.isFinite v = true) (hsign : sign v = .positive) :
    Means 4 4 (plain v) fun _ => some ((value v : ℚ) : ℝ) :=
  ⟨numeral v, reads_plain_of_positive hv hsign, value_numeral hv⟩

theorem value_one : value 1 = 1 := by decide +kernel

theorem value_neg_one : value (-1) = -1 := by decide +kernel

theorem value_zero : value 0 = 0 := by decide +kernel

/-! ### Sums -/

theorem allValues_cons {β : Type} (v : Option β) (vs : List (Option β)) :
    Handler.allValues (v :: vs) = v.bind fun r => (Handler.allValues vs).map (r :: ·) := by
  cases v <;> rfl

/-- A factor in front of an operand, which is left out if it is one. -/
theorem Means.scale {c : Float} (hc : Scalar.isFinite c = true) (h : Means 4 2 text f) :
    Means 2 2 ((if c == 1 then "" else plain c ++ "*") ++ text) fun x => (f x).map fun r => (value c : ℚ) * r := by
  split_ifs with hone
  · have hc : value c = 1 := (value_eq_of_beq hone).trans value_one
    rw [String.empty_append]
    refine (h.mono (by decide) le_rfl).congr fun x => ?_
    cases f x <;> simp [hc]
  · have hfactor : Means 2 2 (plain c) _ := (means_plain hc).mono (by decide) le_rfl
    refine (hfactor.join isWritten_times 2 (h.mono (by decide) le_rfl) le_rfl).congr fun x => ?_
    cases f x <;> simp [Connective.value]

/-- The first term of a sum. -/
theorem Means.first {c : Float} (hc : Scalar.isFinite c = true) (h : Means 4 2 text f) :
    Means 1 1 (term c true ++ text) fun x => (f x).map fun r => (value c : ℚ) * r := by
  rw [term, if_pos rfl]
  split_ifs with hneg hone
  · have hc : value c = -1 := (value_eq_of_beq hneg).trans value_neg_one
    refine (h.negate.mono (by decide) (by decide)).congr fun x => ?_
    cases f x <;> simp [hc]
  all_goals simpa [hone] using (h.scale hc).mono (by decide) (by decide)

/-- What follows on a sum, with its sign as the operator. -/
theorem Means.offset {c : Float} (hc : Scalar.isFinite c = true) (h : Means 1 1 text f)
    (h' : Means 2 1 text' fun x => (g x).map fun r => (|value c| : ℚ) * r) :
    Means 1 1 (text ++ (if c < 0 then " - " else " + ") ++ text') fun x =>
      (f x).bind fun r => (g x).map fun r' => r + (value c : ℚ) * r' := by
  split_ifs with hneg
  · have habs : |value c| = -value c := abs_of_neg ((lt_zero_iff hc).mp hneg)
    refine (h.join isWritten_minus 1 h' le_rfl).congr fun x => ?_
    cases f x <;> cases g x <;> simp [Connective.value, habs]
  · have habs : |value c| = value c := abs_of_nonneg (not_lt.mp fun h => hneg ((lt_zero_iff hc).mpr h))
    refine (h.join isWritten_plus 1 h' le_rfl).congr fun x => ?_
    cases f x <;> cases g x <;> simp [Connective.value, habs]

/-- Further terms. -/
theorem Means.next {c : Float} (hc : Scalar.isFinite c = true) (h : Means 1 1 text f) (h' : Means 4 2 text' g) :
    Means 1 1 (text ++ (term c false ++ text')) fun x =>
      (f x).bind fun r => (g x).map fun r' => r + (value c : ℚ) * r' := by
  obtain ⟨habs, hsize⟩ := value_abs hc
  have hscaled := (h'.scale habs).mono le_rfl one_le_two
  rw [hsize] at hscaled
  have hoffset := h.offset hc (g := g) (by exact_mod_cast hscaled)
  rw [term]
  simp only [Bool.false_eq_true, if_false]
  split_ifs at hoffset ⊢ <;> simpa [String.append_assoc] using hoffset

/-- **Terms** are added to what they follow, one after another. -/
theorem exists_terms (before : List Float) (constant : Float) {coefs cs : List Float} {texts : List String}
    {fs : List Meaning} {i : ℕ} (htexts : List.Forall₂ (Means 4 2) texts fs) (hcoefs : coefs = before ++ cs)
    (hbefore : before.length = i) (hi : 0 < i) (hlen : cs.length = texts.length)
    (hfinite : ∀ c ∈ cs, Scalar.isFinite c = true) (h : Means 1 1 text f) :
    ∃ parts, (texts.zipIdx i).mapM (fun p => (· ++ p.1) <$> separator (.sum coefs constant) p.2) = .ok parts ∧
      Means 1 1 (text ++ String.join parts) fun x => (f x).bind fun r =>
        (Handler.allValues (fs.map (· x))).map fun rs =>
          r + WeightedSum.realTotal (cs.map fun c => ((value c : ℚ) : ℝ)) rs := by
  induction htexts generalizing i before cs text f with
  | nil =>
    obtain rfl := List.length_eq_zero_iff.mp hlen
    refine ⟨[], rfl, ?_⟩
    rw [String.join_nil, String.append_empty]
    refine h.congr fun x => ?_
    cases f x <;> simp [Handler.allValues, WeightedSum.realTotal]
  | @cons text' g texts fs hg _ ih =>
    obtain ⟨c, cs, rfl⟩ := List.exists_cons_of_length_eq_add_one hlen
    obtain ⟨hc, hfinite⟩ := List.forall_mem_cons.mp hfinite
    obtain ⟨parts, hparts, hmeans⟩ := ih (before ++ [c]) (by simpa using hcoefs)
      (by simpa using hbefore) (Nat.succ_pos i) (Nat.succ.inj hlen) hfinite (h.next hc hg)
    have hseparator : separator (.sum coefs constant) i = .ok (term c false) := by
      rw [separator, hcoefs, Checked.get_append_cons hbefore, Checked.ok_bind, beq_false_of_ne hi.ne']
      rfl
    refine ⟨(term c false ++ text') :: parts, ?_, ?_⟩
    · rw [List.zipIdx_cons, List.mapM_cons, hseparator, hparts]
      rfl
    · rw [String.join_cons, ← String.append_assoc]
      refine hmeans.congr fun x => ?_
      simp only [List.map_cons, allValues_cons]
      cases f x <;> cases g x <;> cases Handler.allValues (fs.map (· x)) <;>
        simp [WeightedSum.realTotal_cons, add_assoc]

/-- What follows on the last term of a sum. -/
theorem Means.closing_sum {c : Float} (hc : Scalar.isFinite c = true) (h : Means 1 1 text f) (coefs : List Float)
    (count : ℕ) : Means 4 4 ("(" ++ text ++ closing (.sum coefs c) (count + 1)) fun x =>
      (f x).map fun r => (value c : ℚ) + r := by
  obtain ⟨habs, hsize⟩ := value_abs hc
  rw [closing, if_neg (Nat.succ_ne_zero count)]
  by_cases hzero : (c == 0) = true
  · have hc : value c = 0 := (value_eq_of_beq hzero).trans value_zero
    rw [if_pos hzero]
    refine h.parentheses.congr fun x => ?_
    cases f x <;> simp [hc]
  · have hmeans := means_plain habs
    rw [hsize] at hmeans
    have hoffset := h.offset hc (g := fun _ => some 1) ((hmeans.mono (by decide) (by decide)).congr fun x => by simp)
    rw [if_neg hzero]
    have hparentheses := hoffset.parentheses
    simp only [String.append_assoc] at hparentheses ⊢
    refine hparentheses.congr fun x => ?_
    cases f x <;> simp [add_comm]

/-- **Weighted sums.** -/
theorem exists_sum (name : String) {coefs : List Float} {constant : Float} {texts : List String} {fs : List Meaning}
    (htexts : List.Forall₂ (Means 4 2) texts fs) (hlen : coefs.length = texts.length)
    (hcoefs : ∀ c ∈ coefs, Scalar.isFinite c = true) (hconstant : Scalar.isFinite constant = true) :
    ∃ text, compose name (.sum coefs constant) texts = .ok text ∧
      Means 4 4 text fun x => (Handler.allValues (fs.map (· x))).map fun rs =>
        (value constant : ℚ) + WeightedSum.realTotal (coefs.map fun c => ((value c : ℚ) : ℝ)) rs := by
  cases htexts with
  | nil =>
    obtain rfl := List.length_eq_zero_iff.mp hlen
    refine ⟨_, rfl, ?_⟩
    have hmeans := ((means_plain hconstant).mono (by decide) one_le_two).parentheses
    simpa [Handler.allValues, WeightedSum.realTotal, opening, closing, String.append_assoc] using hmeans
  | @cons text f texts fs hf hfs =>
    obtain ⟨c, cs, rfl⟩ := List.exists_cons_of_length_eq_add_one hlen
    obtain ⟨hc, hcs⟩ := List.forall_mem_cons.mp hcoefs
    obtain ⟨parts, hparts, hmeans⟩ := exists_terms [c] constant hfs rfl rfl Nat.one_pos
      (Nat.succ.inj hlen) hcs (hf.first hc)
    refine ⟨_, ?_, (hmeans.closing_sum hconstant (c :: cs) texts.length).congr fun x => ?_⟩
    · exact compose_cons rfl hparts
    · simp only [List.map_cons, allValues_cons]
      cases f x <;> cases Handler.allValues (fs.map (· x)) <;> simp [WeightedSum.realTotal_cons]

/-! ### Products -/

/-- **Factors** are multiplied to what they follow, one after another. -/
theorem exists_factors (coef : Float) {texts : List String} {fs : List Meaning} {i : ℕ}
    (htexts : List.Forall₂ (Means 4 2) texts fs) (hi : 0 < i) (h : Means 2 2 text f) :
    ∃ parts, (texts.zipIdx i).mapM (fun p => (· ++ p.1) <$> separator (.product coef) p.2) = .ok parts ∧
      Means 2 2 (text ++ String.join parts) fun x => (f x).bind fun r =>
        (Handler.allValues (fs.map (· x))).map fun rs => r * rs.prod := by
  induction htexts generalizing i text f with
  | nil =>
    refine ⟨[], rfl, ?_⟩
    rw [String.join_nil, String.append_empty]
    refine h.congr fun x => ?_
    cases f x <;> simp [Handler.allValues]
  | @cons text' g texts fs hg _ ih =>
    have hnext := h.join isWritten_times 2 (hg.mono (by decide) le_rfl) le_rfl
    obtain ⟨parts, hparts, hmeans⟩ := ih (Nat.succ_pos i) hnext
    have hseparator : separator (.product coef) i = .ok "*" := by
      rw [separator, if_pos hi]
      rfl
    refine ⟨("*" ++ text') :: parts, ?_, ?_⟩
    · rw [List.zipIdx_cons, List.mapM_cons, hseparator, hparts]
      rfl
    · rw [String.join_cons, ← String.append_assoc, ← String.append_assoc]
      refine hmeans.congr fun x => ?_
      simp only [List.map_cons, allValues_cons]
      cases f x <;> cases g x <;> cases Handler.allValues (fs.map (· x)) <;> simp [Connective.value, mul_assoc]

/-- **Products.** -/
theorem exists_product (name : String) {coef : Float} {texts : List String} {fs : List Meaning}
    (htexts : List.Forall₂ (Means 4 2) texts fs) (hcoef : Scalar.isFinite coef = true) :
    ∃ text, compose name (.product coef) texts = .ok text ∧
      Means 4 4 text fun x => (Handler.allValues (fs.map (· x))).map fun rs => (value coef : ℚ) * rs.prod := by
  cases htexts with
  | nil =>
    by_cases hone : (coef == 1) = true
    · have hmeans := ((means_plain (v := 1) (by decide +kernel)).mono (by decide) one_le_two).parentheses
      have htext : plain (1 : Float) = "1" := by decide +kernel
      refine ⟨"(1)", ?_, ?_⟩
      · simp [compose, opening, closing, hone]
        rfl
      · simpa [Handler.allValues, htext, value_one, value_eq_of_beq hone] using hmeans
    · refine ⟨_, rfl, ?_⟩
      have hmeans := ((means_plain hcoef).mono (by decide) one_le_two).parentheses
      simpa [Handler.allValues, opening, closing, hone] using hmeans
  | @cons text f texts fs hf hfs =>
    obtain ⟨parts, hparts, hmeans⟩ := exists_factors coef hfs Nat.one_pos (hf.scale hcoef)
    have hparentheses := (hmeans.mono (by decide) one_le_two).parentheses
    have hopening : opening name (.product coef) (texts.length + 1) =
        "(" ++ (if coef == 1 then "" else plain coef ++ "*") := by
      rw [opening, if_pos (Nat.succ_pos _)]
      split_ifs
      · rfl
      · rw [String.append_assoc]
    have hclosing : closing (.product coef) (texts.length + 1) = ")" := by
      rw [closing, if_neg fun h => Nat.succ_ne_zero _ h.1]
    have hseparator : separator (.product coef) 0 = .ok "" := rfl
    refine ⟨_, compose_cons hseparator hparts, ?_⟩
    rw [hopening, hclosing, String.empty_append]
    simp only [String.append_assoc] at hparentheses ⊢
    refine hparentheses.congr fun x => ?_
    simp only [List.map_cons, allValues_cons]
    cases f x <;> cases Handler.allValues (fs.map (· x)) <;> simp [mul_assoc]

/-! ### Powers -/

/-- Powers over what stands together. -/
theorem Means.power {p : Float} (hp : Scalar.isFinite p = true) (h : Means 4 4 text f) :
    Means 4 2 (text ++ "^" ++ plain p) fun x => (f x).bind fun r => Connective.power.value r (value p : ℚ) :=
  (h.join isWritten_power 2 (means_plain hp) (by decide)).congr fun x => by
    cases f x <;> rfl

/-- Below a minus sign, a power of zero is still zero, unless the exponent is zero as well. -/
theorem means_power_of_negative {p : Float} (hp : Scalar.isFinite p = true) (hv : Scalar.isFinite v = true)
    (hsign : sign v = .negative) (hzero : value v = 0) (hne : value p ≠ 0) :
    Means 4 2 (plain v ++ "^" ++ plain p) fun _ => Connective.power.value (value v : ℚ) (value p : ℚ) := by
  have hread : nearest (magnitude v).decimal = 0 := by
    rw [value_eq hv, hsign] at hzero
    exact neg_eq_zero.mp hzero
  have hmagnitude : Means 4 4 (plainMagnitude (magnitude v)) fun _ => some 0 :=
    ⟨_, reads_plainMagnitude _, fun x => by rw [Term.value, hread, Rat.cast_zero]⟩
  have htext : plain v = "-" ++ plainMagnitude (magnitude v) := by rw [plain_eq hv, hsign]
  rw [htext, String.append_assoc, String.append_assoc]
  have hnegate := (hmagnitude.power hp).negate
  rw [String.append_assoc] at hnegate
  refine hnegate.congr fun x => ?_
  rw [Option.bind_some, hzero, Rat.cast_zero, Connective.value]
  split_ifs
  · simp [Real.zero_rpow (Rat.cast_ne_zero.mpr hne)]
  · rfl

end IntervalDag.Formula
