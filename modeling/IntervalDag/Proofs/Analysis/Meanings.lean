import IntervalDag.Proofs.Analysis.Likeness
import IntervalDag.Proofs.Operator.PowerAgreement
import IntervalDag.Proofs.Text.Meanings

/-!
# Formulas mean their expressions

Over exact numbers (`Expression.map`) an expression denotes a function of real variables (`Expression.Denotes`). This is
the function that its formula means. The proof is an induction on the expression. What is written for an operand means
what the operand denotes, and it does so in every place that a node has for it (`Expression.WrittenAs`).

The base of a power is the exception, since nothing is ever written around it. It must stand together on its own
(`Expression.HasPlainBases`).
-/

namespace IntervalDag

open Scalar Exact Formula

variable {α β : Type}

/-! ### Expressions over other numbers -/

namespace Kind

/-- Replaces the numbers that a kind holds. -/
def map (f : α → β) : Kind α → Kind β
  | .var v => .var v
  | .value v => .value (f v)
  | .sum coefs constant => .sum (coefs.map f) (f constant)
  | .product coef => .product (f coef)
  | .pow exponent => .pow (f exponent)
  | .exp => .exp
  | .log => .log
  | .sin => .sin
  | .cos => .cos
  | .abs => .abs
  | .entropy => .entropy

theorem op_map (f : α → β) (kind : Kind α) : (kind.map f).op = kind.op := by
  cases kind <;> rfl

/-- The numbers that a kind holds. -/
def numbers : Kind α → List α
  | .value v => [v]
  | .sum coefs constant => constant :: coefs
  | .product coef => [coef]
  | .pow exponent => [exponent]
  | .var _ | .exp | .log | .sin | .cos | .abs | .entropy => []

end Kind

namespace Expression

mutual

/-- Replaces the numbers that an expression holds. -/
def map (f : α → β) : Expression α → Expression β
  | .node kind activity es => .node (kind.map f) ⟨f activity.inf, f activity.sup⟩ (mapAll f es)

/-- Replaces the numbers that expressions hold. -/
def mapAll (f : α → β) : List (Expression α) → List (Expression β)
  | [] => []
  | e :: es => map f e :: mapAll f es

end

theorem map_node (f : α → β) (kind : Kind α) (activity : Interval α) (es : List (Expression α)) :
    (node kind activity es).map f = .node (kind.map f) ⟨f activity.inf, f activity.sup⟩ (es.map (map f)) := by
  have hall : mapAll f es = es.map (map f) := by
    induction es with
    | nil => rfl
    | cons e es ih => rw [mapAll, ih, List.map_cons]
  rw [map, hall]

theorem allValues_map (g : α → β) (vs : List (Option α)) :
    Handler.allValues (vs.map (·.map g)) = (Handler.allValues vs).map (List.map g) := by
  induction vs with
  | nil => rfl
  | cons v vs ih =>
    rw [List.map_cons, allValues_cons, allValues_cons, ih]
    cases v <;> cases Handler.allValues vs <;> rfl

/-! ### What expressions denote -/

variable [BitPattern Exact] {settings : Settings Exact}

/-- **An expression denotes a function** of real variables. Its value over exact arithmetic is that of the function. -/
def Denotes (settings : Settings Exact) (e : Expression Float) (f : Meaning) : Prop :=
  ∀ x, (e.map Binary64.exact).value (fun k => Handler.default settings k.op) (point x) = .ok ((f x).map real)

/-- What a node denotes, from what its operands denote. -/
theorem denotes_node {kind : Kind Float} {activity : Interval Float} {es : List (Expression Float)}
    {fs : List Meaning} {f : (VarId → Option ℝ) → List ℝ → Option ℝ} (hes : List.Forall₂ (Denotes settings) es fs)
    (heval : ∀ x rs, rs.length = es.length →
      (Handler.default settings kind.op).eval (kind.map Binary64.exact) (rs.map real) (point x) =
        .ok ((f x rs).map real)) :
    Denotes settings (.node kind activity es) fun x => (Handler.allValues (fs.map (· x))).bind (f x) := by
  intro x
  change _ = Except.ok (((Handler.allValues (fs.map (· x))).bind (f x)).map real)
  have hvalues : (es.map (map Binary64.exact)).mapM (value (fun k => Handler.default settings k.op) (point x)) =
      .ok (fs.map fun f => (f x).map real) := by
    clear heval
    induction hes with
    | nil => rfl
    | cons he _ ih =>
      rw [List.map_cons, List.mapM_cons, he x, ih]
      rfl
  have hall : Handler.allValues (fs.map fun f => (f x).map real) =
      (Handler.allValues (fs.map (· x))).map (List.map real) := by
    rw [← allValues_map, List.map_map]
    rfl
  rw [map_node, value, fold_node, ← value, hvalues, Checked.ok_bind, hall, Kind.op_map]
  cases hrs : Handler.allValues (fs.map (· x)) with
  | none => rfl
  | some rs =>
    refine heval x rs ?_
    rw [Handler.allValues_eq_some_iff] at hrs
    rw [hes.length_eq]
    simpa using (congrArg List.length hrs).symm

variable {activity : Interval Float}

theorem denotes_var (v : VarId) : Denotes settings (.node (.var v) activity []) fun x => x v :=
  denotes_node (f := fun x _ => x v) .nil fun _ _ _ => rfl

theorem denotes_value {v : Float} (hv : isFinite v = true) :
    Denotes settings (.node (.value v) activity []) fun _ => some ((Binary64.value v : ℚ) : ℝ) :=
  denotes_node (f := fun _ _ => some ((Binary64.value v : ℚ) : ℝ)) .nil fun _ _ _ => by
    change Except.ok (some (Binary64.exact v)) = _
    rw [Binary64.exact_of_isFinite hv]
    rfl

variable {es : List (Expression Float)} {fs : List Meaning} {e : Expression Float} {f : Meaning}

omit [BitPattern Exact] in
/-- Finite values stand for real numbers. -/
theorem map_exact {vs : List Float} (hvs : ∀ v ∈ vs, isFinite v = true) :
    vs.map Binary64.exact = (vs.map fun v => ((Binary64.value v : ℚ) : ℝ)).map real := by
  rw [List.map_map]
  exact List.map_congr_left fun v hv => Binary64.exact_of_isFinite (hvs v hv)

/-- What a node denotes that is defined wherever its operands are. -/
theorem Denotes.of_map {kind : Kind Float} {f : List ℝ → ℝ} (hes : List.Forall₂ (Denotes settings) es fs)
    (heval : ∀ x rs, rs.length = es.length →
      (Handler.default settings kind.op).eval (kind.map Binary64.exact) (rs.map real) (point x) =
        .ok (some (real (f rs)))) :
    Denotes settings (.node kind activity es) fun x => (Handler.allValues (fs.map (· x))).map f := by
  simp only [Option.map_eq_bind]
  exact denotes_node (f := fun _ rs => some (f rs)) hes heval

theorem denotes_sum {coefs : List Float} {constant : Float} (hcoefs : ∀ c ∈ coefs, isFinite c = true)
    (hconstant : isFinite constant = true) (hes : List.Forall₂ (Denotes settings) es fs) :
    Denotes settings (.node (.sum coefs constant) activity es) fun x =>
      (Handler.allValues (fs.map (· x))).map fun rs =>
        (Binary64.value constant : ℚ) + WeightedSum.realTotal (coefs.map fun c => ((Binary64.value c : ℚ) : ℝ)) rs := by
  refine Denotes.of_map hes fun x rs _ => ?_
  rw [Kind.map, map_exact hcoefs, Binary64.exact_of_isFinite hconstant]
  exact WeightedSum.eval_real _ _ _ (point x)

theorem denotes_product {coef : Float} (hcoef : isFinite coef = true) (hes : List.Forall₂ (Denotes settings) es fs) :
    Denotes settings (.node (.product coef) activity es) fun x =>
      (Handler.allValues (fs.map (· x))).map fun rs => (Binary64.value coef : ℚ) * rs.prod := by
  refine Denotes.of_map hes fun x rs _ => ?_
  rw [Kind.map, Binary64.exact_of_isFinite hcoef]
  exact Product.eval_real _ _ (point x)

/-- What a node with one operand denotes. -/
theorem Denotes.unary {kind : Kind Float} {F : ℝ → Option ℝ} (he : e.Denotes settings f)
    (heval : ∀ x r, (Handler.default settings kind.op).eval (kind.map Binary64.exact) [real r] (point x) =
      .ok ((F r).map real)) : Denotes settings (.node kind activity [e]) fun x => (f x).bind F := by
  have hnode : Denotes settings (.node kind activity [e]) fun x =>
      (Handler.allValues [f x]).bind fun rs => rs.head?.bind F :=
    denotes_node (f := fun _ rs => rs.head?.bind F) (.cons he .nil) fun x rs hlen => by
      obtain ⟨r, rfl⟩ := List.length_eq_one_iff.mp hlen
      exact heval x r
  intro x
  rw [hnode x]
  cases hf : f x <;> simp [hf, Handler.allValues]

theorem denotes_pow {p : Float} (hp : isFinite p = true) (he : e.Denotes settings f) :
    Denotes settings (.node (.pow p) activity [e]) fun x =>
      (f x).bind fun r => Connective.power.value r (Binary64.value p : ℚ) := by
  refine he.unary fun x r => ?_
  rw [Kind.map, Binary64.exact_of_isFinite hp]
  generalize ((Binary64.value p : ℚ) : ℝ) = q
  have htakes : (Kind.pow (real q)).Takes [real r].length := (Kind.takes_iff_of_arity rfl).mpr rfl
  obtain ⟨v, hv⟩ := Handler.exists_eval_default settings htakes (point x)
  have hiff : ∀ v, Power.eval (.pow (real q)) [real r] (point x) = .ok (some v) ↔ HasPower r q ∧ v = real (r ^ q) :=
    fun _ => Power.eval_eq_some_iff
  refine hv.trans ?_
  rw [Connective.value]
  split_ifs with hpower
  · exact hv.symm.trans ((hiff _).mpr ⟨hpower, rfl⟩)
  · cases v with
    | none => rfl
    | some v => exact absurd ((hiff v).mp hv).1 hpower

end Expression

/-! ### Functions -/

namespace Formula.Function

/-- The kind of a function. -/
def kind : Function → Kind α
  | exp => .exp
  | log => .log
  | sin => .sin
  | cos => .cos
  | abs => .abs
  | entropy => .entropy

theorem compose_kind (F : Function) (text : String) :
    compose F.name (F.kind : Kind Float) [text] = .ok (F.name ++ "(" ++ text ++ ")") := by
  have hseparator : separator (F.kind : Kind Float) 0 = .ok "" := by cases F <;> rfl
  have hjoin : "" ++ text ++ String.join [] = text := by simp
  have hopening : opening F.name (F.kind : Kind Float) 1 = F.name ++ "(" := by cases F <;> rfl
  have hclosing : closing (F.kind : Kind Float) 1 = ")" := by cases F <;> rfl
  rw [← hopening, ← hclosing]
  exact (compose_cons hseparator rfl).trans (congrArg (fun text => Except.ok (_ ++ text ++ _)) hjoin)

theorem lift_real (f : ℝ → Exact) (low high : Exact) (r : ℝ) : lift f low high (real r) = f r := by
  simp [real, lift]

theorem log_real {r : ℝ} (hr : 0 < r) : Scalar.ln (real r) = real (Real.log r) := by
  change Exact.ln (real r) = _
  rw [Exact.ln, lift_real, if_neg hr.not_gt, if_neg hr.ne']

theorem eval_kind [BitPattern Exact] (settings : Settings Exact) (F : Function) (r : ℝ) (x : VarId → Option ℝ) :
    (Handler.default settings (F.kind : Kind Float).op).eval (F.kind.map Binary64.exact) [real r] (point x) =
      .ok ((F.value r).map real) := by
  cases F with
  | exp => exact congrArg (fun v => Except.ok (some v)) (lift_real (fun r => real (Real.exp r)) _ _ r)
  | log =>
    change Except.ok (if 0 < real r then some (Scalar.ln (real r)) else none) = _
    rw [Function.value]
    simp only [real_pos]
    split_ifs with hr
    · exact congrArg (fun v => Except.ok (some v)) (log_real hr)
    · rfl
  | sin => exact congrArg (fun v => Except.ok (some v)) (lift_real (fun r => real (Real.sin r)) _ _ r)
  | cos => exact congrArg (fun v => Except.ok (some v)) (lift_real (fun r => real (Real.cos r)) _ _ r)
  | abs => exact congrArg (fun v => Except.ok (some v)) (real_abs r)
  | entropy =>
    change Except.ok (if real r == 0 then some 0
      else if 0 < real r then some (-real r * Scalar.ln (real r)) else none) = _
    rw [Function.value]
    simp only [real_pos, real_beq_zero]
    rcases lt_trichotomy r 0 with hr | rfl | hr
    · rw [if_neg hr.ne, if_neg hr.not_gt, if_neg hr.not_ge]
      rfl
    · simp [real_zero]
    · rw [if_neg hr.ne', if_pos hr, if_pos hr.le, log_real hr, real_neg, real_mul]
      rfl

end Formula.Function

namespace Formula

theorem compose_value (name : String) (v : Float) : compose name (.value v) [] =
    .ok (if v < 0 then "(" ++ NumberText.plain v ++ ")" else NumberText.plain v) := by
  have hcompose : compose name (.value v) [] = .ok (opening name (.value v) 0 ++ String.join [] ++ "") := rfl
  simpa [opening] using hcompose

theorem compose_pow (name : String) (p : Float) (text : String) :
    compose name (.pow p) [text] = .ok (text ++ "^" ++ NumberText.plain p) := by
  have hseparator : separator (.pow p) 0 = .ok "" := rfl
  refine (compose_cons hseparator rfl).trans ?_
  simp [opening, closing, String.append_assoc]

end Formula

/-! ### Expressions that can be read -/

/-- A constant is the zero that has a minus sign. -/
def Kind.IsNegativeZero (kind : Kind Float) : Prop := ∃ v, kind = .value v ∧ (v == 0) = true ∧ isNegative v = true

namespace Expression

/-- The kind at the top. -/
def kind : Expression α → Kind α
  | .node kind _ _ => kind

/-- All numbers are finite: constants, coefficients and exponents. -/
def HasFiniteNumbers (e : Expression Float) : Prop :=
  ∀ kind activity es, Part (.node kind activity es) e → ∀ v ∈ kind.numbers, isFinite v = true

/-- What is written for it stands together as a base: it is no power, and no zero with a minus sign. -/
def StandsTogether (e : Expression Float) : Prop := (∀ p, e.kind ≠ .pow p) ∧ ¬ e.kind.IsNegativeZero

/-- Bases are no powers, and no zeros with a minus sign where the exponent is zero. There are no parentheses around
bases. -/
def HasPlainBases (e : Expression Float) : Prop :=
  ∀ p activity base, Part (.node (.pow p) activity [base]) e →
    (∀ q, base.kind ≠ .pow q) ∧ ((p == 0) = true → ¬ base.kind.IsNegativeZero)

variable {kind : Kind Float} {activity : Interval Float} {es : List (Expression Float)} {e : Expression Float}

theorem hasFiniteNumbers_node_iff : HasFiniteNumbers (.node kind activity es) ↔
    (∀ v ∈ kind.numbers, isFinite v = true) ∧ ∀ e ∈ es, e.HasFiniteNumbers := by
  refine ⟨fun h => ⟨h _ _ _ .refl, fun e he _ _ _ hpart => h _ _ _ (.operand he hpart)⟩, ?_⟩
  rintro ⟨hnumbers, hes⟩ _ _ _ hpart
  cases hpart with
  | refl => exact hnumbers
  | operand hd hpart => exact hes _ hd _ _ _ hpart

theorem hasPlainBases_node_iff : HasPlainBases (.node kind activity es) ↔
    (∀ p base, kind = .pow p → es = [base] →
      (∀ q, base.kind ≠ .pow q) ∧ ((p == 0) = true → ¬ base.kind.IsNegativeZero)) ∧
      ∀ e ∈ es, e.HasPlainBases := by
  refine ⟨fun h => ⟨?_, fun e he _ _ _ hpart => h _ _ _ (.operand he hpart)⟩, ?_⟩
  · rintro p base rfl rfl
    exact h _ _ _ .refl
  · rintro ⟨hbase, hes⟩ p _ base hpart
    cases hpart with
    | refl => exact hbase p base rfl rfl
    | operand hd hpart => exact hes _ hd _ _ _ hpart

theorem formula_var (handlers : Kind Float → Handler Float) (v : VarId) (activity : Interval Float) :
    (node (.var v) activity []).formula handlers = .ok (variableName v) := by
  rw [formula_node]
  change Except.ok (variableName v ++ String.join [] ++ "") = _
  simp

theorem formula_pow {handlers : Kind Float → Handler Float} {text : String} (p : Float) (activity : Interval Float)
    (htext : e.formula handlers = .ok text) :
    (node (.pow p) activity [e]).formula handlers = .ok (text ++ "^" ++ NumberText.plain p) := by
  rw [formula_node, List.mapM_cons, htext]
  exact compose_pow _ p text

theorem formula_value (handlers : Kind Float → Handler Float) (v : Float) (activity : Interval Float) :
    (node (.value v) activity []).formula handlers =
      .ok (if v < 0 then "(" ++ NumberText.plain v ++ ")" else NumberText.plain v) := by
  rw [formula_node]
  exact compose_value (handlers (.value v)).name v

variable [BitPattern Exact]

/-- A text means what an expression denotes, to all that takes it but a power. As a base it does so if the expression
stands together. -/
structure WrittenAs (settings : Settings Exact) (e : Expression Float) (text : String) (f : Meaning) : Prop where
  means : Means 4 2 text f
  means_together : e.StandsTogether → Means 4 4 text f
  denotes : e.Denotes settings f

theorem WrittenAs.of_together {settings : Settings Exact} {text : String} {f : Meaning} (h : Means 4 4 text f)
    (hdenotes : e.Denotes settings f) : e.WrittenAs settings text f :=
  ⟨h.mono le_rfl (by decide), fun _ => h, hdenotes⟩

/-- Constants are written in parentheses if they are below zero. -/
theorem writtenAs_value (settings : Settings Exact) {v : Float} (hv : isFinite v = true) :
    WrittenAs settings (.node (.value v) activity [])
      (if v < 0 then "(" ++ NumberText.plain v ++ ")" else NumberText.plain v)
      fun _ => some ((Binary64.value v : ℚ) : ℝ) := by
  have hdenotes : Denotes settings (.node (.value v) activity []) _ := denotes_value hv
  split_ifs with hneg
  · exact .of_together ((means_plain hv).mono (by decide) one_le_two).parentheses hdenotes
  · refine ⟨means_plain hv, fun htogether => ?_, hdenotes⟩
    have hpositive : ¬ isNegative v = true := fun hnegative => by
      have hge : 0 ≤ Binary64.value v := not_lt.mp fun h => hneg ((Binary64.lt_zero_iff hv).mpr h)
      have hzero := Binary64.beq_zero_of_value hv (le_antisymm (Binary64.value_nonpos hv hnegative) hge)
      exact htogether.2 ⟨v, rfl, hzero, hnegative⟩
    exact means_plain_of_positive hv (if_neg hpositive)

variable {settings : Settings Exact} {text : String} {f : Meaning}

/-- Functions are written around their operands. -/
theorem WrittenAs.apply (he : e.WrittenAs settings text f) (F : Function) :
    WrittenAs settings (.node F.kind activity [e]) (F.name ++ "(" ++ text ++ ")") fun x => (f x).bind F.value :=
  .of_together ((he.means.mono (by decide) one_le_two).apply F) (he.denotes.unary fun x r => F.eval_kind settings r x)

/-- A power over the zero that has a minus sign. -/
theorem writtenAs_pow_of_isNegative (settings : Settings Exact) {p v : Float} (hp : isFinite p = true)
    (hv : isFinite v = true) (hzero : (v == 0) = true) (hnegative : isNegative v = true) (hne : ¬ (p == 0) = true)
    (activity' : Interval Float) :
    WrittenAs settings (.node (.pow p) activity [.node (.value v) activity' []])
      (NumberText.plain v ++ "^" ++ NumberText.plain p)
      fun _ => Connective.power.value (Binary64.value v : ℚ) (Binary64.value p : ℚ) := by
  have hvalue : Binary64.value v = 0 := (Binary64.value_eq_of_beq hzero).trans value_zero
  exact ⟨means_power_of_negative hp hv (if_pos hnegative) hvalue fun h => hne (Binary64.beq_zero_of_value hp h),
    fun htogether => absurd rfl (htogether.1 p), denotes_pow hp (denotes_value hv)⟩

/-- Powers are written behind their bases. -/
theorem WrittenAs.exists_pow {handlers : Kind Float → Handler Float} {p : Float} (he : e.WrittenAs settings text f)
    (htext : e.formula handlers = .ok text) (hp : isFinite p = true) (hproper : e.Proper)
    (hfinite : e.HasFiniteNumbers) (hbase : ∀ q, e.kind ≠ .pow q) (hzero : (p == 0) = true → ¬ e.kind.IsNegativeZero) :
    ∃ f, WrittenAs settings (.node (.pow p) activity [e]) (text ++ "^" ++ NumberText.plain p) f := by
  by_cases hnegative : e.kind.IsNegativeZero
  · obtain ⟨kind, activity', es⟩ := e
    obtain ⟨v, rfl, hv, hsign⟩ := hnegative
    have hvfinite := (hasFiniteNumbers_node_iff.mp hfinite).1 v (List.mem_singleton_self v)
    obtain rfl := List.length_eq_zero_iff.mp ((Kind.takes_iff_of_arity rfl).mp (hproper _ _ _ .refl)).symm
    have hnonneg : ¬ v < 0 := fun h => ((Binary64.lt_zero_iff hvfinite).mp h).ne
      ((Binary64.value_eq_of_beq hv).trans value_zero)
    rw [formula_value, if_neg hnonneg] at htext
    obtain rfl := Except.ok.inj htext
    exact ⟨_, writtenAs_pow_of_isNegative settings hp hvfinite hv hsign (fun h => hzero h ⟨v, rfl, hv, hsign⟩)
      activity'⟩
  · exact ⟨_, (he.means_together ⟨hbase, hnegative⟩).power hp, fun htogether => absurd rfl (htogether.1 p),
      denotes_pow hp he.denotes⟩

/-- **Formulas mean what expressions denote.** -/
theorem exists_writtenAs {handlers : Kind Float → Handler Float} {settings' : Settings Float}
    (hdefault : ∀ k, handlers k = Handler.default settings' k.op) (settings : Settings Exact) (hproper : e.Proper)
    (hfinite : e.HasFiniteNumbers) (hbases : e.HasPlainBases) :
    ∃ text f, e.formula handlers = .ok text ∧ e.WrittenAs settings text f := by
  induction e using ind with
  | node kind activity es ih =>
    have htakes := hproper _ _ _ .refl
    rw [hasFiniteNumbers_node_iff] at hfinite
    rw [hasPlainBases_node_iff] at hbases
    obtain ⟨hnumbers, hfinite⟩ := hfinite
    obtain ⟨hplain, hbases⟩ := hbases
    have hoperands : ∀ e ∈ es, ∃ text f, e.formula handlers = .ok text ∧ e.WrittenAs settings text f := fun e he =>
      ih e he (hproper.operand he) (hfinite e he) (hbases e he)
    choose! text f htext hwritten using hoperands
    have hmeans : List.Forall₂ (Means 4 2) (es.map text) (es.map f) := by
      rw [List.forall₂_map_left_iff, List.forall₂_map_right_iff, List.forall₂_same]
      exact fun e he => (hwritten e he).means
    have hdenotes : List.Forall₂ (Denotes settings) es (es.map f) := by
      rw [List.forall₂_map_right_iff, List.forall₂_same]
      exact fun e he => (hwritten e he).denotes
    rw [formula_node, Checked.mapM_eq_ok htext, Checked.ok_bind, hdefault]
    generalize hname : (Handler.default settings' kind.op).name = name
    have hfunction : ∀ F : Function, kind = F.kind → ∃ text' f', compose name kind (es.map text) = .ok text' ∧
        WrittenAs settings (.node kind activity es) text' f' := by
      rintro F rfl
      have harity : (F.kind : Kind Float).arity = some 1 := by cases F <;> rfl
      have hF : name = F.name := by
        rw [← hname]
        cases F <;> rfl
      obtain ⟨e, rfl⟩ := List.length_eq_one_iff.mp ((Kind.takes_iff_of_arity harity).mp htakes).symm
      exact ⟨_, _, hF ▸ F.compose_kind (text e), (hwritten e List.mem_cons_self).apply F⟩
    cases kind with
    | var v =>
      obtain rfl := List.length_eq_zero_iff.mp ((Kind.takes_iff_of_arity rfl).mp htakes).symm
      exact ⟨_, _, rfl, .of_together (by simpa [opening, closing] using Means.var v) (denotes_var v)⟩
    | value v =>
      obtain rfl := List.length_eq_zero_iff.mp ((Kind.takes_iff_of_arity rfl).mp htakes).symm
      exact ⟨_, _, compose_value _ v, writtenAs_value settings (hnumbers v (List.mem_singleton_self v))⟩
    | sum coefs constant =>
      obtain ⟨hconstant, hcoefs⟩ := List.forall_mem_cons.mp hnumbers
      obtain ⟨text', htext', hmeans'⟩ := exists_sum name hmeans
        ((Kind.takes_sum_iff.mp htakes).trans (List.length_map text).symm) hcoefs hconstant
      exact ⟨text', _, htext', .of_together hmeans' (denotes_sum hcoefs hconstant hdenotes)⟩
    | product coef =>
      have hcoef := hnumbers coef (List.mem_singleton_self coef)
      obtain ⟨text', htext', hmeans'⟩ := exists_product name hmeans hcoef
      exact ⟨text', _, htext', .of_together hmeans' (denotes_product hcoef hdenotes)⟩
    | pow p =>
      obtain ⟨e, rfl⟩ := List.length_eq_one_iff.mp ((Kind.takes_iff_of_arity rfl).mp htakes).symm
      have he : e ∈ [e] := List.mem_singleton_self e
      obtain ⟨hbase, hzero⟩ := hplain p e rfl rfl
      obtain ⟨f', hpow⟩ := (hwritten e he).exists_pow (htext e he) (hnumbers p (List.mem_singleton_self p))
        (hproper.operand he) (hfinite e he) hbase hzero
      exact ⟨_, f', compose_pow _ p _, hpow⟩
    | exp => exact hfunction .exp rfl
    | log => exact hfunction .log rfl
    | sin => exact hfunction .sin rfl
    | cos => exact hfunction .cos rfl
    | abs => exact hfunction .abs rfl
    | entropy => exact hfunction .entropy rfl

end Expression

/-! ### Graphs -/

theorem Handler.name_default [Scalar α] [BitPattern α] (settings settings' : Settings α) (op : Op) :
    (Handler.default settings op).name = (Handler.default settings' op).name := by
  cases op <;> rfl

namespace Commons

section

variable [BitPattern Exact] {s : Commons Float} {root : NodeId}

/-- **The formula of a root means its expression.** It depends on the expression written out and on nothing else. Let
all constants, coefficients and exponents be finite. Let no base be a power, or a zero with a minus sign where the
exponent is zero. Then reading the formula with the usual conventions yields a term, and over exact arithmetic the root
has the values of this term. -/
theorem formula_denotes (h : s.Exhibits root) (settings : Settings Exact) :
    ∃ text, Prod.snd <$> s.graph.formula root = .ok text ∧
      (∀ (s' : Commons Float) (root' : NodeId) (h' : s'.Exhibits root'),
        (s.graph.unfold h.acyclic root).SameTree (s'.graph.unfold h'.acyclic root') →
          Prod.snd <$> s'.graph.formula root' = .ok text) ∧
      ((s.graph.unfold h.acyclic root).HasFiniteNumbers → (s.graph.unfold h.acyclic root).HasPlainBases →
        ∃ t, Term.read? text = some t ∧
          (s.graph.unfold h.acyclic root).Denotes settings fun x => t.value x) := by
  obtain ⟨settings₁, hdefault⟩ := h.exists_settings
  obtain ⟨text, htext, hformula⟩ := h.map_formula
  refine ⟨text, htext, fun s' root' h' hsame => ?_, fun hfinite hbases => ?_⟩
  · obtain ⟨settings₂, hdefault'⟩ := h'.exists_settings
    obtain ⟨text', htext', hformula'⟩ := h'.map_formula
    have hnames : ∀ k, (s.graph.handlerFor k).name = (s'.graph.handlerFor k).name := fun k => by
      rw [hdefault, hdefault', Handler.name_default settings₁ settings₂]
    rw [hsame.formula_eq hnames, hformula'] at hformula
    rw [htext', Except.ok.inj hformula]
  · obtain ⟨text', f, htext', hwritten⟩ := Expression.exists_writtenAs hdefault settings h.proper hfinite hbases
    obtain rfl := Except.ok.inj (hformula.symm.trans htext')
    obtain ⟨t, hreads, hvalue⟩ := hwritten.means
    exact ⟨t, hreads.read?_eq, fun x =>
      (hwritten.denotes x).trans (congrArg (fun v => Except.ok (Option.map real v)) (hvalue x).symm)⟩

end

/-- A product over one operand twice, and one over copies of it, are written and read alike. -/
theorem formula_denotes_of_copies :
    let _ : BitPattern Exact := ⟨fun _ => 0, fun _ => 0⟩
    let cs : List (Command Float) :=
      [.work (.request (.var 0)), .work (.request (.add (.pow 2) [0])), .work (.request (.add (.pow 2) [0])),
        .work (.request (.add (.product (-1.5)) [1, 1])), .work (.request (.add (.product (-1.5)) [1, 2]))]
    let text := "(-1.5*x0^2*x0^2)"
    ∃ s answers, (new default 0 (.ofList [])).serveAll cs = .ok (s, answers) ∧
      Prod.snd <$> s.graph.formula 3 = .ok text ∧ Prod.snd <$> s.graph.formula 4 = .ok text ∧
      ∃ h : s.Exhibits 3, ∃ t, Term.read? text = some t ∧
        (s.graph.unfold h.acyclic 3).Denotes default fun x => t.value x := by
  intro _ cs text
  have hcs : (new default 0 (.ofList [])).OwnsAll cs := by decide +kernel
  obtain ⟨s, answers, hrun, h, hread⟩ := exists_exhibits default 0 (.ofList []) hcs (by simp [cs]) 3
    (f := fun g => [0, 1, 2, 3, 4].map fun n => (g.kindAt n, g.arena.operands n))
    (b := [(.var 0, []), (.pow 2, [0]), (.pow 2, [0]), (.product (-1.5), [1, 1]), (.product (-1.5), [1, 2])])
    (by decide +kernel)
  obtain ⟨s', answers', hrun', h', -⟩ := exists_exhibits default 0 (.ofList []) hcs (by simp [cs]) 4
    (f := fun _ => ()) (b := ()) (by decide +kernel)
  obtain ⟨rfl, rfl⟩ := Prod.mk.inj (Except.ok.inj (hrun.symm.trans hrun'))
  simp only [List.map_cons, List.map_nil, Prod.mk.injEq, List.cons.injEq, and_true] at hread
  obtain ⟨⟨hk₀, ho₀⟩, ⟨hk₁, ho₁⟩, ⟨hk₂, ho₂⟩, ⟨hk₃, ho₃⟩, hk₄, ho₄⟩ := hread
  have hx := Graph.unfold_of_kindAt h.acyclic hk₀ ho₀
  have hsquare := Graph.unfold_of_kindAt h.acyclic hk₁ ho₁
  have hproduct := Graph.unfold_of_kindAt h.acyclic hk₃ ho₃
  have hsame : (s.graph.unfold h.acyclic 3).SameTree (s.graph.unfold h'.acyclic 4) := by
    have hx : (s.graph.unfold h.acyclic 0).SameTree (s.graph.unfold h.acyclic 0) := by
      rw [hx]
      exact .node .nil
    have hsquares : ∀ n, s.graph.kindAt n = .pow 2 → s.graph.arena.operands n = [0] →
        (s.graph.unfold h.acyclic 1).SameTree (s.graph.unfold h.acyclic n) := fun n hk ho => by
      rw [hsquare, Graph.unfold_of_kindAt h.acyclic hk ho]
      exact .node (.cons hx .nil)
    rw [hproduct, Graph.unfold_of_kindAt h'.acyclic hk₄ ho₄]
    exact .node (.cons (hsquares 1 hk₁ ho₁) (.cons (hsquares 2 hk₂ ho₂) .nil))
  have hfinite : (s.graph.unfold h.acyclic 3).HasFiniteNumbers := by
    rw [hproduct, List.map_cons, List.map_singleton, hsquare, List.map_singleton, hx]
    simp [Expression.hasFiniteNumbers_node_iff, Kind.numbers]
    decide
  have hbases : (s.graph.unfold h.acyclic 3).HasPlainBases := by
    rw [hproduct, List.map_cons, List.map_singleton, hsquare, List.map_singleton, hx]
    simp [Expression.hasPlainBases_node_iff, Kind.IsNegativeZero, Expression.kind]
  obtain ⟨text', htext, hsame', hmeans⟩ := formula_denotes h default
  have htext' : text' = text := by
    obtain ⟨_, hformula, hunfold⟩ := h.map_formula
    obtain rfl := Except.ok.inj (htext.symm.trans hformula)
    have hsquare : (s.graph.unfold h.acyclic 1).formula s.graph.handlerFor = .ok "x0^2" := by
      rw [hsquare, List.map_singleton, hx]
      exact (Expression.formula_pow 2 _ (Expression.formula_var _ 0 _)).trans (congrArg _ (by decide +kernel))
    have hcompose : compose "" (.product (-1.5 : Float)) ["x0^2", "x0^2"] = .ok text := by with_unfolding_all rfl
    rw [hproduct, Expression.formula_node, List.map_cons, List.map_singleton, List.mapM_cons, List.mapM_cons, hsquare]
      at hunfold
    exact Except.ok.inj (hunfold.symm.trans hcompose)
  subst htext'
  exact ⟨s, answers, hrun, htext, hsame' s 4 h' hsame, h, hmeans hfinite hbases⟩

/-- There are no parentheses around a power that another one has for its base. So the text does not mean the power of
the power. -/
theorem not_forall_formula_denotes :
    let _ : BitPattern Exact := ⟨fun _ => 0, fun _ => 0⟩
    ¬ ∀ (s : Commons Float) (root : NodeId) (h : s.Exhibits root), (s.graph.unfold h.acyclic root).HasFiniteNumbers →
      ∃ text t, Prod.snd <$> s.graph.formula root = .ok text ∧ Term.read? text = some t ∧
        (s.graph.unfold h.acyclic root).Denotes default fun x => t.value x := by
  intro _ hall
  let cs : List (Command Float) :=
    [.work (.request (.var 0)), .work (.request (.add (.pow 2) [0])), .work (.request (.add (.pow 3) [1]))]
  have hcs : (new default 0 (.ofList [])).OwnsAll cs := by decide +kernel
  obtain ⟨s, answers, -, h, hread⟩ := exists_exhibits default 0 (.ofList []) hcs (by simp [cs]) 2
    (f := fun g => [0, 1, 2].map fun n => (g.kindAt n, g.arena.operands n))
    (b := [(.var 0, []), (.pow 2, [0]), (.pow 3, [1])]) (by decide +kernel)
  simp only [List.map_cons, List.map_nil, Prod.mk.injEq, List.cons.injEq, and_true] at hread
  obtain ⟨⟨hk₀, ho₀⟩, ⟨hk₁, ho₁⟩, hk₂, ho₂⟩ := hread
  have hroot : s.graph.unfold h.acyclic 2 = .node (.pow 3) (s.graph.activityAt 2)
      [.node (.pow 2) (s.graph.activityAt 1) [.node (.var 0) (s.graph.activityAt 0) []]] := by
    rw [Graph.unfold_of_kindAt h.acyclic hk₂ ho₂, List.map_singleton, Graph.unfold_of_kindAt h.acyclic hk₁ ho₁,
      List.map_singleton, Graph.unfold_of_kindAt h.acyclic hk₀ ho₀, List.map_nil]
  have hfinite : (s.graph.unfold h.acyclic 2).HasFiniteNumbers := by
    rw [hroot]
    simp [Expression.hasFiniteNumbers_node_iff, Kind.numbers]
    decide
  obtain ⟨text, t, htext, ht, hdenotes⟩ := hall s 2 h hfinite
  obtain ⟨_, hformula, hunfold⟩ := h.map_formula
  obtain rfl := Except.ok.inj (htext.symm.trans hformula)
  have htower : text = "x0^2^3" := by
    rw [hroot, Expression.formula_pow 3 _ (Expression.formula_pow 2 _ (Expression.formula_var _ 0 _))] at hunfold
    exact (Except.ok.inj hunfold).symm.trans (by decide +kernel)
  have hterm : Term.read? "x0^2^3" = some (.join .power (.var 0) (.join .power (.number 2) (.number 3))) := by
    decide +kernel
  rw [htower, hterm] at ht
  obtain rfl := Option.some.inj ht
  have hdenotes' : (s.graph.unfold h.acyclic 2).Denotes default fun x =>
      ((x 0).bind fun r => Connective.power.value r (Binary64.value 2 : ℚ)).bind fun r =>
        Connective.power.value r (Binary64.value 3 : ℚ) := by
    rw [hroot]
    exact Expression.denotes_pow (by decide) (Expression.denotes_pow (by decide) (Expression.denotes_var 0))
  -- at two the root is 64, and the text means 256
  have heq := Except.ok.inj ((hdenotes' fun _ => some 2).symm.trans (hdenotes fun _ => some 2))
  have hpower : ∀ {r p q : ℝ} (n : ℕ), 0 < r → p = n → r ^ n = q → Connective.power.value r p = some q := by
    rintro r _ _ n hr rfl rfl
    rw [Connective.value, if_pos ⟨fun h => absurd h hr.not_gt, fun h => absurd h hr.ne'⟩, Real.rpow_natCast]
  have htwo : Binary64.value 2 = 2 := by decide +kernel
  have hthree : Binary64.value 3 = 3 := by decide +kernel
  have htwo' : Binary64.nearest 2 = 2 := by decide +kernel
  have hthree' : Binary64.nearest 3 = 3 := by decide +kernel
  have hsquare : Connective.power.value 2 2 = some 4 := hpower 2 two_pos (by norm_num) (by norm_num)
  have hcube : Connective.power.value 4 3 = some 64 := hpower 3 four_pos (by norm_num) (by norm_num)
  have height : Connective.power.value 2 3 = some 8 := hpower 3 two_pos (by norm_num) (by norm_num)
  have hlarge : Connective.power.value 2 8 = some 256 := hpower 8 two_pos (by norm_num) (by norm_num)
  simp only [Term.value, htwo, hthree, htwo', hthree', Rat.cast_ofNat, Option.bind_some, hsquare, hcube, height, hlarge,
    Option.map_some, Option.some.injEq] at heq
  have hreal : (64 : ℝ) = 256 := EReal.coe_injective (number.inj heq)
  norm_num at hreal

end Commons

end IntervalDag
