/-!
# Operators and node kinds

An expression is a graph of nodes. The *kind* of a node is its operator together with the data that
belongs to this one node: the variable it names, the constant it holds, its coefficients or its
exponent. The operands are kept by the graph, not here.

The number of operands is fixed by the kind: none for leaves, one for powers and functions, any number
for sums and products. Sums and products are the *associative* kinds, and may take on operands later.
-/

namespace IntervalDag

/-- The number by which a graph knows a node. -/
abbrev NodeId := Nat

/-- The number by which expressions and bound stores know a variable. -/
abbrev VarId := Nat

/-- The eleven operators. -/
inductive Op where
  | var | value | sum | product | pow | exp | log | sin | cos | abs | entropy
  deriving DecidableEq, Repr, Inhabited

namespace Op

/-- All operators, in the order of their indices. -/
def all : List Op := [var, value, sum, product, pow, exp, log, sin, cos, abs, entropy]

/-- The position of an operator in `all`. -/
def index : Op → Nat
  | var => 0
  | value => 1
  | sum => 2
  | product => 3
  | pow => 4
  | exp => 5
  | log => 6
  | sin => 7
  | cos => 8
  | abs => 9
  | entropy => 10

/-- The capitalised name of an operator, as messages and exchanged data spell it. -/
def name : Op → String
  | var => "Var"
  | value => "Value"
  | sum => "Sum"
  | product => "Product"
  | pow => "Pow"
  | exp => "Exp"
  | log => "Log"
  | sin => "Sin"
  | cos => "Cos"
  | abs => "Abs"
  | entropy => "Entropy"

/-- The operator of a capitalised name. -/
def ofName? (s : String) : Option Op := all.find? (·.name == s)

/-- The number of operands an operator takes, or `none` when any number will do. -/
def arity : Op → Option Nat
  | var | value => some 0
  | sum | product => none
  | pow | exp | log | sin | cos | abs | entropy => some 1

end Op

/-- The operator of a node together with the data of this node. -/
inductive Kind (α : Type) where
  /-- The variable `id`. -/
  | var (id : VarId)
  /-- The constant `v`. -/
  | value (v : α)
  /-- The weighted sum `constant + Σ coefs[i] * x[i]`, with one coefficient per operand. -/
  | sum (coefs : List α) (constant : α)
  /-- The product `coef * Π x[i]`. -/
  | product (coef : α)
  /-- The power `x ^ exponent`. -/
  | pow (exponent : α)
  | exp
  | log
  | sin
  | cos
  | abs
  /-- The term `-x ln x`. -/
  | entropy
  deriving Repr

namespace Kind

variable {α : Type}

/-- The operator of a kind. -/
def op : Kind α → Op
  | var _ => .var
  | value _ => .value
  | sum _ _ => .sum
  | product _ => .product
  | pow _ => .pow
  | exp => .exp
  | log => .log
  | sin => .sin
  | cos => .cos
  | abs => .abs
  | entropy => .entropy

/-- The number of operands a kind takes, or `none` when any number will do. -/
def arity (k : Kind α) : Option Nat := k.op.arity

/-- An associative kind takes any number of operands, also after its node was made. -/
def isAssociative (k : Kind α) : Bool := k.arity.isNone

/-- A leaf takes no operand. -/
def isLeaf (k : Kind α) : Bool := k.arity == some 0

/-- A kind is associative exactly when it is a sum or a product. -/
theorem isAssociative_iff (k : Kind α) : k.isAssociative = true ↔ k.op = .sum ∨ k.op = .product := by
  cases k <;> simp [isAssociative, arity, op, Op.arity]

end Kind

end IntervalDag
