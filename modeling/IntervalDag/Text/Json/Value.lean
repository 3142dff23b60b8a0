import IntervalDag.Text.Json.Token

/-!
# JSON values

Values are built from tokens by a pushdown automaton, whose stack holds the arrays and objects that are
still open. Nesting is bounded by the length of the text alone. Objects keep their members in order, and
keep repeated keys, as a reader may want to refuse those.
-/

namespace IntervalDag.Json

/-- A JSON value. -/
inductive Value where
  | null
  | bool (b : Bool)
  | number (n : Numeral)
  | string (units : List Nat)
  | array (items : List Value)
  | object (members : List (List Nat × Value))

/-- An array or object that is still open. Items and members are held last one first. -/
inductive Frame where
  | array (items : List Value)
  /-- An object between two members. -/
  | object (members : List (List Nat × Value))
  /-- An object whose next value belongs to a key. -/
  | member (members : List (List Nat × Value)) (key : List Nat)

/-- What the automaton takes next. -/
inductive Expected where
  | value
  | valueOrClose
  | key
  | keyOrClose
  | colon (key : List Nat)
  /-- A comma, or the end of what is open. -/
  | separator
  /-- Nothing: the text's value is complete. -/
  | nothing (v : Value)

/-- The state of the automaton. -/
structure Builder where
  /-- What is open, innermost first. -/
  stack : List Frame
  /-- What comes next. -/
  expected : Expected

namespace Builder

/-- Puts a finished value where it belongs. -/
def put (stack : List Frame) (v : Value) : Builder :=
  match stack with
  | [] => ⟨[], .nothing v⟩
  | .array items :: stack => ⟨.array (v :: items) :: stack, .separator⟩
  | .member members key :: stack => ⟨.object ((key, v) :: members) :: stack, .separator⟩
  | .object members :: stack => ⟨.object members :: stack, .separator⟩

/-- Takes the first token of a value. -/
def beginValue? (stack : List Frame) : Token → Option Builder
  | .null => some (put stack .null)
  | .bool b => some (put stack (.bool b))
  | .number n => some (put stack (.number n))
  | .string units => some (put stack (.string units))
  | .openArray => some ⟨.array [] :: stack, .valueOrClose⟩
  | .openObject => some ⟨.object [] :: stack, .keyOrClose⟩
  | .closeArray | .closeObject | .colon | .comma => none

/-- Closes the innermost array or object. -/
def close? (stack : List Frame) (t : Token) : Option Builder :=
  match stack, t with
  | .array items :: stack, .closeArray => some (put stack (.array items.reverse))
  | .object members :: stack, .closeObject => some (put stack (.object members.reverse))
  | _, _ => none

/-- Takes one token, or refuses it. -/
def step? (b : Builder) (t : Token) : Option Builder :=
  match b.expected, t with
  | .value, t => beginValue? b.stack t
  | .valueOrClose, .closeArray => close? b.stack t
  | .valueOrClose, t => beginValue? b.stack t
  | .key, .string units | .keyOrClose, .string units => some ⟨b.stack, .colon units⟩
  | .keyOrClose, .closeObject => close? b.stack t
  | .colon key, .colon =>
    match b.stack with
    | .object members :: stack => some ⟨.member members key :: stack, .value⟩
    | _ => none
  | .separator, .comma =>
    match b.stack with
    | .array _ :: _ => some ⟨b.stack, .value⟩
    | .object _ :: _ => some ⟨b.stack, .key⟩
    | _ => none
  | .separator, t => close? b.stack t
  | _, _ => none

/-- The finished value. -/
def finish? (b : Builder) : Option Value :=
  match b.expected with
  | .nothing v => some v
  | _ => none

end Builder

/-- The value that a text holds, with nothing but blanks around it. -/
def Value.ofText? (text : String) : Option Value := do
  let tokens ← tokens? text.toList
  (← tokens.foldlM Builder.step? ⟨[], .value⟩).finish?

end IntervalDag.Json
