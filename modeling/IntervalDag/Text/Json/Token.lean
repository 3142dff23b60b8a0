/-!
# The words of JSON texts

A JSON text is cut into tokens by an automaton that reads one character at a time. The automaton knows
the exact grammar of numbers and strings: no leading zeros, a digit on both sides of a point, no control
characters inside strings, and none but the listed escapes.

Numbers are kept as their digits, and strings as the code points and escaped 16-bit units that they are
written with, since a reader may care how large a number is or whether a string is well formed.
-/

namespace IntervalDag.Json

/-- A number as it is written. Digit lists hold the values of the digits, first digit first. -/
structure Numeral where
  /-- Whether a minus sign is in front. -/
  negative : Bool
  /-- The digits before the point. -/
  whole : List Nat
  /-- The digits after the point, if there is one. -/
  fraction : Option (List Nat)
  /-- The sign and the digits of the exponent, if there is one. -/
  exponent : Option (Bool × List Nat)
  deriving DecidableEq, Repr, Inhabited

/-- A word of a JSON text. -/
inductive Token where
  | openArray | closeArray | openObject | closeObject | colon | comma
  | null
  | bool (b : Bool)
  | number (n : Numeral)
  /-- A string as code points, where an escape may contribute half of a surrogate pair. -/
  | string (units : List Nat)
  deriving Repr

/-! ### Strings -/

/-- Whether a unit is the first half of a surrogate pair. -/
def isHighSurrogate (u : Nat) : Bool := 0xD800 ≤ u && u < 0xDC00

/-- Whether a unit is the second half of a surrogate pair. -/
def isLowSurrogate (u : Nat) : Bool := 0xDC00 ≤ u && u < 0xE000

/-- The text of a string, with the halves of surrogate pairs joined. There is none when a half stands
alone. -/
def textOfUnits? : List Nat → Option (List Char)
  | [] => some []
  | [u] => if isHighSurrogate u || isLowSurrogate u then none else some [Char.ofNat u]
  | u :: v :: rest =>
    if isHighSurrogate u then
      if isLowSurrogate v then
        (Char.ofNat (0x10000 + (u - 0xD800) * 0x400 + (v - 0xDC00)) :: ·) <$> textOfUnits? rest
      else none
    else if isLowSurrogate u then none
    else (Char.ofNat u :: ·) <$> textOfUnits? (v :: rest)

/-- The code point that an escaped character stands for. -/
def escaped? : Char → Option Nat
  | '"' => some 0x22
  | '\\' => some 0x5C
  | '/' => some 0x2F
  | 'b' => some 0x08
  | 'f' => some 0x0C
  | 'n' => some 0x0A
  | 'r' => some 0x0D
  | 't' => some 0x09
  | _ => none

/-- The value of a hexadecimal digit. -/
def hexDigit? (c : Char) : Option Nat :=
  if '0' ≤ c ∧ c ≤ '9' then some (c.toNat - 48)
  else if 'a' ≤ c ∧ c ≤ 'f' then some (c.toNat - 87)
  else if 'A' ≤ c ∧ c ≤ 'F' then some (c.toNat - 55)
  else none

/-! ### The automaton -/

/-- Where the automaton stands inside a string. -/
inductive StringPhase where
  | plain
  | escape
  /-- After the given number of hexadecimal digits, of the given value. -/
  | hex (digits value : Nat)

/-- Where the automaton stands inside a number. -/
inductive NumberPhase where
  | sign | zero | whole | point | fraction | mark | exponentSign | exponent

/-- Whether a number may end here. -/
def NumberPhase.isComplete : NumberPhase → Bool
  | zero | whole | fraction | exponent => true
  | sign | point | mark | exponentSign => false

/-- What the automaton is in the middle of. Letters, units and digits are held last one first. -/
inductive Scan where
  | between
  | word (letters : List Char)
  | string (phase : StringPhase) (units : List Nat)
  | number (n : Numeral) (phase : NumberPhase)

/-- The state of the automaton: the tokens read, last one first, and the one being read. -/
structure Lexer where
  /-- The finished tokens, last one first. -/
  tokens : List Token
  /-- The unfinished token. -/
  scan : Scan

/-- The number with its digits in reading order. -/
def Numeral.reversed (n : Numeral) : Numeral :=
  { n with
    whole := n.whole.reverse
    fraction := n.fraction.map List.reverse
    exponent := n.exponent.map fun (negative, digits) => (negative, digits.reverse) }

/-- The token that a word of letters is. -/
def wordToken? (letters : List Char) : Option Token :=
  if letters = ['n', 'u', 'l', 'l'] then some .null
  else if letters = ['t', 'r', 'u', 'e'] then some (.bool true)
  else if letters = ['f', 'a', 'l', 's', 'e'] then some (.bool false)
  else none

/-- The value of a decimal digit. -/
def digit? (c : Char) : Option Nat := if c.isDigit then some (c.toNat - 48) else none

/-- Starts a number with its first digit. -/
def startNumber (negative : Bool) (d : Nat) : Scan :=
  .number ⟨negative, [d], none, none⟩ (if d = 0 then .zero else .whole)

/-- Takes a character that is not inside a token. -/
def Lexer.begin? (tokens : List Token) (c : Char) : Option Lexer :=
  match c with
  | ' ' | '\n' | '\t' | '\r' => some ⟨tokens, .between⟩
  | '[' => some ⟨.openArray :: tokens, .between⟩
  | ']' => some ⟨.closeArray :: tokens, .between⟩
  | '{' => some ⟨.openObject :: tokens, .between⟩
  | '}' => some ⟨.closeObject :: tokens, .between⟩
  | ':' => some ⟨.colon :: tokens, .between⟩
  | ',' => some ⟨.comma :: tokens, .between⟩
  | '"' => some ⟨tokens, .string .plain []⟩
  | '-' => some ⟨tokens, .number ⟨true, [], none, none⟩ .sign⟩
  | c =>
    match digit? c with
    | some d => some ⟨tokens, startNumber false d⟩
    | none => if c.isLower then some ⟨tokens, .word [c]⟩ else none

/-- Takes a character inside a string. -/
def Lexer.inString? (tokens : List Token) (phase : StringPhase) (units : List Nat) (c : Char) :
    Option Lexer :=
  match phase with
  | .plain =>
    if c = '"' then some ⟨.string units.reverse :: tokens, .between⟩
    else if c = '\\' then some ⟨tokens, .string .escape units⟩
    else if c.toNat < 0x20 then none
    else some ⟨tokens, .string .plain (c.toNat :: units)⟩
  | .escape =>
    if c = 'u' then some ⟨tokens, .string (.hex 0 0) units⟩
    else (fun u => ⟨tokens, .string .plain (u :: units)⟩) <$> escaped? c
  | .hex digits value =>
    (hexDigit? c).map fun d =>
      let value := 16 * value + d
      ⟨tokens, if digits = 3 then .string .plain (value :: units)
        else .string (.hex (digits + 1) value) units⟩

/-- The number with one more character, where that character belongs to it. -/
def continueNumber? (n : Numeral) (phase : NumberPhase) (c : Char) : Option Scan :=
  match phase, c, digit? c with
  | .sign, _, some d => some (startNumber n.negative d)
  | .whole, _, some d => some (.number { n with whole := d :: n.whole } .whole)
  | .zero, '.', _ | .whole, '.', _ => some (.number { n with fraction := some [] } .point)
  | .point, _, some d | .fraction, _, some d =>
    some (.number { n with fraction := some (d :: n.fraction.getD []) } .fraction)
  | .zero, 'e', _ | .zero, 'E', _ | .whole, 'e', _ | .whole, 'E', _ | .fraction, 'e', _
  | .fraction, 'E', _ => some (.number n .mark)
  | .mark, '+', _ => some (.number { n with exponent := some (false, []) } .exponentSign)
  | .mark, '-', _ => some (.number { n with exponent := some (true, []) } .exponentSign)
  | .mark, _, some d => some (.number { n with exponent := some (false, [d]) } .exponent)
  | .exponentSign, _, some d | .exponent, _, some d =>
    let (negative, digits) := n.exponent.getD (false, [])
    some (.number { n with exponent := some (negative, d :: digits) } .exponent)
  | _, _, _ => none

/-- Takes one character, or refuses it. -/
def Lexer.step? (l : Lexer) (c : Char) : Option Lexer :=
  match l.scan with
  | .between => Lexer.begin? l.tokens c
  | .string phase units => Lexer.inString? l.tokens phase units c
  | .word letters =>
    if c.isLower then some ⟨l.tokens, .word (c :: letters)⟩
    else do Lexer.begin? ((← wordToken? letters.reverse) :: l.tokens) c
  | .number n phase =>
    match continueNumber? n phase c with
    | some scan => some ⟨l.tokens, scan⟩
    | none =>
      if phase.isComplete && !c.isDigit then Lexer.begin? (.number n.reversed :: l.tokens) c else none

/-- Ends the text, which must not be inside an unfinished token. -/
def Lexer.finish? (l : Lexer) : Option (List Token) :=
  match l.scan with
  | .between => some l.tokens.reverse
  | .string _ _ => none
  | .word letters => (fun t => (t :: l.tokens).reverse) <$> wordToken? letters.reverse
  | .number n phase =>
    if phase.isComplete then some (.number n.reversed :: l.tokens).reverse else none

/-- The tokens of a text. -/
def tokens? (text : List Char) : Option (List Token) := do
  (← text.foldlM Lexer.step? ⟨[], .between⟩).finish?

end IntervalDag.Json
