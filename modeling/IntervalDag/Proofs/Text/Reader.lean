import Mathlib.Algebra.Order.Field.Rat
import Mathlib.Data.Rat.Cast.Defs
import IntervalDag.Kind

/-!
# Reading formulas

A formula is read with the usual conventions: powers bind tightest, associate to the right and may have a signed number
on their right; then come the minus sign in front of a term and products; then sums and differences. Products, sums and
differences associate to the left. `Formula.Term.read?` is such a reader. It cuts a text into tokens, and goes through
these with a stack of what waits for its right operand.

`Formula.Reads above level text t` says that a text reads as a term, in whatever it stands. `above` limits what may wait
in front of the text, and `level` what may take the term behind it. From there on, texts are put together by rules:
`Reads.times`, `Reads.plus`, `Reads.power` and so on. `Reads.read?_eq` concludes that the reader finds the term.
-/

namespace IntervalDag.Formula

/-! ### Terms -/

/-- The functions that formulas name. -/
inductive Function where
  | exp | log | sin | cos | abs | entropy
  deriving DecidableEq, Repr

/-- The name of a function. -/
def Function.name : Function → String
  | exp => "exp"
  | log => "log"
  | sin => "sin"
  | cos => "cos"
  | abs => "abs"
  | entropy => "entropy"

/-- What stands between two operands. -/
inductive Connective where
  | plus | minus | times | power
  deriving DecidableEq, Repr

/-- What a formula says. -/
inductive Term where
  /-- A number, as it is written. -/
  | number (q : ℚ)
  /-- A variable. -/
  | var (v : VarId)
  /-- A term behind a minus sign. -/
  | negate (t : Term)
  /-- Two terms with a connective in between. -/
  | join (c : Connective) (s t : Term)
  /-- A function applied to a term. -/
  | apply (f : Function) (t : Term)
  deriving DecidableEq, Repr

/-! ### Tokens -/

/-- What texts are made of. -/
inductive Token where
  | number (q : ℚ)
  | var (v : VarId)
  | connective (c : Connective)
  /-- An opening parenthesis, which may have the name of a function right in front. -/
  | opened (f : Option Function)
  | closed
  deriving DecidableEq, Repr

namespace Token

/-- What words are made of. -/
def isWordChar (c : Char) : Bool := c.isAlphanum || c == '.'

/-- Digits, and at least one. -/
def areDigits (ds : List Char) : Bool := !ds.isEmpty && ds.all Char.isDigit

/-- The number that a word stands for, which may have decimal places. -/
def numeral? (word : List Char) : Option ℚ :=
  let whole := word.takeWhile Char.isDigit
  match word.dropWhile Char.isDigit with
  | [] => if areDigits whole then some ((Nat.ofDigitChars 10 whole 0 : ℕ) : ℚ) else none
  | '.' :: places =>
    if areDigits whole && areDigits places then
      some (((Nat.ofDigitChars 10 (whole ++ places) 0 : ℕ) : ℚ) / 10 ^ places.length)
    else none
  | _ => none

/-- The token of a word. -/
def ofWord? : List Char → Option Token
  | 'x' :: ds => if areDigits ds then some (.var (Nat.ofDigitChars 10 ds 0)) else none
  | word => number <$> numeral? word

/-- The tokens of what was read of a word, if anything was. -/
def pending? (word : List Char) : Option (List Token) :=
  if word.isEmpty then some [] else ([·]) <$> ofWord? word

/-- The token of an opening parenthesis with what was read of a word in front. -/
def opening? (word : List Char) : Option Token :=
  if word.isEmpty then some (opened none)
  else (opened ∘ some) <$> [Function.exp, .log, .sin, .cos, .abs, .entropy].find? (·.name.toList == word)

/-- The tokens of a mark. Blanks have none. -/
def ofMark? : Char → Option (List Token)
  | ' ' => some []
  | ')' => some [closed]
  | '+' => some [connective .plus]
  | '-' => some [connective .minus]
  | '*' => some [connective .times]
  | '^' => some [connective .power]
  | _ => none

/-- The tokens of a text, of which a word was read. -/
def scan (word : List Char) : List Char → Option (List Token)
  | [] => pending? word
  | c :: cs =>
    if isWordChar c then scan (word ++ [c]) cs
    else if c = '(' then do
      let token ← opening? word
      return token :: (← scan [] cs)
    else do
      let before ← pending? word
      let mark ← ofMark? c
      return before ++ mark ++ (← scan [] cs)

end Token

/-! ### The reader -/

/-- What waits for what is to its right. -/
inductive Pending where
  /-- A parenthesis that is open. -/
  | opened (f : Option Function)
  | negate
  /-- A left operand. -/
  | left (c : Connective) (t : Term)
  deriving DecidableEq, Repr

/-- How tight a connective binds. -/
def Connective.level : Connective → Nat
  | plus | minus => 1
  | times => 2
  | power => 3

/-- How tight something must bind in front of the left operand of a connective to take it. Powers leave it even to
powers in front. -/
def Connective.reach : Connective → Nat
  | plus | minus => 1
  | times => 2
  | power => 4

namespace Pending

/-- How tight it binds. -/
def level : Pending → Nat
  | opened _ => 0
  | negate => 2
  | left c _ => c.level

/-- The term that it makes with what it waits for. -/
def complete : Pending → Term → Term
  | opened none, t => t
  | opened (some f), t => .apply f t
  | negate, t => .negate t
  | left c s, t => .join c s t

/-- Completes what binds at a level or tighter. -/
def settle (level : Nat) : List Pending → Term → List Pending × Term
  | [], t => ([], t)
  | p :: ps, t => if level ≤ p.level then settle level ps (p.complete t) else (p :: ps, t)

end Pending

/-- What has been read: what waits, the latest first, and the last operand. -/
structure Reader where
  pending : List Pending
  operand : Option Term
  deriving DecidableEq, Repr

namespace Reader

/-- Reads a token. -/
def step? : Reader → Token → Option Reader
  | ⟨ps, none⟩, .number q => some ⟨ps, some (.number q)⟩
  | ⟨ps, none⟩, .var v => some ⟨ps, some (.var v)⟩
  | ⟨ps, none⟩, .opened f => some ⟨.opened f :: ps, none⟩
  | ⟨ps, none⟩, .connective .minus => some ⟨.negate :: ps, none⟩
  | ⟨ps, some t⟩, .connective c =>
    let (ps, t) := Pending.settle c.reach ps t
    some ⟨.left c t :: ps, none⟩
  | ⟨ps, some t⟩, .closed =>
    match Pending.settle 1 ps t with
    | (.opened f :: ps, t) => some ⟨ps, some ((Pending.opened f).complete t)⟩
    | _ => none
  | _, _ => none

/-- The term that was read, if nothing waits any more. -/
def finish? : Reader → Option Term
  | ⟨ps, some t⟩ =>
    match Pending.settle 1 ps t with
    | ([], t) => some t
    | _ => none
  | ⟨_, none⟩ => none

end Reader

/-- The term that a text reads as. -/
def Term.read? (text : String) : Option Term := do
  let tokens ← Token.scan [] text.toList
  let reader ← tokens.foldlM Reader.step? ⟨[], none⟩
  reader.finish?

example : Term.read? "-2*x0^-x1 - exp(x12 + 0.50)*3" = some (.join .minus
    (.join .times (.negate (.number 2)) (.join .power (.var 0) (.negate (.var 1))))
    (.join .times (.apply .exp (.join .plus (.var 12) (.number (1 / 2)))) (.number 3))) := by decide +kernel

/-! ### What texts spell -/

/-- A text is made of these tokens, unless something right behind it goes on with its last word. -/
def Spells (text : List Char) (tokens : List Token) : Prop :=
  ∀ rest, (∀ c ∈ rest.head?, Token.isWordChar c = false ∧ c ≠ '(') →
    Token.scan [] (text ++ rest) = (tokens ++ ·) <$> Token.scan [] rest

namespace Token

/-- A mark is no part of a word. -/
theorem ne_of_ofMark? {c : Char} {mark : List Token} (h : ofMark? c = some mark) :
    isWordChar c = false ∧ c ≠ '(' := by
  unfold ofMark? at h
  split at h
  all_goals first | exact ⟨by decide, by decide⟩ | cases h

theorem scan_mark {word : List Char} {before : List Token} (hword : pending? word = some before) {c : Char}
    {mark : List Token} (hc : ofMark? c = some mark) (cs : List Char) :
    scan word (c :: cs) = (before ++ mark ++ ·) <$> scan [] cs := by
  obtain ⟨hchar, hne⟩ := ne_of_ofMark? hc
  rw [scan, if_neg (by simp [hchar]), if_neg hne, hword, hc]
  cases scan [] cs <;> rfl

/-- The characters of a word are read one after another. -/
theorem scan_word {word : List Char} (hword : ∀ c ∈ word, isWordChar c = true) (before rest : List Char) :
    scan before (word ++ rest) = scan (before ++ word) rest := by
  induction word generalizing before with
  | nil => rw [List.append_nil, List.nil_append]
  | cons c word ih =>
    obtain ⟨hc, hword⟩ := List.forall_mem_cons.mp hword
    rw [List.cons_append, scan, if_pos hc, ih hword, List.append_assoc, List.singleton_append]

theorem scan_opening {word : List Char} (hword : ∀ c ∈ word, isWordChar c = true) {token : Token}
    (htoken : opening? word = some token) (cs : List Char) :
    scan [] (word ++ '(' :: cs) = (token :: ·) <$> scan [] cs := by
  rw [scan_word hword, List.nil_append, scan, if_neg (by decide), if_pos rfl, htoken]
  cases scan [] cs <;> rfl

end Token

namespace Spells

open Token

variable {text text' : List Char} {tokens tokens' ms : List Token} {c : Char}

theorem nil : Spells [] [] := fun rest _ => by
  cases h : scan [] rest <;> simp [h]

theorem word {token : Token} (hword : ∀ c ∈ text, isWordChar c = true) (hne : text ≠ [])
    (htoken : ofWord? text = some token) : Spells text [token] := by
  have hpending : pending? text = some [token] := by
    rw [pending?, htoken, if_neg (by simpa using hne)]
    rfl
  intro rest hrest
  rw [scan_word hword, List.nil_append]
  cases rest with
  | nil =>
    rw [scan, hpending]
    rfl
  | cons c cs =>
    obtain ⟨hc, hopen⟩ := hrest c rfl
    rw [scan, if_neg (by simp [hc]), if_neg hopen, hpending, scan, if_neg (by simp [hc]), if_neg hopen]
    cases ofMark? c <;> cases scan [] cs <;> rfl

/-- A mark behind a text. -/
theorem mark (h : Spells text tokens) (hc : ofMark? c = some ms) (h' : Spells text' tokens') :
    Spells (text ++ c :: text') (tokens ++ (ms ++ tokens')) := by
  intro rest hrest
  rw [List.append_assoc, List.cons_append, h (c :: (text' ++ rest)) (by simpa using ne_of_ofMark? hc),
    scan_mark rfl hc, h' rest hrest]
  cases scan [] rest <;> simp

/-- Parentheses around a text. -/
theorem parentheses {name : List Char} {token : Token} (hname : ∀ c ∈ name, isWordChar c = true)
    (htoken : opening? name = some token) (h : Spells text tokens) :
    Spells (name ++ '(' :: (text ++ [')'])) (token :: (tokens ++ [.closed])) := by
  intro rest _
  rw [List.append_assoc, List.cons_append, scan_opening hname htoken, List.append_assoc, List.singleton_append,
    h (')' :: rest) (by simpa using ne_of_ofMark? (rfl : ofMark? ')' = some [.closed])), scan_mark rfl rfl]
  cases scan [] rest <;> simp

end Spells

/-- A connective is written so between two operands. -/
def Connective.IsWritten (c : Connective) (between : String) : Prop :=
  ∀ {text text' : String} {tokens tokens' : List Token}, Spells text.toList tokens → Spells text'.toList tokens' →
    Spells (text ++ between ++ text').toList (tokens ++ .connective c :: tokens')

theorem isWritten_times : Connective.times.IsWritten "*" := fun h h' => by simpa using h.mark (c := '*') rfl h'

theorem isWritten_power : Connective.power.IsWritten "^" := fun h h' => by simpa using h.mark (c := '^') rfl h'

theorem isWritten_plus : Connective.plus.IsWritten " + " := fun h h' => by
  simpa using h.mark (c := ' ') rfl (Spells.nil.mark (c := '+') rfl (Spells.nil.mark (c := ' ') rfl h'))

theorem isWritten_minus : Connective.minus.IsWritten " - " := fun h h' => by
  simpa using h.mark (c := ' ') rfl (Spells.nil.mark (c := '-') rfl (Spells.nil.mark (c := ' ') rfl h'))

/-! ### What texts read as -/

/-- A reader has come to a term behind what waited before. It makes no difference to what takes it at levels up to the
given one. -/
def Reader.Holds (level : Nat) (r : Reader) (ps : List Pending) (t : Term) : Prop :=
  ∃ ps' t', r = ⟨ps', some t'⟩ ∧ ∀ l, 1 ≤ l → l ≤ level → Pending.settle l ps' t' = Pending.settle l ps t

/-- What waits binds less tight than a level. -/
def Below (level : Nat) (ps : List Pending) : Prop := ∀ p ∈ ps.head?, p.level < level

/-- **A text reads as a term**, behind whatever waits below a level, for what takes it at levels up to another one. -/
def Reads (above level : Nat) (text : String) (t : Term) : Prop :=
  ∃ tokens, Spells text.toList tokens ∧
    ∀ ps, Below above ps → ∃ r, tokens.foldlM Reader.step? ⟨ps, none⟩ = some r ∧ r.Holds level ps t

theorem Pending.level_le (p : Pending) : p.level ≤ 3 := by
  rcases p with _ | _ | ⟨_ | _ | _ | _, _⟩ <;> simp [level, Connective.level]

/-- What binds less tight is left. -/
theorem Below.settle_eq {level : Nat} {ps : List Pending} (h : Below level ps) (t : Term) :
    Pending.settle level ps t = (ps, t) := by
  cases ps with
  | nil => rfl
  | cons p ps => exact if_neg (Nat.not_le.mpr (h p rfl))

namespace Reads

variable {above above' level level' : Nat} {text text' : String} {s t : Term}

theorem mono (h : Reads above level text t) (habove : above' ≤ above) (hlevel : level' ≤ level) :
    Reads above' level' text t := by
  obtain ⟨tokens, hspells, hreads⟩ := h
  refine ⟨tokens, hspells, fun ps hps => ?_⟩
  obtain ⟨r, hrun, ps', t', hr, hsettle⟩ := hreads ps fun p hp => (hps p hp).trans_le habove
  exact ⟨r, hrun, ps', t', hr, fun l hl hle => hsettle l hl (hle.trans hlevel)⟩

/-- Words that are operands. -/
theorem word (token : Token) (hword : ∀ c ∈ text.toList, Token.isWordChar c = true) (hne : text.toList ≠ [])
    (htoken : Token.ofWord? text.toList = some token)
    (hstep : ∀ ps, Reader.step? ⟨ps, none⟩ token = some ⟨ps, some t⟩) :
    Reads 4 4 text t :=
  ⟨[token], .word hword hne htoken, fun ps _ => ⟨⟨ps, some t⟩, by simp [hstep], ps, t, rfl, fun _ _ _ => rfl⟩⟩

/-- A minus sign in front. -/
theorem negate (h : Reads 4 2 text t) : Reads 4 2 ("-" ++ text) (.negate t) := by
  obtain ⟨tokens, hspells, hreads⟩ := h
  refine ⟨.connective .minus :: tokens, by simpa using Spells.nil.mark (c := '-') rfl hspells, fun ps hps => ?_⟩
  obtain ⟨r, hrun, ps', t', hr, hsettle⟩ := hreads (.negate :: ps) fun p _ => p.level_le.trans_lt (by decide)
  refine ⟨r, by simpa [Reader.step?] using hrun, ps', t', hr, fun l hl hle => ?_⟩
  rw [hsettle l hl hle]
  exact if_pos hle

/-- A connective between two texts. The left one must be complete before it, and nothing that waits takes it. -/
theorem join {c : Connective} {between : String} (hc : c.IsWritten between) (hs : Reads c.reach c.reach text s)
    (ht : Reads (c.level + 1) level text' t) (hlevel : level ≤ c.level) :
    Reads c.reach level (text ++ between ++ text') (.join c s t) := by
  obtain ⟨tokens, hspells, hreads⟩ := hs
  obtain ⟨tokens', hspells', hreads'⟩ := ht
  refine ⟨_, hc hspells hspells', fun ps hps => ?_⟩
  obtain ⟨r, hrun, ps₁, s₁, rfl, hsettle⟩ := hreads ps hps
  obtain ⟨r', hrun', ps', t', rfl, hsettle'⟩ := hreads' (.left c s :: ps) fun p hp =>
    Option.some.inj hp ▸ Nat.lt_succ_self _
  have hpush : Reader.step? ⟨ps₁, some s₁⟩ (.connective c) = some ⟨.left c s :: ps, none⟩ := by
    rw [Reader.step?, hsettle c.reach (by cases c <;> decide) le_rfl, hps.settle_eq]
  refine ⟨_, ?_, ps', t', rfl, fun l hl hle => ?_⟩
  · rw [List.foldlM_append, hrun]
    simp [hpush, hrun']
  · rw [hsettle' l hl hle]
    exact if_pos (hle.trans hlevel)

/-- Parentheses, which may belong to a function. -/
theorem parentheses {name : String} {f : Option Function} (hname : ∀ c ∈ name.toList, Token.isWordChar c = true)
    (hopening : Token.opening? name.toList = some (.opened f)) (h : Reads 1 1 text t) :
    Reads 4 4 (name ++ "(" ++ text ++ ")") ((Pending.opened f).complete t) := by
  obtain ⟨tokens, hspells, hreads⟩ := h
  refine ⟨_, by simpa using hspells.parentheses hname hopening, fun ps _ => ?_⟩
  have hopen : Below 1 (.opened f :: ps) := fun p hp => Option.some.inj hp ▸ Nat.one_pos
  obtain ⟨r, hrun, ps', t', rfl, hsettle⟩ := hreads (.opened f :: ps) hopen
  have hclose : Reader.step? ⟨ps', some t'⟩ .closed = some ⟨ps, some ((Pending.opened f).complete t)⟩ := by
    rw [Reader.step?, hsettle 1 le_rfl le_rfl, hopen.settle_eq]
  refine ⟨⟨ps, some ((Pending.opened f).complete t)⟩, ?_, ps, _, rfl, fun _ _ _ => rfl⟩
  have hopened : Reader.step? ⟨ps, none⟩ (.opened f) = some ⟨.opened f :: ps, none⟩ := rfl
  simp [List.foldlM_append, hopened, hrun, hclose]

/-- **The reader** finds the term. -/
theorem read?_eq (h : Reads 4 2 text t) : Term.read? text = some t := by
  obtain ⟨tokens, hspells, hreads⟩ := h
  have hscan := hspells [] nofun
  rw [List.append_nil] at hscan
  obtain ⟨r, hrun, ps', t', rfl, hsettle⟩ := hreads [] nofun
  have hfinish : Reader.finish? ⟨ps', some t'⟩ = some t := by
    rw [Reader.finish?, hsettle 1 le_rfl one_le_two]
    rfl
  rw [Term.read?, hscan]
  simp [Token.scan, Token.pending?, hrun, hfinish]

end Reads

end IntervalDag.Formula
