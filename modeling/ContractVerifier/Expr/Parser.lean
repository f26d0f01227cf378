import ContractVerifier.Expr.Token
import ContractVerifier.Error

/-!
# Reading a condition

    condition   := implication
    implication := disjunction ( '==>' implication )?
    disjunction := conjunction ( '||' conjunction )*
    conjunction := equality ( '&&' equality )*
    equality    := relation ( ( '==' | '!=' ) relation )*
    relation    := additive ( ( '<' | '<=' | '>' | '>=' ) additive )*
    additive    := term ( ( '+' | '-' ) term )*
    term        := unary ( ( '*' | '/' | '%' ) unary )*
    unary       := '-' integer | ( '!' | '-' ) unary | atom
    atom        := integer | 'true' | 'false' | identifier | '(' condition ')'

The tree is built by precedence climbing over the tokens.  Variables are left untyped.
-/

namespace ContractVerifier

namespace Parser

/-- The error or fault of a condition text that is not at hand here. -/
inductive Refusal where
  | refused (cause : ParseCause) (start stop : Nat)
  | tooLong
deriving DecidableEq

/-- An expression and the tokens behind it. -/
abbrev Result := Except Refusal (Expr × List Token)

/-- The value of decimal digits. -/
def digitsValue (cs : List Char) : Nat := cs.foldl (fun n c => 10 * n + (c.toNat - '0'.toNat)) 0

def numeral (s : String) : Except Refusal Nat :=
  if Text.maxDigits < s.length then .error .tooLong else .ok (digitsValue s.toList)

/-- At token `t`. -/
def refuse (cause : ParseCause) (t : Token) : Refusal :=
  .refused cause t.start (if t.start < t.stop then t.stop else t.start + 1)

/-- At the end of a text of `n` characters. -/
def refuseEnd (cause : ParseCause) (n : Nat) : Refusal := .refused cause n (n + 1)

/-- The least strength of what stands to the right of `op`. -/
def nextLevel (op : BinOp) : Nat := if op.rightAssoc then op.precedence else op.precedence + 1

/-- Reads one operand that starts with `t`, without operators around it; `inner` reads what stands
in parentheses. -/
def atom (len : Nat) (inner : List Token → Result) (t : Token) (ts : List Token) : Result :=
  match t.kind with
  | .integer => do
    let n ← numeral t.text
    .ok (.num n, ts)
  | .boolean => .ok (.lit (.bool ((booleanSpellings.lookup t.text).getD false)), ts)
  | .identifier => .ok (.var ⟨t.text, .unknown⟩, ts)
  | .symbol =>
    if t.text = "(" then do
      let (e, rest) ← inner ts
      match rest with
      | [] => .error (refuseEnd .unclosed len)
      | c :: rest => if c.kind = .symbol ∧ c.text = ")" then .ok (e, rest) else .error (refuse .unclosed c)
    else .error (refuse (.unexpected t.text) t)
  | .finish => .error (refuse .unfinished t)

/-! The readers below call each other on fewer tokens; `n` bounds the depth of the calls, and
`4 * (number of tokens + 1)` is always enough. -/

mutual

/-- Operands joined by operators of strength at least `level`. -/
def climb (len : Nat) : Nat → Nat → List Token → Result
  | 0, _, _ => .error (refuseEnd .unfinished len)
  | n + 1, level, ts => do
    let (e, rest) ← unary len n ts
    operators len n level e rest

/-- Goes on behind the operand `e`. -/
def operators (len : Nat) : Nat → Nat → Expr → List Token → Result
  | 0, _, _, _ => .error (refuseEnd .unfinished len)
  | _ + 1, _, e, [] => .ok (e, [])
  | n + 1, level, e, t :: ts =>
    match t.binary? with
    | none => .ok (e, t :: ts)
    | some op =>
      if op.precedence < level then .ok (e, t :: ts)
      else do
        let (r, rest) ← climb len n (nextLevel op) ts
        operators len n level (.bin op e r) rest

def unary (len : Nat) : Nat → List Token → Result
  | 0, _ => .error (refuseEnd .unfinished len)
  | _ + 1, [] => .error (refuseEnd .unfinished len)
  | n + 1, t :: ts =>
    match t.unary? with
    | none => atom len (climb len n 1) t ts
    | some op =>
      match op, ts with
      | .neg, i :: rest =>
        if i.kind = .integer then do
          let k ← numeral i.text
          .ok (.num (-k), rest)
        else do
          let (e, rest) ← unary len n (i :: rest)
          .ok (.un .neg e, rest)
      | op, ts => do
        let (e, rest) ← unary len n ts
        .ok (.un op e, rest)

end

/-- The whole of a text of `len` characters with tokens `ts`. -/
def condition (len : Nat) (ts : List Token) : Except Refusal Expr :=
  if ts.isEmpty then .error (refuseEnd .empty len)
  else do
    let (e, rest) ← climb len (4 * (ts.length + 1)) 1 ts
    match rest with
    | [] => .ok e
    | t :: _ => .error (refuse (.trailing t.text) t)

def Refusal.toFailure (source : String) : Refusal → Failure
  | .refused cause start stop => .error (.parse ⟨cause, source, start, stop⟩)
  | .tooLong => .fault .numeralTooLong

end Parser

/-- The tokens of a text, ended by an empty one. -/
def tokenize (source : String) : Except ParseError (List Token) :=
  match Token.scan 0 source.toList with
  | .error (c, p) => .error ⟨.invalidCharacter c, source, p, p + 1⟩
  | .ok ts => .ok (ts ++ [⟨.finish, "", source.length, source.length⟩])

def parse (source : String) : Except Failure Expr :=
  match Token.scan 0 source.toList with
  | .error (c, p) => .error (.error (.parse ⟨.invalidCharacter c, source, p, p + 1⟩))
  | .ok ts => (Parser.condition source.length ts).mapError (Parser.Refusal.toFailure source)

end ContractVerifier
