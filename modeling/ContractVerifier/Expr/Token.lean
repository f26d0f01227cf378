import ContractVerifier.Expr.Basic
import ContractVerifier.Text.Blank

/-!
# Tokens of a condition

`scan` cuts a text into the longest lexemes: runs of digits, identifiers, operator spellings and
parentheses, with white space between them.  Operators have alternate spellings, some of them words.
-/

namespace ContractVerifier

inductive TokenKind where
  | integer
  | identifier
  | boolean
  | symbol
  | finish
deriving DecidableEq

def TokenKind.text : TokenKind → String
  | integer => "integer"
  | identifier => "identifier"
  | boolean => "boolean"
  | symbol => "symbol"
  | finish => "end"

/-- `text` is what stands from `start` up to `stop`, counted in characters. -/
structure Token where
  kind : TokenKind
  text : String
  start : Nat
  stop : Nat
deriving DecidableEq

/-! ## spellings -/

def BinOp.spellings : List (String × BinOp) :=
  [("==>", .imp), ("=>", .imp), ("⇒", .imp), ("→", .imp), ("||", .or), ("∨", .or), ("or", .or),
   ("&&", .and), ("∧", .and), ("and", .and), ("==", .eq), ("=", .eq), ("!=", .ne), ("≠", .ne),
   ("<=", .le), ("≤", .le), (">=", .ge), ("≥", .ge), ("<", .lt), (">", .gt), ("+", .add),
   ("-", .sub), ("−", .sub), ("*", .mul), ("×", .mul), ("/", .div), ("%", .mod)]

def UnOp.spellings : List (String × UnOp) :=
  [("!", .not), ("¬", .not), ("not", .not), ("-", .neg), ("−", .neg)]

def booleanSpellings : List (String × Bool) :=
  [("true", true), ("True", true), ("false", false), ("False", false)]

/-- The spellings that are not words, longer ones first. -/
def symbolSpellings : List String :=
  ["==>", "=>", "||", "&&", "==", "!=", "<=", ">=", "⇒", "→", "∨", "∧", "=", "≠", "≤", "≥", "<", ">",
   "+", "-", "−", "*", "×", "/", "%", "!", "¬", "(", ")"]

namespace Token

def binary? (t : Token) : Option BinOp :=
  if t.kind = .symbol then BinOp.spellings.lookup t.text else none

def unary? (t : Token) : Option UnOp :=
  if t.kind = .symbol then UnOp.spellings.lookup t.text else none

/-! ## scanning -/

def isDigit (c : Char) : Bool := '0' ≤ c && c ≤ '9'

def isLetter (c : Char) : Bool := ('a' ≤ c && c ≤ 'z') || ('A' ≤ c && c ≤ 'Z') || c = '_'

/-- What stands at the front of a text. -/
inductive Lexeme where
  | blank
  | integer
  | word
  | symbol
deriving DecidableEq

/-- The longest lexeme of `c :: cs`: its kind and how many characters of `cs` belong to it. -/
def lexeme (c : Char) (cs : List Char) : Option (Lexeme × Nat) :=
  if Text.isBlank c then some (.blank, (cs.takeWhile Text.isBlank).length)
  else if isDigit c then some (.integer, (cs.takeWhile isDigit).length)
  else if isLetter c then some (.word, (cs.takeWhile fun d => isLetter d || isDigit d).length)
  else (symbolSpellings.find? fun s => s.toList.isPrefixOf (c :: cs)).map fun s => (.symbol, s.length - 1)

/-- The kind of a word: an operator, a boolean or an identifier. -/
def wordKind (s : String) : TokenKind :=
  if (BinOp.spellings.lookup s).isSome || (UnOp.spellings.lookup s).isSome then .symbol
  else if (booleanSpellings.lookup s).isSome then .boolean
  else .identifier

def Lexeme.kind? (s : String) : Lexeme → Option TokenKind
  | .blank => none
  | .integer => some .integer
  | .word => some (wordKind s)
  | .symbol => some .symbol

/-- A character that starts no lexeme, with its place, is the error. -/
def scan (pos : Nat) : List Char → Except (Char × Nat) (List Token)
  | [] => .ok []
  | c :: cs =>
    match lexeme c cs with
    | none => .error (c, pos)
    | some (l, n) =>
      let s := String.ofList (c :: cs.take n)
      let stop := pos + n + 1
      match scan stop (cs.drop n) with
      | .error e => .error e
      | .ok ts =>
        match l.kind? s with
        | none => .ok ts
        | some k => .ok (⟨k, s, pos, stop⟩ :: ts)
termination_by cs => cs.length

end Token

end ContractVerifier
