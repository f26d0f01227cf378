import ContractVerifier.Expr.Printer
import ContractVerifier.Source.Tree
import ContractVerifier.Text.Literal

/-!
# Text of source trees

Expressions are printed with the fewest parentheses that keep their meaning: each place asks for a
least binding strength, a `level`.  Statements are printed as indented lines.  `Exp.isWritable` and
`Stmt.isWritable` say what has a text at all.
-/

namespace ContractVerifier.Source

/-! ## binding strength -/

namespace Level

def named : Nat := 1
def tuple : Nat := 2
def yield : Nat := 3
def test : Nat := 4
def or : Nat := 5
def and : Nat := 6
def not : Nat := 7
def cmp : Nat := 8
def bitOr : Nat := 9
def bitXor : Nat := 10
def bitAnd : Nat := 11
def shift : Nat := 12
def arith : Nat := 13
def term : Nat := 14
def factor : Nat := 15
def power : Nat := 16
def await : Nat := 17
def atom : Nat := 18

/-- One level higher. -/
def next (l : Nat) : Nat := min (l + 1) atom

end Level

def Arith.symbol : Arith → String
  | add => "+" | sub => "-" | mult => "*" | matMult => "@" | div => "/" | mod => "%"
  | lShift => "<<" | rShift => ">>" | bitOr => "|" | bitXor => "^" | bitAnd => "&"
  | floorDiv => "//" | pow => "**"

def Arith.level : Arith → Nat
  | add | sub => Level.arith
  | mult | matMult | div | mod | floorDiv => Level.term
  | lShift | rShift => Level.shift
  | bitOr => Level.bitOr
  | bitXor => Level.bitXor
  | bitAnd => Level.bitAnd
  | pow => Level.power

def Sign.symbol : Sign → String
  | invert => "~" | not => "not " | plus => "+" | minus => "-"

def Sign.level : Sign → Nat
  | not => Level.not
  | _ => Level.factor

def Logic.symbol : Logic → String
  | and => " and " | or => " or "

def Logic.level : Logic → Nat
  | and => Level.and
  | or => Level.or

def Comparison.symbol : Comparison → String
  | eq => "==" | notEq => "!=" | lt => "<" | ltE => "<=" | gt => ">" | gtE => ">="
  | is => "is" | isNot => "is not" | isIn => "in" | notIn => "not in"

/-! ## constants -/

/-- A number that is no finite one is written as a literal out of range. -/
def outOfRange (s : String) : String := (s.replace "inf" "1e309").replace "nan" "(1e309-1e309)"

/-- `plain` asks for a text literal without backslashes where that is possible. -/
def Constant.print (plain : Bool) : Constant → String
  | none => "None"
  | bool true => "True"
  | bool false => "False"
  | int n => toString n
  | text s => if plain then Text.plainLiteral Text.allQuotes s else Text.quoted s
  | other "Ellipsis" => "..."
  | other s => if s.startsWith "b'" || s.startsWith "b\"" then s else outOfRange s

/-! ## other constructs

The parts of a construct are first turned into values of `Shown`, which print themselves at a given
level; then one function for each kind puts them together.-/

/-- A part that is ready to be printed.  An expression knows whether it is a constant, and its kind
and parts if it is another construct. -/
inductive Shown where
  | missing
  | text (s : String)
  | number (n : Int)
  | exp (const : Option Constant) (kind : String) (parts : List Shown) (print : Bool → Nat → String)
  | keyword (name : Option String) (print : Bool → Nat → String)
  | node (kind : String) (parts : List Shown)
  | list (xs : List Shown)
  | field (label : String) (x : Shown)

namespace Shown

def get (label : String) : List Shown → Shown
  | [] => missing
  | field l x :: xs => if l = label then x else get label xs
  | _ :: xs => get label xs

def isMissing : Shown → Bool
  | missing => true
  | _ => false

def items : Shown → List Shown
  | list xs => xs
  | _ => []

def word : Shown → String
  | text s => s
  | _ => ""

def print (plain : Bool) (level : Nat) : Shown → String
  | exp _ _ _ p => p plain level
  | keyword (some n) p => n ++ "=" ++ p plain Level.test
  | keyword none p => "**" ++ p plain Level.test
  | text s => s
  | _ => ""

/-- The parts of a tuple that is not empty. -/
def isTuple : Shown → Bool
  | exp _ "Tuple" ps _ => !(get "elts" ps).items.isEmpty
  | _ => false

def isInteger : Shown → Bool
  | exp (some (.int _)) _ _ _ => true
  | exp (some (.bool _)) _ _ _ => true
  | _ => false

/-- Separated by commas. -/
def commas (plain : Bool) (level : Nat) (xs : List Shown) : String :=
  ", ".intercalate (xs.map (print plain level))

/-! ### parameters -/

def param (plain : Bool) : Shown → String
  | node _ ps =>
    (get "arg" ps).word ++
      (if (get "annotation" ps).isMissing then "" else ": " ++ (get "annotation" ps).print plain Level.test)
  | _ => ""

def withDefault (plain : Bool) (p d : Shown) : String :=
  param plain p ++ (if d.isMissing then "" else "=" ++ d.print plain Level.test)

/-- The parts of a parameter list, in the order in which they are written. -/
def params (plain : Bool) : Shown → String
  | node _ ps =>
    let first := (get "posonlyargs" ps).items
    let all := first ++ (get "args" ps).items
    let defaults := (get "defaults" ps).items
    let defaults := List.replicate (all.length - defaults.length) missing ++ defaults
    let plainOnes := (all.zip defaults).map fun (p, d) => withDefault plain p d
    let plainOnes :=
      if first.isEmpty then plainOnes else plainOnes.take first.length ++ ["/"] ++ plainOnes.drop first.length
    let star := if (get "vararg" ps).isMissing then [] else ["*" ++ param plain (get "vararg" ps)]
    let named := (get "kwonlyargs" ps).items
    let star := if star.isEmpty && !named.isEmpty then ["*"] else star
    let named := (named.zip (get "kw_defaults" ps).items).map fun (p, d) => withDefault plain p d
    let rest := if (get "kwarg" ps).isMissing then [] else ["**" ++ param plain (get "kwarg" ps)]
    ", ".intercalate (plainOnes ++ star ++ named ++ rest)
  | _ => ""

/-! ### comprehensions -/

def generator (plain : Bool) : Shown → String
  | node _ ps =>
    let async := match get "is_async" ps with
      | number n => n != 0
      | _ => false
    (if async then " async for " else " for ") ++ (get "target" ps).print plain Level.tuple ++ " in " ++
      (get "iter" ps).print plain (Level.next Level.test) ++
      String.join ((get "ifs" ps).items.map fun c => " if " ++ c.print plain (Level.next Level.test))
  | _ => ""

def generators (plain : Bool) (ps : List Shown) : String :=
  String.join ((get "generators" ps).items.map (generator plain))

/-! ### formatted texts -/

/-- Braces of a text are doubled. -/
def doubleBraces (s : String) : String := (s.replace "\x7b" "\x7b\x7b").replace "\x7d" "\x7d\x7d"

def conversion : Shown → String
  | number n => if n = -1 then "" else "!" ++ String.singleton (Char.ofNat n.toNat)
  | _ => ""

mutual

/-- What stands between the quotes. -/
def inner : Shown → String
  | exp (some (.text s)) _ _ _ => doubleBraces s
  | exp _ kind ps _ =>
    if kind = "JoinedStr" then ((innerL ps).lookup "values").getD ""
    else
      let e := (get "value" ps).print true (Level.next Level.test)
      let spec := if (get "format_spec" ps).isMissing then "" else ":" ++ ((innerL ps).lookup "format_spec").getD ""
      "\x7b" ++ (if e.startsWith "\x7b" then " " else "") ++ e ++ conversion (get "conversion" ps) ++ spec ++ "\x7d"
  | list xs => String.join ((innerL xs).map (·.2))
  | field _ x => x.inner
  | _ => ""

def innerL : List Shown → List (String × String)
  | [] => []
  | field l x :: xs => (l, x.inner) :: innerL xs
  | x :: xs => ("", x.inner) :: innerL xs

end

def isText : Shown → Bool
  | exp (some (.text _)) _ _ _ => true
  | exp (some _) _ _ _ => true
  | _ => false

def formatted (plain : Bool) (ps : List Shown) : String :=
  let parts := (get "values" ps).items
  if plain then "f" ++ Text.plainLiteral Text.allQuotes (String.join (parts.map inner))
  else "f" ++ Text.joinedLiteral (parts.map fun x => (x.inner, x.isText))

/-! ### all kinds -/

def pairs (plain : Bool) : List Shown → List Shown → List String
  | k :: ks, v :: vs =>
    (if k.isMissing then "**" ++ v.print plain Level.bitOr
      else k.print plain Level.test ++ ": " ++ v.print plain Level.test) :: pairs plain ks vs
  | _, _ => []

/-- Behind a word, with a blank between them. -/
def behind (w : String) (plain : Bool) (x : Shown) : String :=
  if x.isMissing then w else w ++ " " ++ x.print plain Level.atom

/-- A construct of kind `k` at a place that asks for `level`. -/
def construct (plain : Bool) (level : Nat) (k : String) (ps : List Shown) : String :=
  let p (label : String) (l : Nat) : String := (get label ps).print plain l
  let elts := (get "elts" ps).items
  match k with
  | "Attribute" => p "value" Level.atom ++ (if (get "value" ps).isInteger then " ." else ".") ++ p "attr" 0
  | "Subscript" =>
    p "value" Level.atom ++ "[" ++
      p "slice" (if (get "slice" ps).isTuple then Level.tuple else Level.test) ++ "]"
  | "Starred" => "*" ++ p "value" Level.bitOr
  | "Slice" =>
    p "lower" Level.test ++ ":" ++ p "upper" Level.test ++
      (if (get "step" ps).isMissing then "" else ":" ++ p "step" Level.test)
  | "Tuple" =>
    parenIf (elts.isEmpty || Level.tuple < level)
      (match elts with
        | [e] => e.print plain Level.test ++ ","
        | es => commas plain Level.test es)
  | "List" => "[" ++ commas plain Level.test elts ++ "]"
  | "Set" =>
    if elts.isEmpty then "\x7b*()\x7d" else "\x7b" ++ commas plain Level.test elts ++ "\x7d"
  | "Dict" =>
    "\x7b" ++ ", ".intercalate (pairs plain (get "keys" ps).items (get "values" ps).items) ++ "\x7d"
  | "ListComp" => "[" ++ p "elt" Level.test ++ generators plain ps ++ "]"
  | "GeneratorExp" => "(" ++ p "elt" Level.test ++ generators plain ps ++ ")"
  | "SetComp" => "\x7b" ++ p "elt" Level.test ++ generators plain ps ++ "\x7d"
  | "DictComp" =>
    "\x7b" ++ p "key" Level.test ++ ": " ++ p "value" Level.test ++ generators plain ps ++ "\x7d"
  | "NamedExpr" => parenIf (Level.named < level) (p "target" Level.atom ++ " := " ++ p "value" Level.atom)
  | "Lambda" =>
    let args := params plain (get "args" ps)
    parenIf (Level.test < level)
      ("lambda" ++ (if args.isEmpty then "" else " " ++ args) ++ ": " ++ p "body" Level.test)
  | "Yield" => parenIf (Level.yield < level) (behind "yield" plain (get "value" ps))
  | "YieldFrom" => parenIf (Level.yield < level) (behind "yield from" plain (get "value" ps))
  | "Await" => parenIf (Level.await < level) (behind "await" plain (get "value" ps))
  | "JoinedStr" => formatted plain ps
  | "FormattedValue" => inner (exp none k ps fun _ _ => "")
  | k => k

end Shown

/-! ## expressions -/

def Exp.constant? : Exp → Option Constant
  | .constant _ c => some c
  | _ => none

mutual

/-- The text at a place that asks for `level`. -/
def Exp.print : Exp → Bool → Nat → String
  | .constant _ c, plain, _ => c.print plain
  | .name _ x, _, _ => x
  | .unary _ op e, plain, level => parenIf (op.level < level) (op.symbol ++ e.print plain op.level)
  | .binary _ l op r, plain, level =>
    let (a, b) :=
      if op = .pow then (Level.next op.level, op.level) else (op.level, Level.next op.level)
    parenIf (op.level < level) (l.print plain a ++ " " ++ op.symbol ++ " " ++ r.print plain b)
  | .logic _ op es, plain, level =>
    parenIf (op.level < level) (op.symbol.intercalate (Exp.printRising es plain (Level.next op.level)))
  | .compare _ l ops rs, plain, level =>
    parenIf (Level.cmp < level) (l.print plain (Level.next Level.cmp) ++
      String.join ((ops.zip (Exp.printL rs plain (Level.next Level.cmp))).map fun (o, r) =>
        " " ++ o.symbol ++ " " ++ r))
  | .ifElse _ t a b, plain, level =>
    parenIf (Level.test < level) (a.print plain (Level.next Level.test) ++ " if " ++
      t.print plain (Level.next Level.test) ++ " else " ++ b.print plain Level.test)
  | .call _ f args keywords, plain, _ =>
    f.print plain Level.atom ++ "(" ++
      ", ".intercalate (Exp.printL args plain Level.test ++
        (Part.showL keywords).map (Shown.print plain Level.test)) ++ ")"
  | .other _ k ps, plain, level => Shown.construct plain level k (Part.showL ps)

def Exp.printL : List Exp → Bool → Nat → List String
  | [], _, _ => []
  | e :: es, plain, level => e.print plain level :: Exp.printL es plain level

/-- Each operand one level above the one before. -/
def Exp.printRising : List Exp → Bool → Nat → List String
  | [], _, _ => []
  | e :: es, plain, level => e.print plain level :: Exp.printRising es plain (Level.next level)

/-- The parts of another construct. -/
def Exp.showParts : Exp → List Shown
  | .other _ _ ps => Part.showL ps
  | _ => []

def Part.show : Part → Shown
  | .missing => .missing
  | .text s => .text s
  | .number n => .number n
  | .exp e => .exp e.constant? e.kind e.showParts fun plain level => e.print plain level
  | .stmt _ => .missing
  | .keyword _ n e => .keyword n fun plain level => e.print plain level
  | .node k _ ps => .node k (Part.showL ps)
  | .list ps => .list (Part.showL ps)
  | .field l p => .field l p.show

def Part.showL : List Part → List Shown
  | [] => []
  | p :: ps => p.show :: Part.showL ps

end

def Exp.text (e : Exp) : String := e.print false Level.test

/-! ## statements -/

def assignText (targets : List Exp) (value : Exp) : String :=
  String.join (targets.map fun t => t.print false Level.tuple ++ " = ") ++ value.text

def Param.text : Param → String
  | .mk _ x none => x
  | .mk _ x (some t) => x ++ ": " ++ t.text

def docText : Stmt → String
  | .exp _ (.constant _ (.text s)) => Text.plainLiteral Text.blockQuotes s
  | _ => ""

/-- A line at depth `n`. -/
def indented (n : Nat) (s : String) : String := "".pushn ' ' (4 * n) ++ s

mutual

/-- Statements that the verifier does not understand are shown by the name of their kind. -/
def Stmt.lines : Stmt → Nat → List String
  | .function _ x ps _ body decorators result, n =>
    let head := "def " ++ x ++ "(" ++ ", ".intercalate (ps.map Param.text) ++ ")" ++
      (match result with
        | some t => " -> " ++ t.text
        | none => "") ++ ":"
    (if n = 0 then [] else [""]) ++ decorators.map (fun d => indented n ("@" ++ d.text)) ++
      [indented n head] ++ Stmt.bodyLines body (n + 1)
  | .assign _ ts v, n => [indented n (assignText ts v)]
  | .declare _ t u none, n => [indented n (t.text ++ ": " ++ u.text)]
  | .declare _ t u (some v), n => [indented n (t.text ++ ": " ++ u.text ++ " = " ++ v.text)]
  | .augment _ t op v, n => [indented n (t.text ++ " " ++ op.symbol ++ "= " ++ v.text)]
  | .exp _ v, n => [indented n (v.print false Level.yield)]
  | .cond _ t body orElse, n =>
    indented n ("if " ++ t.text ++ ":") :: Stmt.linesL body (n + 1) ++ Stmt.elseLines orElse n
  | .loop _ t body orElse, n =>
    indented n ("while " ++ t.text ++ ":") :: Stmt.linesL body (n + 1) ++
      (if orElse.isEmpty then [] else indented n "else:" :: Stmt.linesL orElse (n + 1))
  | .ret _ none, n => [indented n "return"]
  | .ret _ (some v), n => [indented n ("return " ++ v.text)]
  | .pass _, n => [indented n "pass"]
  | .brk _, n => [indented n "break"]
  | .cont _, n => [indented n "continue"]
  | .other _ k _, n => [indented n k]

def Stmt.linesL : List Stmt → Nat → List String
  | [], _ => []
  | s :: ss, n => s.lines n ++ Stmt.linesL ss n

/-- A text at the start of a function body is its description. -/
def Stmt.bodyLines : List Stmt → Nat → List String
  | [], _ => []
  | s :: ss, n => (if s.isDocstring then [indented n (docText s)] else s.lines n) ++ Stmt.linesL ss n

/-- A single condition in the other branch continues the chain. -/
def Stmt.elseLines : List Stmt → Nat → List String
  | [], _ => []
  | [.cond _ t body orElse], n =>
    indented n ("elif " ++ t.text ++ ":") :: Stmt.linesL body (n + 1) ++ Stmt.elseLines orElse n
  | s :: ss, n => indented n "else:" :: (s.lines (n + 1) ++ Stmt.linesL ss (n + 1))

end

def Stmt.text (s : Stmt) : String := "\n".intercalate (s.lines 0)

/-! ## code that has a text -/

def Constant.isWritable : Constant → Bool
  | int n => Text.isShort n
  | _ => true

/-- The value in a formatted text stands there without a backslash. -/
def isPlainValue (parts : List Part) : Bool :=
  !((Shown.get "value" (Part.showL parts)).print true (Level.next Level.test)).toList.contains '\\'

mutual

/-- Whether an expression has a text.  There is none for an integer that is too long, and none for a
formatted text with a value that needs a backslash. -/
def Exp.isWritable : Exp → Bool
  | .constant _ c => c.isWritable
  | .name .. => true
  | .unary _ _ e => e.isWritable
  | .binary _ l _ r => l.isWritable && r.isWritable
  | .logic _ _ es => Exp.isWritableL es
  | .compare _ l _ rs => l.isWritable && Exp.isWritableL rs
  | .ifElse _ t a b => t.isWritable && a.isWritable && b.isWritable
  | .call _ f args keywords => f.isWritable && Exp.isWritableL args && Part.isWritableL keywords
  | .other _ k ps => Part.isWritableL ps && (k != "FormattedValue" || isPlainValue ps)

def Exp.isWritableL : List Exp → Bool
  | [] => true
  | e :: es => e.isWritable && Exp.isWritableL es

def Part.isWritable : Part → Bool
  | .exp e | .keyword _ _ e => e.isWritable
  | .node _ _ ps | .list ps => Part.isWritableL ps
  | .field _ p => p.isWritable
  | .missing | .text _ | .number _ | .stmt _ => true

def Part.isWritableL : List Part → Bool
  | [] => true
  | p :: ps => p.isWritable && Part.isWritableL ps

end

def Param.isWritable : Param → Bool
  | .mk _ _ t => t.all Exp.isWritable

mutual

/-- Whether all that is printed of a statement has a text. -/
def Stmt.isWritable : Stmt → Bool
  | .function _ _ ps _ body decorators result =>
    ps.all Param.isWritable && decorators.all Exp.isWritable && result.all Exp.isWritable && Stmt.isWritableL body
  | .assign _ ts v => ts.all Exp.isWritable && v.isWritable
  | .declare _ t u v => t.isWritable && u.isWritable && v.all Exp.isWritable
  | .augment _ t _ v => t.isWritable && v.isWritable
  | .exp _ v => v.isWritable
  | .cond _ t body orElse | .loop _ t body orElse =>
    t.isWritable && Stmt.isWritableL body && Stmt.isWritableL orElse
  | .ret _ v => v.all Exp.isWritable
  | .pass _ | .brk _ | .cont _ | .other .. => true

def Stmt.isWritableL : List Stmt → Bool
  | [] => true
  | s :: ss => s.isWritable && Stmt.isWritableL ss

end

end ContractVerifier.Source
