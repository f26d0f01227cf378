import ContractVerifier.Data.Basic
import ContractVerifier.Source.Tree

/-!
# Source trees from data

A node is a map with its kind under `_`, its lines, and its fields by name.  Fields that are empty
or missing are left out.
-/

namespace ContractVerifier.Source

open Data (optional?)

/-- The kind of a node. -/
def nodeKind? (d : Data) : Option String := d.field? "_" >>= Data.text?

/-- The member of `all` whose kind is named. -/
def named? {α : Type} (all : List α) (kind : α → String) (d : Data) : Option α := do
  let k ← d.text?
  all.find? fun a => kind a == k

def Span.decode? (d : Data) : Option Span := do
  let line ← optional? Data.int? "lineno" d
  let endLine ← optional? Data.int? "end_lineno" d
  let line := line.getD 1
  some ⟨line, endLine.getD line⟩

def Constant.decode? : Data → Option Constant
  | .null => some .none
  | .bool b => some (.bool b)
  | .int n => some (.int n)
  | .text s => some (.text s)
  | d => do
    let s ← d.field? "repr" >>= Data.text?
    some (.other s)

/-- The fields of a node in the order of their labels, each read by `f`. -/
def fieldsWith (f : Data → Option Part) (kind : String) (d : Data) : Option (List Part) :=
  ((labels.lookup kind).getD []).filterMapM fun l =>
    match d.field? l with
    | some x => do
      let p ← f x
      some (some (.field l p))
    | none => some none

def Part.isField (label : String) : Part → Bool
  | .field l _ => l == label
  | _ => false

def ownExpKinds : List String :=
  ["Constant", "Name", "UnaryOp", "BinOp", "BoolOp", "Compare", "IfExp", "Call"]

def ownStmtKinds : List String :=
  ["FunctionDef", "Assign", "AnnAssign", "AugAssign", "Expr", "If", "While", "Return", "Pass", "Break", "Continue"]

mutual

/-- `fuel` bounds the depth of the node. -/
def Exp.decode? : Nat → Data → Option Exp
  | 0, _ => none
  | fuel + 1, d => do
    let sp ← Span.decode? d
    let kind ← nodeKind? d
    let sub (k : String) : Option Exp := d.field? k >>= Exp.decode? fuel
    let subs (k : String) : Option (List Exp) := d.items? k >>= List.mapM (Exp.decode? fuel)
    match kind with
    | "Constant" =>
      let c ← d.get? "value" >>= Constant.decode?
      some (.constant sp c)
    | "Name" =>
      let x ← d.field? "id" >>= Data.text?
      some (.name sp x)
    | "UnaryOp" =>
      let op ← d.field? "op" >>= named? Sign.all Sign.kind
      let e ← sub "operand"
      some (.unary sp op e)
    | "BinOp" =>
      let l ← sub "left"
      let op ← d.field? "op" >>= named? Arith.all Arith.kind
      let r ← sub "right"
      some (.binary sp l op r)
    | "BoolOp" =>
      let op ← d.field? "op" >>= named? Logic.all Logic.kind
      let es ← subs "values"
      some (.logic sp op es)
    | "Compare" =>
      let l ← sub "left"
      let ops ← d.items? "ops" >>= List.mapM (named? Comparison.all Comparison.kind)
      let rs ← subs "comparators"
      some (.compare sp l ops rs)
    | "IfExp" =>
      let t ← sub "test"
      let a ← sub "body"
      let b ← sub "orelse"
      some (.ifElse sp t a b)
    | "Call" =>
      let f ← sub "func"
      let args ← subs "args"
      let keywords ← d.items? "keywords" >>= List.mapM (Part.decode? fuel)
      some (.call sp f args keywords)
    | k =>
      let ps ← fieldsWith (Part.decode? fuel) k d
      some (.other sp k ps)

def Stmt.decode? : Nat → Data → Option Stmt
  | 0, _ => none
  | fuel + 1, d => do
    let sp ← Span.decode? d
    let kind ← nodeKind? d
    let sub (k : String) : Option Exp := d.field? k >>= Exp.decode? fuel
    let opt (k : String) : Option (Option Exp) := optional? (Exp.decode? fuel) k d
    let block (k : String) : Option (List Stmt) := d.items? k >>= List.mapM (Stmt.decode? fuel)
    match kind with
    | "FunctionDef" =>
      let x ← d.field? "name" >>= Data.text?
      let args := (d.field? "args").getD (.map [])
      let params ← args.items? "args" >>= List.mapM (Param.decode? fuel)
      let more ← fieldsWith (Part.decode? fuel) "arguments" args
      let body ← block "body"
      let decorators ← d.items? "decorator_list" >>= List.mapM (Exp.decode? fuel)
      let result ← opt "returns"
      some (.function sp x params (more.filter fun p => !p.isField "args") body decorators result)
    | "Assign" =>
      let ts ← d.items? "targets" >>= List.mapM (Exp.decode? fuel)
      let v ← sub "value"
      some (.assign sp ts v)
    | "AnnAssign" =>
      let t ← sub "target"
      let u ← sub "annotation"
      let v ← opt "value"
      some (.declare sp t u v)
    | "AugAssign" =>
      let t ← sub "target"
      let op ← d.field? "op" >>= named? Arith.all Arith.kind
      let v ← sub "value"
      some (.augment sp t op v)
    | "Expr" =>
      let v ← sub "value"
      some (.exp sp v)
    | "If" =>
      let t ← sub "test"
      let b ← block "body"
      let o ← block "orelse"
      some (.cond sp t b o)
    | "While" =>
      let t ← sub "test"
      let b ← block "body"
      let o ← block "orelse"
      some (.loop sp t b o)
    | "Return" =>
      let v ← opt "value"
      some (.ret sp v)
    | "Pass" => some (.pass sp)
    | "Break" => some (.brk sp)
    | "Continue" => some (.cont sp)
    | k =>
      let ps ← fieldsWith (Part.decode? fuel) k d
      some (.other sp k ps)

def Param.decode? : Nat → Data → Option Param
  | 0, _ => none
  | fuel + 1, d => do
    let sp ← Span.decode? d
    let x ← d.field? "arg" >>= Data.text?
    let t ← optional? (Exp.decode? fuel) "annotation" d
    some (.mk sp x t)

def Part.decode? : Nat → Data → Option Part
  | 0, _ => none
  | fuel + 1, d =>
    match d with
    | .null => some .missing
    | .text s => some (.text s)
    | .int n => some (.number n)
    | .list xs => do
      let ps ← xs.mapM (Part.decode? fuel)
      some (.list ps)
    | .map es => do
      let d := Data.map es
      let k ← nodeKind? d
      if k = "keyword" then
        let sp ← Span.decode? d
        let x ← optional? Data.text? "arg" d
        let e ← d.field? "value" >>= Exp.decode? fuel
        some (.keyword sp x e)
      else if expKinds.contains k || ownExpKinds.contains k then
        let e ← Exp.decode? fuel d
        some (.exp e)
      else if stmtKinds.contains k || ownStmtKinds.contains k then
        let s ← Stmt.decode? fuel d
        some (.stmt s)
      else
        let sp ← match d.field? "lineno" with
          | some _ => (Span.decode? d).map some
          | none => some none
        let ps ← fieldsWith (Part.decode? fuel) k d
        some (.node k sp ps)
    | _ => none

end

/-- Enough for any node: each level of the data is entered twice at most. -/
def decodeFuel (d : Data) : Nat := 2 * d.depth + 2

def Exp.ofData? (d : Data) : Option Exp := Exp.decode? (decodeFuel d) d

def Stmt.ofData? (d : Data) : Option Stmt := Stmt.decode? (decodeFuel d) d

def Part.ofData? (d : Data) : Option Part := Part.decode? (decodeFuel d) d

/-- The statements of a module. -/
def moduleOfData? (d : Data) : Option (List Stmt) := d.items? "body" >>= List.mapM Stmt.ofData?

end ContractVerifier.Source
