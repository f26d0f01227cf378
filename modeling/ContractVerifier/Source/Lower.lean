import ContractVerifier.Expr.Parser
import ContractVerifier.Flow.Graph
import ContractVerifier.Source.Condition
import ContractVerifier.Source.Signature

/-!
# Lowering a function to a flow graph

The statements of a body in normal form are laid out as blocks.  A variable is declared in the table
when it is first assigned, with the type of the value unless an annotation says otherwise.

* `Stmt.lower` : the blocks of one statement;
* `Function.lower` : checks, normalises and lowers a function.
-/

namespace ContractVerifier.Source

open ContractVerifier.Flow

structure Builder where
  table : Table
  signatures : Signatures
  blocks : List Block
  /-- The block that operations are added to. -/
  current : Nat := 0
  /-- Header and exit of the enclosing loops, the innermost first. -/
  loops : List (Nat × Nat) := []

abbrev Build := StateT Builder (Except Failure)

namespace Build

def raise {α : Type} (e : Error) : Build α := throw (.error e)

def fault {α : Type} (f : Fault) : Build α := throw (.fault f)

/-- A type error that belongs to a line. -/
def typed {α : Type} (line : Int) (x : Except TypeCause α) : Build α :=
  match x with
  | .ok a => return a
  | .error c => raise (.type c (some line))

def newBlock (line : Int) : Build Nat := do
  let b ← get
  set { b with blocks := b.blocks ++ [({ line := some line } : Block)] }
  return b.blocks.length

def enter (i : Nat) : Build Unit := modify fun b => { b with current := i }

def current : Build Nat := return (← get).current

def editBlock (i : Nat) (f : Block → Block) : Build Unit :=
  modify fun b => { b with blocks := b.blocks.modify i f }

def setTerm (i : Nat) (t : Terminator) : Build Unit :=
  editBlock i fun b => { b with term := some t }

/-- A terminator for a block that has none. -/
def setMissingTerm (i : Nat) (t : Terminator) : Build Unit :=
  editBlock i fun b => { b with term := b.term.or (some t) }

def addOp (op : Op) : Build Unit := do
  editBlock (← current) fun b => { b with ops := b.ops ++ [op] }

/-- Ends the current block; code behind it goes to a new one. -/
def terminate (t : Terminator) (line : Int) : Build Unit := do
  setTerm (← current) t
  enter (← newBlock line)

/-! ## expressions -/

/-- An expression and its type. -/
def expression (e : Exp) : Build (Expr × Ty) := do
  let a ← e.toExpr
  let a ← typed e.line (a.resolve (← get).table)
  let t ← typed e.line a.typeOf
  return (a, t)

/-- A branch condition; an integer is true when it is not zero. -/
def guard (e : Exp) : Build Expr := do
  let (a, t) ← expression e
  return if t = .int then .bin .ne a (.num 0) else a

/-- The variable `x`, declared with type `t` if it is not known yet. -/
def declareVar (x : String) (t : Ty) (line : Int) : Build Var := do
  if x = resultName then raise (.unsupported .reservedName (some line))
  if !(← get).table.contains x then
    modify fun b => { b with
      table := if x.startsWith temporaryStem then b.table.declareTemp x t else b.table.declareLocal x t }
  typed line ((← get).table.var x)

/-- Arguments against parameters. -/
def arguments (line : Int) : List (Var × Exp) → Build (List Expr)
  | [] => return []
  | (p, e) :: rest => do
    let (a, t) ← expression e
    if p.type = .unknown then raise (.type (.unknownType p.name) (some line))
    if t ≠ p.type then raise (.type (.mismatch a.text p.type t) (some line))
    let as ← arguments line rest
    return a :: as

/-- `f(args)`, with its result in `x` if there is one. -/
def invoke (x : Option String) (f : Exp) (args : List Exp) (line : Int) : Build Unit := do
  let callee ← match f with
    | .name _ id => pure id
    | _ => fault .notAName
  let s ← match (← get).signatures.get? callee with
    | some s => pure s
    | none => raise (.unsupported (.undefinedCallee callee) (some line))
  if args.length ≠ s.params.length then
    raise (.type (.arity callee s.params.length args.length) (some line))
  let as ← arguments line (s.params.zip args)
  let target ← match x with
    | none => pure none
    | some x => do
      if s.result = .unknown then raise (.type (.unknownType resultName) (some line))
      let v ← declareVar x s.result line
      if v.type ≠ s.result then raise (.type (.mismatch callee v.type s.result) (some line))
      pure (some v)
  addOp (.call target callee as)

/-- `x = value` -/
def store (x : String) (value : Exp) (line : Int) : Build Unit := do
  match value with
  | .call _ f args _ => invoke (some x) f args line
  | value => do
    let (a, t) ← expression value
    let v ← declareVar x t line
    if v.type ≠ t then raise (.type (.mismatch a.text v.type t) (some line))
    addOp (.assign v a)

/-- A declaration may not change a type. -/
def checkDeclared (x : String) (t : Ty) (line : Int) : Build Unit := do
  match (← get).table.lookup x with
  | some u => if u ≠ t then raise (.type (.redeclared x t u) (some line))
  | none => return

/-- The line of the first statement. -/
def firstLine : List Stmt → Build Int
  | s :: _ => return s.line
  | [] => fault .emptyList

/-- The conjunction of the invariants, over all variables known behind the body. -/
def invariant (texts : List Expr) (line : Int) : Build (Option Expr) := do
  if texts.isEmpty then return none
  else
    let e ← typed line ((Expr.conjoin texts).resolve (← get).table)
    let e ← typed line e.asCondition
    return some e

/-- The invariants at the start of a loop body. -/
def leadingInvariants (body : List Stmt) : List String :=
  (body.takeWhile Stmt.isInvariant).filterMap Stmt.invariantText

def parseAll : List String → Build (List Expr)
  | [] => return []
  | s :: ss => do
    let e ← parse s
    let es ← parseAll ss
    return e :: es

end Build

open Build

/-! ## statements -/

mutual

def Stmt.lower : Stmt → Build Unit
  | .assign sp ts v =>
    match ts with
    | .name _ x :: _ => store x v sp.line
    | _ :: _ => fault .notAName
    | [] => fault .emptyList
  | .declare sp t u v => do
    match t with
    | .name _ x => do
      let ty := typeOfNote (some u)
      checkDeclared x ty sp.line
      let _ ← declareVar x ty sp.line
      match v with
      | some v => store x v sp.line
      | none => return
    | _ => fault .notAName
  | .exp sp v =>
    match v with
    | .call _ f args _ => invoke none f args sp.line
    | _ => fault .notAName
  | .pass _ => return
  | .ret sp none => terminate (.ret none) sp.line
  | .ret sp (some v) => do
    let (a, t) ← expression v
    let r := (← get).table.result
    if r = .unknown then raise (.type (.unknownType resultName) (some sp.line))
    if t ≠ r then raise (.type (.mismatch a.text r t) (some sp.line))
    terminate (.ret (some a)) sp.line
  | .cond sp t body orElse => do
    let g ← guard t
    let branch ← current
    let onTrue ← newBlock (← firstLine body)
    enter onTrue
    Stmt.lowerL body
    let trueEnd ← current
    let falsePart ← if orElse.isEmpty then pure none else do
      let onFalse ← newBlock (← firstLine orElse)
      enter onFalse
      Stmt.lowerL orElse
      pure (some (onFalse, ← current))
    let join ← newBlock sp.endLine
    setTerm branch (.branch g onTrue ((falsePart.map (·.1)).getD join))
    setMissingTerm trueEnd (.goto join)
    match falsePart with
    | some (_, falseEnd) => setMissingTerm falseEnd (.goto join)
    | none => pure ()
    enter join
  | .loop sp t body _ => do
    let invs ← parseAll (leadingInvariants body)
    let header ← newBlock sp.line
    setTerm (← current) (.goto header)
    enter header
    let g ← guard t
    let start ← newBlock (((body.dropWhile Stmt.isInvariant).head?.map Stmt.line).getD sp.line)
    let exit ← newBlock sp.endLine
    setTerm header (.branch g start exit)
    modify fun b => { b with loops := (header, exit) :: b.loops }
    enter start
    Stmt.lowerLoopBody body
    setMissingTerm (← current) (.goto header)
    modify fun b => { b with loops := b.loops.drop 1 }
    let inv ← invariant invs sp.line
    editBlock header fun b => { b with invariant := inv }
    enter exit
  | .brk sp => do
    match (← get).loops with
    | (_, exit) :: _ => terminate (.goto exit) sp.line
    | [] => fault .emptyList
  | .cont sp => do
    match (← get).loops with
    | (header, _) :: _ => terminate (.goto header) sp.line
    | [] => fault .emptyList
  | .augment sp .. => raise (.unsupported (.construct (.kind "AugAssign")) (some sp.line))
  | .function sp .. => raise (.unsupported (.construct (.kind "FunctionDef")) (some sp.line))
  | .other sp k _ => raise (.unsupported (.construct (.kind k)) (some sp.line))

def Stmt.lowerL : List Stmt → Build Unit
  | [] => return
  | s :: ss => do
    s.lower
    Stmt.lowerL ss

/-- Invariants at the start are left out. -/
def Stmt.lowerLoopBody : List Stmt → Build Unit
  | [] => return
  | s :: ss => do
    if s.isInvariant then Stmt.lowerLoopBody ss
    else
      s.lower
      Stmt.lowerL ss

end

/-- A whole body; a description at its start is left out, and its end returns. -/
def lowerBody (body : List Stmt) : Build Unit := do
  match body with
  | s :: ss => do
    if s.isDocstring then Stmt.lowerL ss else Stmt.lowerL (s :: ss)
  | [] => pure ()
  setMissingTerm (← current) (.ret none)

/-- The graph of a body, and the types of all its variables. -/
def buildGraph (t : Table) (sigs : Signatures) (line : Int) (body : List Stmt) :
    Except Failure (Table × Graph) := do
  let start : Builder := { table := t, signatures := sigs, blocks := [{ line := some line }] }
  let ((), b) ← (lowerBody body).run start
  .ok (b.table, ⟨b.blocks, 0⟩)

namespace Function

/-- The name of the returned value may not be a parameter. -/
def checkParams (f : Function) (s : Signature) : Except Failure Unit :=
  if s.params.any fun p => p.name == resultName then
    .error (.error (.unsupported .reservedName (some f.span.line)))
  else .ok ()

/-- The function in normal form, with the signature its name stands for. -/
def normalize (f : Function) (sigs : Signatures) : Except Failure (Function × Signature) := do
  f.toStmt.check false false
  match sigs.get? f.name with
  | none => .error (.fault .missingKey)
  | some s => do
    f.checkParams s
    let g ← f.preprocess.mapError .fault
    .ok (g, s)

def lower (f : Function) (sigs : Signatures) : Except Failure (Table × Graph) := do
  let (g, s) ← f.normalize sigs
  buildGraph s.table sigs g.span.line g.body

end Function

end ContractVerifier.Source
