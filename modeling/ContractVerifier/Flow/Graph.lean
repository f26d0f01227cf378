import ContractVerifier.Error

/-!
# Flow graphs

The control flow of one function.  Blocks stand in a list and refer to each other by index; each
holds a straight-line sequence of operations and at most one terminator.  The head of a loop may
carry an invariant.

An index below zero counts from the end of the list.  It is a node of its own all the same: a search
that meets a block under two indices visits it twice.
-/

namespace ContractVerifier.Flow

/-- The index of a block. -/
abbrev Node := Int

inductive Op where
  | assign (target : Var) (value : Expr)
  | call (target : Option Var) (callee : String) (args : List Expr)
deriving DecidableEq

inductive Terminator where
  | goto (target : Node)
  | branch (guard : Expr) (onTrue onFalse : Node)
  | ret (value : Option Expr)
deriving DecidableEq

structure Block where
  ops : List Op := []
  term : Option Terminator := none
  invariant : Option Expr := none
  line : Option Int := none
deriving DecidableEq, Inhabited

structure Graph where
  blocks : List Block := []
  entry : Node := 0
deriving DecidableEq

def Op.target : Op → Option Var
  | assign t _ => some t
  | call t _ _ => t

def Terminator.successors : Terminator → List Node
  | goto t => [t]
  | branch _ t f => [t, f]
  | ret _ => []

namespace Block

def successors (b : Block) : List Node :=
  match b.term with
  | some t => t.successors
  | none => []

theorem length_successors_le (b : Block) : b.successors.length ≤ 2 := by
  unfold successors Terminator.successors
  split
  · split <;> simp
  · simp

def isReturn (b : Block) : Bool :=
  match b.term with
  | some (.ret _) => true
  | _ => false

end Block

namespace Graph

/-- Where the block of an index stands. -/
def position (g : Graph) (i : Node) : Nat := if i < 0 then (g.blocks.length + i).toNat else i.toNat

def block? (g : Graph) (i : Node) : Option Block :=
  if i < -(g.blocks.length : Int) then none else g.blocks[g.position i]?

def block (g : Graph) (i : Node) : Except Fault Block :=
  match g.block? i with
  | some b => .ok b
  | none => .error .noSuchBlock

def successors (g : Graph) (i : Node) : List Node :=
  match g.block? i with
  | some b => b.successors
  | none => []

/-- The edge relation. -/
def Edge (g : Graph) (i j : Node) : Prop := j ∈ g.successors i

/-- An index from zero to the last block. -/
def IsIndex (g : Graph) (i : Node) : Prop := 0 ≤ i ∧ i < g.blocks.length

instance (g : Graph) (i : Node) : Decidable (g.IsIndex i) := inferInstanceAs (Decidable (_ ∧ _))

/-- The entry and all targets are blocks of the graph. -/
def Valid (g : Graph) : Prop := g.IsIndex g.entry ∧ ∀ b ∈ g.blocks, ∀ s ∈ b.successors, g.IsIndex s

end Graph

/-! ## text -/

def Op.text : Op → String
  | assign t e => t.name ++ " = " ++ e.text
  | call t f args =>
    let c := f ++ "(" ++ ", ".intercalate (args.map Expr.text) ++ ")"
    match t with
    | some t => t.name ++ " = " ++ c
    | none => c

def Terminator.text : Terminator → String
  | goto t => "goto " ++ toString t
  | branch e t f => "if " ++ e.text ++ " goto " ++ toString t ++ " else " ++ toString f
  | ret none => "return"
  | ret (some e) => "return " ++ e.text

namespace Block

/-- The invariant, the operations and the terminator, a line each. -/
def lines (b : Block) : List String :=
  (match b.invariant with
    | some e => ["invariant " ++ e.text]
    | none => []) ++
  b.ops.map Op.text ++
  [match b.term with
    | some t => t.text
    | none => "None"]

def label (b : Block) : String := "\n".intercalate b.lines

end Block

/-! ## numbers that can be written -/

def Op.isWritable : Op → Bool
  | assign _ e => e.isWritable
  | call _ _ args => args.all Expr.isWritable

def Terminator.isWritable : Terminator → Bool
  | goto _ | ret none => true
  | branch e _ _ => e.isWritable
  | ret (some e) => e.isWritable

/-- Whether the block has a label. -/
def Block.isWritable (b : Block) : Bool :=
  b.invariant.all Expr.isWritable && b.ops.all Op.isWritable && b.term.all Terminator.isWritable

/-- Whether all blocks have a label. -/
def Graph.isWritable (g : Graph) : Bool := g.blocks.all Block.isWritable

/-- The blocks in order, each under its index. -/
def Graph.text (g : Graph) : String :=
  "\n".intercalate (g.blocks.zipIdx.map fun (b, i) =>
    "(" ++ toString i ++ ")\n  " ++ b.label.replace "\n" "\n  ")

end ContractVerifier.Flow
