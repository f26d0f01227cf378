import ContractVerifier.Proofs.Wp.Walk

/-!
# Runs of programs

A program gives a graph to the name of each function.  A call runs the graph of the callee, from a
store in which the parameters have the values of the arguments and everything else is arbitrary;
recursion is no special case.

* `Exec` : the terminating runs, with all calls made on the way and the returned value;
* `Op.WellTyped`, `Decl.WellTyped` : a graph over source names, each with one type;
* `Graph.Reads`, `Graph.BareReturn` : what a run may look at, and whether it may return without a
  value.
-/

namespace ContractVerifier

open ContractVerifier.Flow

/-- A function of a program: its parameters, the types of its names, and the graph of its body. -/
structure Decl where
  params : List Var
  types : String → Ty
  graph : Graph

abbrev Program := String → Option Decl

namespace Decl

def result (d : Decl) : Ty := d.types resultName

/-- A store in which the function may start. -/
structure Starts (d : Decl) (vals : List Value) (s : Store) : Prop where
  length : vals.length = d.params.length
  typed : s.Typed d.types
  params : ∀ p ∈ d.params, s p.name = Store.ofArgs d.params vals p.name

end Decl

/-- The terminating runs of a function from the remaining operations of a block on, with the calls
they make, at any depth, and the value they return.  A return without a value gives any value of the
result type. -/
inductive Exec (z : Int → Int) (P : Program) :
    Decl → List Op → Option Terminator → Store → List (String × List Value) → Value → Prop where
  | assign {d : Decl} {x : Var} {e : Expr} {ops : List Op} {t : Option Terminator} {s : Store}
      {calls : List (String × List Value)} {v : Value}
      (h : Exec z P d ops t (s.set x.name (e.value z s)) calls v) : Exec z P d (.assign x e :: ops) t s calls v
  | call {d e : Decl} {x : Option Var} {f : String} {args : List Expr} {ops : List Op} {t : Option Terminator}
      {s s₁ : Store} {b : Block} {calls₁ calls₂ : List (String × List Value)} {u v : Value}
      (hf : P f = some e) (hs : e.Starts (args.map (·.value z s)) s₁) (hb : e.graph.block? e.graph.entry = some b)
      (h₁ : Exec z P e b.ops b.term s₁ calls₁ u) (h₂ : Exec z P d ops t (s.bind x u) calls₂ v) :
      Exec z P d (.call x f args :: ops) t s ((f, args.map (·.value z s)) :: calls₁ ++ calls₂) v
  | ret {d : Decl} {e : Expr} {s : Store} : Exec z P d [] (some (.ret (some e))) s [] (e.value z s)
  | bare {d : Decl} {s : Store} {v : Value} (hv : v.Fits d.result) : Exec z P d [] (some (.ret none)) s [] v
  | jump {d : Decl} {t : Terminator} {s : Store} {j : Node} {b : Block} {calls : List (String × List Value)} {v : Value}
      (hn : t.next? z s = some j) (hb : d.graph.block? j = some b) (h : Exec z P d b.ops b.term s calls v) :
      Exec z P d [] (some t) s calls v

/-- `f` runs on the arguments `vals`, makes the calls and returns `v`. -/
def Returns (z : Int → Int) (P : Program) (f : String) (vals : List Value)
    (calls : List (String × List Value)) (v : Value) : Prop :=
  ∃ d s b, P f = some d ∧ d.Starts vals s ∧ d.graph.block? d.graph.entry = some b ∧ Exec z P d b.ops b.term s calls v

/-! ## source names -/

/-- A name of a source, with its type. -/
def Var.Source (Γ : String → Ty) (v : Var) : Prop := '#' ∉ v.name.toList ∧ v.type = Γ v.name

def Expr.Source (Γ : String → Ty) (e : Expr) : Prop := ∀ v ∈ e.vars, v.Source Γ

namespace Flow

def Op.WellTyped (Γ : String → Ty) (cs : Contracts) : Op → Prop
  | assign x e => x.Source Γ ∧ x.name ≠ resultName ∧ e.Source Γ ∧ e.typeOf = .ok x.type
  | call t f args => (∀ w, t = some w → w.Source Γ ∧ w.name ≠ resultName ∧ ∀ c, cs.get? f = some c → w.type = c.result) ∧
      ∀ e ∈ args, e.Source Γ

def Terminator.WellTyped (Γ : String → Ty) : Terminator → Prop
  | goto _ => True
  | branch e _ _ => e.Source Γ
  | ret e => ∀ v, e = some v → v.Source Γ ∧ v.typeOf = .ok (Γ resultName)

structure Block.WellTyped (Γ : String → Ty) (cs : Contracts) (b : Block) : Prop where
  ops : ∀ op ∈ b.ops, op.WellTyped Γ cs
  term : ∀ t, b.term = some t → t.WellTyped Γ
  invariant : ∀ e, b.invariant = some e → e.Source Γ

/-! ## what a run looks at -/

/-- The expressions that are evaluated. -/
def Op.exprs : Op → List Expr
  | assign _ e => [e]
  | call _ _ args => args

def Terminator.exprs : Terminator → List Expr
  | goto _ => []
  | branch e _ _ => [e]
  | ret e => e.toList

def Block.exprs (b : Block) : List Expr :=
  b.ops.flatMap Op.exprs ++ b.term.toList.flatMap Terminator.exprs

/-- A reachable block evaluates an expression with the name. -/
def Graph.Reads (g : Graph) (x : String) : Prop :=
  ∃ i b e v, g.Reaches i ∧ g.block? i = some b ∧ e ∈ b.exprs ∧ v ∈ e.vars ∧ v.name = x

/-- A reachable block returns without a value. -/
def Graph.BareReturn (g : Graph) : Prop :=
  ∃ i b, g.Reaches i ∧ g.block? i = some b ∧ b.term = some (.ret none)

end Flow

/-- All that is reachable is well typed, and no parameter stands for the result. -/
structure Decl.WellTyped (cs : Contracts) (d : Decl) : Prop where
  params : ∀ p ∈ d.params, p.name ≠ resultName
  block : ∀ i b, d.graph.Reaches i → d.graph.block? i = some b → b.WellTyped d.types cs

end ContractVerifier
