import ContractVerifier.Smt.Encoder

/-!
# Encoding with a pool of terms

Several expressions may be encoded one after the other over one pool of terms.

* `Pool` : the nodes that have been built and the sorts that have been found.  A node is checked
  once, when it is built; one that is refused stays in the pool, and building it again gives it
  without a check.
* `Pool.sweep` : checks nodes, arguments first.  A check that breaks off leaves those above it
  waiting, and the next check ends with them.
* `Encoder.encode` : the term of an expression over the pool of an encoder.
-/

namespace ContractVerifier.Smt

/-- A step of a check: look at the arguments of a node, or find its sort. -/
inductive Visit where
  | enter (t : Term)
  | leave (t : Term)

structure Pool where
  nodes : List Term := [.lit (.bool true), .lit (.bool false)]
  /-- A node without sort is ill-sorted. -/
  sorts : Keyed Term (Option Ty) := ⟨[(.lit (.bool true), some .bool), (.lit (.bool false), some .bool)]⟩
  /-- The steps that are still to be taken, the next one first. -/
  waiting : List Visit := []

def Term.size : Term → Nat
  | sym _ | lit _ => 1
  | not t => t.size + 1
  | bin _ l r => l.size + r.size + 1
  | ite c a b => c.size + a.size + b.size + 1

namespace Visit

def weight : Visit → Nat
  | enter t => 2 * t.size
  | leave _ => 1

def weights : List Visit → Nat
  | [] => 0
  | v :: vs => v.weight + weights vs

/-- The steps for those of the arguments whose sort is not known, the last one first. -/
def entries (known : Term → Bool) (ts : List Term) : List Visit :=
  ((ts.filter (!known ·)).map enter).reverse

theorem weights_append (vs ws : List Visit) : weights (vs ++ ws) = weights vs + weights ws := by
  induction vs with
  | nil => simp [weights]
  | cons v vs ih => simp [weights, ih, Nat.add_assoc]

theorem weights_reverse (vs : List Visit) : weights vs.reverse = weights vs := by
  induction vs with
  | nil => rfl
  | cons v vs ih => simp [weights, weights_append, ih, Nat.add_comm]

theorem weights_filter_le (known : Term → Bool) (ts : List Term) :
    weights ((ts.filter (!known ·)).map enter) ≤ weights (ts.map enter) := by
  induction ts with
  | nil => simp [weights]
  | cons t ts ih =>
    rw [List.filter_cons]
    split <;> simp only [List.map_cons, weights] <;> omega

theorem weights_args (t : Term) : weights (t.args.map enter) + 2 = 2 * t.size := by
  cases t <;> simp [Term.args, Term.size, weights, weight] <;> omega

theorem weights_entries_lt (known : Term → Bool) (t : Term) : weights (entries known t.args) + 1 < 2 * t.size := by
  have h := weights_filter_le known t.args
  have h' := weights_args t
  rw [entries, weights_reverse]
  omega

end Visit

/-- The order asks for the sort of its left side. -/
def Term.comparesSortless (sort? : Term → Option Ty) : Term → Bool
  | .bin .lt l _ | .bin .le l _ => (sort? l).isNone
  | _ => false

namespace Pool

/-- The sort of a node that has been checked. -/
def sort? (sorts : Keyed Term (Option Ty)) (t : Term) : Option Ty := (sorts.get? t).getD none

/-- Takes all steps; a fault leaves those that are behind it. -/
def sweep (sorts : Keyed Term (Option Ty)) :
    List Visit → Except Fault Unit × Keyed Term (Option Ty) × List Visit
  | [] => (.ok (), sorts, [])
  | .enter t :: rest => sweep sorts (Visit.entries sorts.contains t.args ++ .leave t :: rest)
  | .leave t :: rest =>
    if sorts.contains t then sweep sorts rest
    else if !t.args.all sorts.contains then (.error .uncheckedTerm, sorts, rest)
    else if t.comparesSortless (sort? sorts) then (.error .sortlessTerm, sorts, rest)
    else sweep (sorts.put t (t.rootSort? (sort? sorts))) rest
termination_by vs => Visit.weights vs
decreasing_by
  · have := Visit.weights_entries_lt sorts.contains t
    simp only [Visit.weights_append, Visit.weights, Visit.weight]
    omega
  · simp [Visit.weights, Visit.weight]
  · simp [Visit.weights, Visit.weight]

/-- Finds the sort of a node. -/
def check (p : Pool) (t : Term) : Except Fault (Option Ty) × Pool :=
  match p.sorts.get? t with
  | some s => (.ok s, p)
  | none =>
    let (r, sorts, waiting) := sweep p.sorts (.enter t :: p.waiting)
    (r.map fun _ => sort? sorts t, { p with sorts := sorts, waiting := waiting })

end Pool

end ContractVerifier.Smt

namespace ContractVerifier

open Smt

structure Encoder where
  symbols : Symbols := .empty
  pool : Pool := {}

namespace Encoder

inductive Stop where
  | encode (s : EncodeStop)
  | fault (f : Fault)

/-- A failure leaves symbols and terms as they were when it occurred. -/
abbrev Run := ExceptT Stop (StateM Encoder)

namespace Run

/-- The sort of a term of the pool, which has to have one. -/
def sortOf (t : Term) : Run Ty := do
  let (r, p) := (← get).pool.check t
  modify fun e => { e with pool := p }
  match r with
  | .ok (some s) => return s
  | .ok none => throw (.encode (.refused (.illSorted t)))
  | .error f => throw (.fault f)

/-- A node of the pool is given as it is. -/
def node (t : Term) : Run Term := do
  if (← get).pool.nodes.contains t then return t
  else do
    modify fun e => { e with pool := { e.pool with nodes := t :: e.pool.nodes } }
    let _ ← sortOf t
    return t

def symbol (v : Var) : Run Term := do
  match (← get).symbols.lacks v with
  | .error c => throw (.encode (.misuse c))
  | .ok false => return .sym v
  | .ok true =>
    if v.name = "" then throw (.encode (.refused .emptyName))
    else do
      let t ← node (.sym v)
      modify fun e => { e with symbols := e.symbols.put v.name v.type }
      return t

def builder : Builder Run where
  node := node
  sortOf := sortOf
  symbol := symbol

end Run

/-- The term of `e`, and the encoder after it. -/
def encode (enc : Encoder) (e : Expr) : Except Failure Term × Encoder :=
  let (r, enc) := Id.run (StateT.run (ExceptT.run (e.build Run.builder)) enc)
  match r with
  | .ok t => (.ok t, enc)
  | .error (.encode s) => (.error (s.failure e), enc)
  | .error (.fault f) => (.error (.fault f), enc)

end Encoder

end ContractVerifier
