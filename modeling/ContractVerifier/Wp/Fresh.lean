import ContractVerifier.Expr.Basic

/-!
# Fresh names

Names `x#1`, `x#2`, … for renamed values of `x`.  No source identifier holds `#`.
-/

namespace ContractVerifier

/-- How many fresh names each base name has been given. -/
abbrev Counters := Keyed String Nat

namespace Fresh

/-- The `k`-th fresh name of `x`. -/
def nameOf (x : String) (k : Nat) : String := x ++ "#" ++ toString k

def next (c : Counters) (x : String) : String × Counters :=
  let k := (c.get? x).getD 0 + 1
  (nameOf x k, c.put x k)

/-- A fresh variable of the type of `v`. -/
def var (c : Counters) (v : Var) : Var × Counters :=
  let (x, c) := next c v.name
  (⟨x, v.type⟩, c)

/-- Fresh variables for several, in order. -/
def vars (c : Counters) : List Var → List Var × Counters
  | [] => ([], c)
  | v :: vs =>
    let (w, c) := var c v
    let (ws, c) := vars c vs
    (w :: ws, c)

end Fresh

end ContractVerifier
