import ContractVerifier.Source.Tree

/-!
# Moving statements out of expressions

A pass that takes parts out of expressions puts statements for them in front of the statement they
were taken from.  `pending` holds the statements that wait for their place, in order; temporaries
are numbered.
-/

namespace ContractVerifier.Source

/-- What the names of temporaries start with. -/
def temporaryStem : String := "__tmp_"

def temporary (n : Nat) : String := temporaryStem ++ toString n

structure Hoist where
  counter : Nat := 0
  pending : List Stmt := []

abbrev HoistM := StateM Hoist

namespace Hoist

/-- The next temporary. -/
def fresh : HoistM String := do
  let st ← get
  set { st with counter := st.counter + 1 }
  return temporary st.counter

def push (ss : List Stmt) : HoistM Unit := modify fun st => { st with pending := st.pending ++ ss }

/-- Takes all statements that wait. -/
def takeAll : HoistM (List Stmt) := do
  let st ← get
  set { st with pending := [] }
  return st.pending

/-- `x = value`, at the place of `value`. -/
def assignTo (x : String) (sp : Span) (value : Exp) : Stmt := .assign sp [.name sp x] value

end Hoist

end ContractVerifier.Source
