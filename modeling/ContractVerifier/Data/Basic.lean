import ContractVerifier.Number.Order
import ContractVerifier.Number.Shortest

/-!
# Plain data

What a document of a data format holds: the trees of programs, and the values of task files.
-/

namespace ContractVerifier

inductive Data where
  | null
  | bool (b : Bool)
  | int (n : Int)
  | decimal (x : Double)
  | text (s : String)
  | list (xs : List Data)
  | map (es : List (String × Data))
deriving Inhabited

namespace Data

/-- The entry of a key. -/
def get? (d : Data) (k : String) : Option Data :=
  match d with
  | map es => es.lookup k
  | _ => none

/-- The entry of a key that is neither missing nor null. -/
def field? (d : Data) (k : String) : Option Data :=
  match d.get? k with
  | some null => none
  | x => x

/-- The entry of a key, null if it is missing. -/
def entry (d : Data) (k : String) : Data := (d.get? k).getD null

def text? : Data → Option String
  | text s => some s
  | _ => none

def int? : Data → Option Int
  | int n => some n
  | _ => none

def list? : Data → Option (List Data)
  | list xs => some xs
  | _ => none

/-- The elements of an entry; a missing one has none. -/
def items? (d : Data) (k : String) : Option (List Data) :=
  match d.field? k with
  | some x => x.list?
  | none => some []

/-- An entry read by `f`, if there is one. -/
def optional? {α : Type} (f : Data → Option α) (k : String) (d : Data) : Option (Option α) :=
  match d.field? k with
  | some x => (f x).map some
  | none => some none

/-! ## values as settings -/

/-- A value, or another one in the place of null. -/
def orElse (d e : Data) : Data :=
  match d with
  | null => e
  | d => d

def isText (s : String) : Data → Bool
  | text t => t = s
  | _ => false

def isNull : Data → Bool
  | null => true
  | _ => false

/-- What counts as given: neither nothing, nor zero, nor empty. -/
def isTrue : Data → Bool
  | null => false
  | bool b => b
  | int n => n ≠ 0
  | decimal (.finite _ m _) => m ≠ 0
  | decimal _ => true
  | text s => s ≠ ""
  | list xs => !xs.isEmpty
  | map es => !es.isEmpty

/-- Whether a value may be a key of a table. -/
def isKey : Data → Bool
  | list _ | map _ => false
  | _ => true

/-- The number a value stands for. -/
def number? : Data → Option Double
  | bool b => some (.whole (if b then 1 else 0))
  | int n => some (.whole n)
  | decimal x => some x
  | _ => none

/-- Whether `y ≤ x`; only numbers and texts have an order. -/
def atLeast? (x y : Data) : Option Bool :=
  match x, y with
  | text s, text t => some (t ≤ s)
  | x, y => do
    let a ← x.number?
    let b ← y.number?
    some (a.atLeast b)

mutual

/-- How deep lists and maps are nested. -/
def depth : Data → Nat
  | list xs => depthL xs + 1
  | map es => depthM es + 1
  | _ => 1

def depthL : List Data → Nat
  | [] => 0
  | x :: xs => max (depth x) (depthL xs)

def depthM : List (String × Data) → Nat
  | [] => 0
  | (_, x) :: es => max (depth x) (depthM es)

end

end Data

end ContractVerifier
