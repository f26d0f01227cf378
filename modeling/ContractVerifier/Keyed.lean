/-!
# Ordered entries

`Keyed α β` holds values by key in the order in which the keys were first put in.

* `put` : a new key goes to the end, a known key keeps its place and takes the new value;
* `putNew` : a known key keeps its value;
* `get?` : the value of a key.
-/

namespace ContractVerifier

structure Keyed (α β : Type) where
  entries : List (α × β) := []
deriving DecidableEq

namespace Keyed

variable {α β : Type} [DecidableEq α]

instance : Inhabited (Keyed α β) := ⟨⟨[]⟩⟩

def empty : Keyed α β := ⟨[]⟩

/-- The value of the first entry with key `k`. -/
def lookup (k : α) : List (α × β) → Option β
  | [] => none
  | (a, b) :: r => if a = k then some b else lookup k r

def get? (m : Keyed α β) (k : α) : Option β := lookup k m.entries

def contains (m : Keyed α β) (k : α) : Bool := (m.get? k).isSome

def keys (m : Keyed α β) : List α := m.entries.map (·.1)

def values (m : Keyed α β) : List β := m.entries.map (·.2)

/-- Replaces the value of `k` where it stands, or adds it at the end. -/
def putList (k : α) (v : β) : List (α × β) → List (α × β)
  | [] => [(k, v)]
  | (a, b) :: r => if a = k then (a, v) :: r else (a, b) :: putList k v r

def put (m : Keyed α β) (k : α) (v : β) : Keyed α β := ⟨putList k v m.entries⟩

def putNew (m : Keyed α β) (k : α) (v : β) : Keyed α β :=
  if m.contains k then m else ⟨m.entries ++ [(k, v)]⟩

def ofList (es : List (α × β)) : Keyed α β := es.foldl (fun m e => m.put e.1 e.2) empty

end Keyed

end ContractVerifier
