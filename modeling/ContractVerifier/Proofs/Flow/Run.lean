import ContractVerifier.Flow.Graph
import ContractVerifier.Proofs.Store

/-!
# Running a graph

A run goes from block to block until a return.  Callees are functions of their arguments.

* `Graph.run n` : the run from a block on, through at most `n` blocks;
* `Graph.resume n` : the same from the middle of a block, with `n` more blocks behind it;
* `Graph.Finishes` : the run from the entry comes to a return.
-/

namespace ContractVerifier.Flow

def Op.run (z : Int → Int) (I : Callees) (s : Store) : Op → Store
  | assign x e => s.set x.name (e.value z s)
  | call x f args => s.bind x (I f (args.map (·.value z s)))

/-- The value returned, if there is one, and the store at the return. -/
abbrev Outcome := Option Value × Store

/-- `go` is how the run goes on from a block. -/
def Terminator.leave (z : Int → Int) (go : Node → Store → Option Outcome) (s : Store) :
    Terminator → Option Outcome
  | goto j => go j s
  | branch e j k => go (if e.Holds z s.read then j else k) s
  | ret e => some (e.map (·.value z s), s)

/-- The operations and then the terminator. -/
def Block.run (z : Int → Int) (I : Callees) (go : Node → Store → Option Outcome) (b : Block)
    (s : Store) : Option Outcome :=
  b.term.bind fun t => t.leave z go (b.ops.foldl (Op.run z I) s)

namespace Graph

variable (z : Int → Int) (I : Callees) (g : Graph)

def run : Nat → Node → Store → Option Outcome
  | 0, _, _ => none
  | n + 1, i, s => (g.block? i).bind fun b => b.run z I (run n) s

/-- From the operation `k` of the block `i` on. -/
def resume (n i k : Nat) (s : Store) : Option Outcome :=
  g.blocks[i]?.bind fun b => ({ b with ops := b.ops.drop k } : Block).run z I (g.run z I n) s

/-- The run from the entry comes to a return. -/
def Finishes (s : Store) (out : Option Value) (s' : Store) : Prop :=
  ∃ n, g.run z I n g.entry s = some (out, s')

variable {z I g}

theorem run_succ (n i : Nat) (s : Store) : g.run z I (n + 1) i s = g.resume z I n i 0 s := by
  have hp : g.block? i = g.blocks[i]? := by
    have h₁ : ¬ (i : Int) < -(g.blocks.length : Int) := by omega
    have h₂ : ¬ (i : Int) < 0 := by omega
    unfold block? position
    rw [if_neg h₁, if_neg h₂]
    rfl
  unfold run resume
  rw [hp]
  rfl

/-- A run that finishes has taken a step. -/
theorem exists_of_run {n i : Nat} {s : Store} {o : Outcome} (h : g.run z I n i s = some o) :
    ∃ m, n = m + 1 ∧ g.resume z I m i 0 s = some o := by
  cases n with
  | zero => cases h
  | succ m => exact ⟨m, rfl, by rw [← run_succ]; exact h⟩

theorem resume_op {n i k : Nat} {s : Store} {b : Block} {op : Op} (hb : g.blocks[i]? = some b)
    (hk : b.ops[k]? = some op) :
    g.resume z I n i k s = g.resume z I n i (k + 1) (op.run z I s) := by
  obtain ⟨hlt, rfl⟩ := List.getElem?_eq_some_iff.1 hk
  unfold resume Block.run
  simp only [hb, Option.bind_some]
  rw [List.drop_eq_getElem_cons hlt, List.foldl_cons]

theorem resume_term {n i : Nat} {s : Store} {b : Block} {t : Terminator}
    (hb : g.blocks[i]? = some b) (ht : b.term = some t) :
    g.resume z I n i b.ops.length s = t.leave z (g.run z I n) s := by
  unfold resume Block.run
  simp [hb, ht]

end Graph

end ContractVerifier.Flow
