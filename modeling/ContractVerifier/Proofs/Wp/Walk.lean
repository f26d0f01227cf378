import ContractVerifier.Proofs.Flow.Closing
import ContractVerifier.Proofs.Store
import ContractVerifier.Wp.Generator

/-!
# Walks between cut points

A walk follows the blocks of a graph from a point in one of them, in a store, up to the first loop
header or return.  A call gives any value that the contract of the callee allows, and a call whose
precondition fails ends the walk at once.

* `Walk` : the walks, by their first step;
* `Stop.Good` : a walk ended well, at a loop header whose invariant holds or with the postcondition;
* `Safe` : all walks from a point end well; one lemma for each kind of first step.
-/

namespace ContractVerifier

open ContractVerifier.Flow

/-! ## contracts on values -/

namespace Contract

/-- The precondition for arguments. -/
def Pre (z : Int → Int) (c : Contract) (vals : List Value) : Prop :=
  c.pre.Holds z (Store.ofArgs c.params vals).read

/-- The postcondition for arguments and a result. -/
def Post (z : Int → Int) (c : Contract) (vals : List Value) (v : Value) : Prop :=
  c.post.Holds z ((Store.ofArgs c.params vals).set resultName v).read

/-- The conditions are about the parameters and the result. -/
structure Scoped (c : Contract) : Prop where
  pre : ∀ v ∈ c.pre.vars, v.name ∈ c.params.map (·.name)
  post : ∀ v ∈ c.post.vars, v.name = resultName ∨ v.name ∈ c.params.map (·.name)

end Contract

namespace Flow

/-- Where a terminator leads in a store. -/
def Terminator.next? (z : Int → Int) (s : Store) : Terminator → Option Node
  | goto t => some t
  | branch e t f => some (if e.Holds z s.read then t else f)
  | ret _ => none

theorem Terminator.next?_mem {z : Int → Int} {s : Store} {t : Terminator} {j : Node}
    (h : t.next? z s = some j) :
    j ∈ t.successors := by
  cases t with
  | goto i =>
    cases h
    simp [successors]
  | branch e i k =>
    simp only [next?, Option.some.injEq] at h
    subst h
    split <;> simp [successors]
  | ret e => cases h

end Flow

/-- The returned value is bound to `ret`, which is left as it is if there is none. -/
def Store.returning (z : Int → Int) (s : Store) : Option Expr → Store
  | some e => s.set resultName (e.value z s)
  | none => s

namespace Wp

/-- A graph with the contracts of what it calls and its postcondition. -/
structure Setting where
  graph : Graph
  contracts : Contracts
  post : Expr

/-- What a walk ends in. -/
inductive Stop where
  | refused
  | header (h : Node) (s : Store)
  | returned (s : Store)

section

variable (z : Int → Int) (S : Setting)

/-- From the remaining operations of a block and its terminator, in a store. -/
inductive Walk : List Op → Option Terminator → Store → Stop → Prop where
  | assign {x : Var} {e : Expr} {ops : List Op} {t : Option Terminator} {s : Store} {r : Stop}
      (h : Walk ops t (s.set x.name (e.value z s)) r) : Walk (.assign x e :: ops) t s r
  | refused {x : Option Var} {f : String} {args : List Expr} {ops : List Op} {t : Option Terminator} {s : Store}
      {c : Contract} (hc : S.contracts.get? f = some c) (hp : ¬ c.Pre z (args.map (·.value z s))) :
      Walk (.call x f args :: ops) t s .refused
  | call {x : Option Var} {f : String} {args : List Expr} {ops : List Op} {t : Option Terminator} {s : Store}
      {c : Contract} {v : Value} {r : Stop} (hc : S.contracts.get? f = some c)
      (hp : c.Pre z (args.map (·.value z s))) (hv : v.Fits c.result) (hq : c.Post z (args.map (·.value z s)) v)
      (h : Walk ops t (s.bind x v) r) : Walk (.call x f args :: ops) t s r
  | ret {e : Option Expr} {s : Store} : Walk [] (some (.ret e)) s (.returned (s.returning z e))
  | stop {t : Terminator} {s : Store} {j : Node} (hn : t.next? z s = some j) (hj : S.graph.IsHeader j) :
      Walk [] (some t) s (.header j s)
  | next {t : Terminator} {s : Store} {j : Node} {b : Block} {r : Stop} (hn : t.next? z s = some j)
      (hj : ¬ S.graph.IsHeader j) (hb : S.graph.block? j = some b) (h : Walk b.ops b.term s r) :
      Walk [] (some t) s r

/-- The invariant of a block holds. -/
def InvariantAt (h : Node) (s : Store) : Prop :=
  ∃ b inv, S.graph.block? h = some b ∧ b.invariant = some inv ∧ inv.Holds z s.read

/-- No call was refused, and the invariant or the postcondition holds. -/
def Stop.Good : Stop → Prop
  | .refused => False
  | .header h s => InvariantAt z S h s
  | .returned s => S.post.Holds z s.read

/-- All walks from here end well. -/
def Safe (ops : List Op) (t : Option Terminator) (s : Store) : Prop :=
  ∀ r, Walk z S ops t s r → r.Good z S

/-- All walks from the start of a block end well. -/
def SafeFrom (i : Node) (s : Store) : Prop :=
  ∀ b, S.graph.block? i = some b → Safe z S b.ops b.term s

/-- All walks that arrive at a block end well; at a loop header they end at once. -/
def SafeAt (i : Node) (s : Store) : Prop :=
  (S.graph.IsHeader i → InvariantAt z S i s) ∧ (¬ S.graph.IsHeader i → SafeFrom z S i s)

end

section

variable {z : Int → Int} {S : Setting}

theorem safe_assign {x : Var} {e : Expr} {ops : List Op} {t : Option Terminator} {s : Store} :
    Safe z S (.assign x e :: ops) t s ↔ Safe z S ops t (s.set x.name (e.value z s)) := by
  constructor
  · exact fun h r hr => h r (.assign hr)
  · intro h r hr
    cases hr with
    | assign hr => exact h r hr

theorem safe_call {x : Option Var} {f : String} {args : List Expr} {ops : List Op}
    {t : Option Terminator} {s : Store} {c : Contract} (hc : S.contracts.get? f = some c) :
    Safe z S (.call x f args :: ops) t s ↔ c.Pre z (args.map (·.value z s)) ∧
      ∀ v : Value, v.Fits c.result → c.Post z (args.map (·.value z s)) v → Safe z S ops t (s.bind x v) := by
  constructor
  · intro h
    have hp : c.Pre z (args.map (·.value z s)) := by
      by_contra hp
      exact h .refused (.refused hc hp)
    exact ⟨hp, fun v hv hq r hr => h r (.call hc hp hv hq hr)⟩
  · rintro ⟨hp, h⟩ r hr
    cases hr with
    | refused hc' hp' =>
      rw [hc] at hc'
      cases hc'
      exact absurd hp hp'
    | call hc' _ hv hq hr =>
      rw [hc] at hc'
      cases hc'
      exact h _ hv hq r hr

theorem safe_ret {e : Option Expr} {s : Store} :
    Safe z S [] (some (.ret e)) s ↔ S.post.Holds z (s.returning z e).read := by
  constructor
  · exact fun h => h _ .ret
  · intro h r hr
    cases hr with
    | ret => exact h
    | stop hn => cases hn
    | next hn => cases hn

theorem safe_jump {t : Terminator} {s : Store} {j : Node} (hn : t.next? z s = some j) :
    Safe z S [] (some t) s ↔ SafeAt z S j s := by
  constructor
  · intro h
    exact ⟨fun hj => h _ (.stop hn hj), fun hj b hb r hr => h r (.next hn hj hb hr)⟩
  · rintro ⟨h1, h2⟩ r hr
    cases hr with
    | ret => cases hn
    | stop hn' hj =>
      rw [hn] at hn'
      cases hn'
      exact h1 hj
    | next hn' hj hb hr =>
      rw [hn] at hn'
      cases hn'
      exact h2 hj _ hb r hr

theorem safe_branch {g : Expr} {j k : Node} {s : Store} :
    Safe z S [] (some (.branch g j k)) s ↔
      (g.Holds z s.read → SafeAt z S j s) ∧ (¬ g.Holds z s.read → SafeAt z S k s) := by
  by_cases hg : g.Holds z s.read
  · rw [safe_jump (j := j) (by simp [Terminator.next?, hg])]
    simp [hg]
  · rw [safe_jump (j := k) (by simp [Terminator.next?, hg])]
    simp [hg]

end

end Wp

end ContractVerifier
