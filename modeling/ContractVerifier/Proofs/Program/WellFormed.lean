import ContractVerifier.Proofs.Program.Contracts
import ContractVerifier.Proofs.Wp.Failure

/-!
# Lowered functions are well formed

The graph of a function that is lowered is complete and typed, by a table that goes on from the
signature of the last definition of its name, and the arguments of its calls fit the signatures and
so the contracts.  Hence what a verification condition can lack is an invariant or a contract, and
nothing else.
-/

namespace ContractVerifier

open ContractVerifier.Flow Source Wp

/-- Every block has a terminator, all jumps go to blocks, and the variables, operations, guards,
invariants and returned values of the blocks have the types of the table and of the signatures. -/
structure WellFormed (t : Table) (sigs : Signatures) (g : Graph) : Prop where
  valid : g.Valid
  terminated : ∀ k ∈ g.blocks, ∃ u, k.term = some u
  typed : ∀ k ∈ g.blocks, BlockFits t sigs k

section

variable {fs : List Annotated} {sigs : Signatures} {cs : Contracts} {events : List Event} {t : Table} {g : Graph}

/-- A call that fits the signature of its callee fits the contract. -/
theorem fitsContract_of_fits (hcs : (contractsOf fs sigs).exec = (.ok cs, events)) {op : Op}
    (h : OpFits t sigs op) :
    op.FitsContract cs := by
  cases op with
  | assign x e => trivial
  | call x f args =>
    intro c hc
    obtain ⟨-, -, s, hs, hty⟩ := h
    obtain ⟨hparams, -⟩ := contract_signature hcs hc hs
    rw [hty, hparams]

theorem WellFormed.fitting (h : WellFormed t sigs g)
    (hcs : (contractsOf fs sigs).exec = (.ok cs, events)) (post : Expr) :
    Setting.Fitting ⟨g, cs, post⟩ where
  valid := h.valid
  terminated := fun _ b _ hb => h.terminated b (Graph.mem_blocks_of_block hb)
  calls := fun _ b _ hb op hop => fitsContract_of_fits hcs ((h.typed b (Graph.mem_blocks_of_block hb)).ops op hop)

end

/-- The graph of every function of a module that is lowered is well formed, over the parameters and
the result type of the last definition of its name; and the only failures of a verification
condition over it, with the contracts of the module, are loops without invariant and calls without
contract. -/
theorem lower_wellFormed {fs : List Annotated} {cs : Contracts} {events : List Event}
    (hcs : (contractsOf fs (signatures fs)).exec = (.ok cs, events)) {f : Annotated} (hf : f ∈ fs)
    {t : Table} {g : Graph} (h : f.fn.lower (signatures fs) = .ok (t, g)) :
    WellFormed t (signatures fs) g ∧
      (∃ d, IsLast fs d ∧ d.name = f.name ∧ d.fn.signature.table.Le t ∧ t.result = d.fn.signature.result) ∧
      ∀ pre post e, buildVc pre post g cs = .error e →
        ∃ cause line, e = .error (.unsupported cause line) ∧
        (cause.kind = .unannotatedLoop ∨ cause.kind = .unknownCall) := by
  obtain ⟨d, hlast, hname, hs⟩ := exists_get?_signatures hf
  obtain ⟨-, hle, htyped, hvalid, hterm⟩ := lower_ok hs h
  have hwf : WellFormed t (signatures fs) g := ⟨hvalid, hterm, htyped⟩
  refine ⟨hwf, ⟨d, hlast, hname, hle, hle.result⟩, fun pre post e he => ?_⟩
  have hlacks : Setting.Lacks ⟨g, cs, post⟩ e := buildVc_lacks (hwf.fitting hcs post) he
  cases hlacks with
  | invariant _ _ _ => exact ⟨_, _, rfl, .inl rfl⟩
  | contract _ _ _ _ => exact ⟨_, _, rfl, .inr rfl⟩

/-! ## a loop without invariant -/

namespace Spin

def n : Exp := .name ⟨5, 5⟩ "n"

/-- `return k` -/
def tick : Annotated where
  fn :=
    { span := ⟨1, 2⟩, name := "tick", params := [.mk ⟨1, 1⟩ "k" none], more := [], decorators := [], result := none
      body := [.ret ⟨2, 2⟩ (some (.name ⟨2, 2⟩ "k"))] }

/-- `while n: n = tick(n)`, and then `return n`. -/
def spin : Annotated where
  fn :=
    { span := ⟨4, 7⟩, name := "spin", params := [.mk ⟨4, 4⟩ "n" none], more := [], decorators := [], result := none
      body := [.loop ⟨5, 6⟩ n [.assign ⟨6, 6⟩ [n] (.call ⟨6, 6⟩ (.name ⟨6, 6⟩ "tick") [n] [])] [], .ret ⟨7, 7⟩ (some n)] }

def module : List Annotated := [tick, spin]

def table : Table := { args := ⟨[("n", .int)]⟩, result := .int }

def nVar : Var := ⟨"n", .int⟩

def graph : Graph :=
  ⟨[{ term := some (.goto 1), line := some 4 },
    { term := some (.branch (.bin .ne (.var nVar) (.num 0)) 2 3), line := some 5 },
    { ops := [.call (some nVar) "tick" [.var nVar]], term := some (.goto 1), line := some 6 },
    { term := some (.ret (some (.var nVar))), line := some 6 },
    { term := some (.ret none), line := some 7 }], 0⟩

theorem contracts_eq : (contractsOf module (signatures module)).exec = (.ok .empty, []) := rfl

theorem lower_eq : spin.fn.lower (signatures module) = .ok (table, graph) := by decide +kernel

theorem vc_eq : buildVc .truth .truth graph .empty =
    .error (.error (.unsupported .loopWithoutInvariant (some 5))) := by decide +kernel

end Spin

/-- The last block is never reached, and the loop has no invariant. -/
theorem spin_wellFormed : WellFormed Spin.table (signatures Spin.module) Spin.graph ∧
    buildVc .truth .truth Spin.graph .empty = .error (.error (.unsupported .loopWithoutInvariant (some 5))) ∧
    ∃ cause line, (.error (.unsupported .loopWithoutInvariant (some 5)) : Failure) = .error (.unsupported cause line) ∧
      (cause.kind = .unannotatedLoop ∨ cause.kind = .unknownCall) := by
  have hf : Spin.spin ∈ Spin.module := .tail _ (.head _)
  obtain ⟨hwf, -, hvc⟩ := lower_wellFormed Spin.contracts_eq hf Spin.lower_eq
  exact ⟨hwf, Spin.vc_eq, hvc _ _ _ Spin.vc_eq⟩

end ContractVerifier
