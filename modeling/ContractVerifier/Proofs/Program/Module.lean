import ContractVerifier.Proofs.Expr.Scan
import ContractVerifier.Proofs.Program.Contracts
import ContractVerifier.Proofs.Program.Sound

/-!
# Modules keep their contracts

* `moduleProgram` : the program of a module, each function lowered to its graph;
* `Accepted` : a function has well formed conditions, is lowered, and has a valid verification
  condition;
* `module_sound` : if all functions of a module are accepted, then every run keeps the contracts.
-/

namespace ContractVerifier

open ContractVerifier.Flow Wp Source

/-- The functions of a module, lowered. -/
def moduleProgram (fs : List Annotated) : Program := fun x =>
  match fs.find? fun f => f.name = x with
  | none => none
  | some f =>
    match f.fn.lower (signatures fs) with
    | .ok (t, g) => some ⟨f.fn.signature.params, t.types, g⟩
    | .error _ => none

/-- A function with conditions `pre` and `post`, table `t` and graph `g` passes verification. -/
structure Accepted (z : Int → Int) (sigs : Signatures) (cs : Contracts) (f : Annotated)
    (pre post : Expr) (t : Table) (g : Graph) : Prop where
  decorator : f.error = none
  conditions : conditions f (signatureOf sigs f).table = .ok (some (pre, post))
  lowered : f.fn.lower sigs = .ok (t, g)
  valid : ∃ vc, functionVc pre post g cs = .ok vc ∧ vc.Valid z
  /-- Names of the source. -/
  names : ∀ x, t.contains x = true → '#' ∉ x.toList
  /-- The precondition is about the parameters. -/
  pre : ∀ v ∈ pre.vars, v.name ≠ resultName
  /-- Where the value returned is arbitrary it is not looked at before. -/
  quiet : g.BareReturn → ¬ g.Reads resultName

/-! ## signatures and contracts of a module -/

section

variable {fs : List Annotated}

theorem isLast_of_nodup (hn : (fs.map (·.name)).Nodup) {f : Annotated} (hf : f ∈ fs) : IsLast fs f := by
  obtain ⟨before, after, rfl⟩ := List.append_of_mem hf
  refine ⟨before, after, rfl, fun g hg hname => ?_⟩
  rw [List.map_append, List.map_cons] at hn
  have hout := (List.nodup_cons.1 (List.nodup_append.1 hn).2.1).1
  exact hout (hname ▸ List.mem_map.2 ⟨g, hg, rfl⟩)

theorem get?_signatures (hn : (fs.map (·.name)).Nodup) {f : Annotated} (hf : f ∈ fs) :
    (signatures fs).get? f.name = some f.fn.signature := (isLast_of_nodup hn hf).get?_signatures

theorem signatureOf_eq (hn : (fs.map (·.name)).Nodup) {f : Annotated} (hf : f ∈ fs) :
    signatureOf (signatures fs) f = f.fn.signature := signatureOf_of_get? (get?_signatures hn hf)

end

/-! ## lowered functions -/

section

variable {z : Int → Int} {fs : List Annotated} {cs : Contracts} {f : Annotated} {pre post : Expr} {t : Table} {g : Graph}

theorem source_of_has (hn : ∀ x, t.contains x = true → '#' ∉ x.toList) {v : Var} (h : t.Has v) : v.Source t.types := by
  refine ⟨hn v.name ?_, h.types⟩
  unfold Table.contains
  rw [show t.lookup v.name = some v.type from h]
  rfl

theorem source_of_in (hn : ∀ x, t.contains x = true → '#' ∉ x.toList) {e : Expr} (h : e.In t) :
    e.Source t.types :=
  fun v hv => source_of_has hn (h v hv)

/-- The blocks of a lowered function over source names. -/
theorem block_wellTyped (hn : ∀ x, t.contains x = true → '#' ∉ x.toList)
    (hres : ∀ x s c, (signatures fs).get? x = some s → cs.get? x = some c → c.result = s.result)
    {k : Block} (h : BlockFits t (signatures fs) k) : k.WellTyped t.types cs := by
  refine ⟨fun op hop => ?_, fun u hu => ?_, fun e he => source_of_in hn (h.invariant e he).1⟩
  · have hf := h.ops op hop
    cases op with
    | assign x e => exact ⟨source_of_has hn hf.1, hf.2.1, source_of_in hn hf.2.2.1, hf.2.2.2⟩
    | call x callee args =>
      refine ⟨fun w hw => ?_, fun e he => source_of_in hn (hf.2.1 e he)⟩
      obtain ⟨hhas, hr, s, hs, hty⟩ := hf.1 w hw
      exact ⟨source_of_has hn hhas, hr, fun c hc => hty.trans (hres callee s c hs hc).symm⟩
  · have hf := h.term u hu
    cases u with
    | goto j => trivial
    | branch e i j => exact source_of_in hn hf.1
    | ret e => exact fun v hv => ⟨source_of_in hn (hf v hv).1, by rw [Table.types_result]; exact (hf v hv).2⟩

/-- An accepted function is proved against its contract. -/
theorem Accepted.proved (h : Accepted z (signatures fs) cs f pre post t g)
    (hn : (fs.map (·.name)).Nodup) (hf : f ∈ fs)
    (hres : ∀ x s c, (signatures fs).get? x = some s → cs.get? x = some c → c.result = s.result) :
    Proved z cs ⟨f.fn.signature.params, t.types, g⟩ (contractFor (signatures fs) f pre post) := by
  have hsig := signatureOf_eq hn hf
  obtain ⟨hparams, hle, hblocks, -⟩ := lower_ok (get?_signatures hn hf) h.lowered
  obtain ⟨p, q, -, -, hp, hq⟩ := conditions_eq_ok.1 h.conditions
  have hpre := (condition_ok hp).1
  have hpost := (condition_ok hq).1
  rw [hsig] at hpre hpost
  refine ⟨?_, ?_, ⟨fun v hv => ?_, fun v hv => ?_⟩, source_of_in h.names (hpre.mono hle), source_of_in h.names (hpost.mono hle),
    ⟨hparams, fun i b _ hb => ?_⟩, h.quiet, h.valid⟩
  · unfold contractFor
    rw [hsig]
  · show (signatureOf (signatures fs) f).result = t.types resultName
    rw [hsig, Table.types_result, hle.result]
    rfl
  · unfold contractFor
    rw [hsig]
    exact (mem_signature_table (hpre v hv)).resolve_left (h.pre v hv)
  · unfold contractFor
    rw [hsig]
    exact mem_signature_table (hpost v hv)
  · exact block_wellTyped h.names hres (hblocks b (Graph.mem_blocks_of_block hb))

end

/-- The functions have different names, `cs` are their contracts, and all of them pass
verification. -/
structure AllAccepted (z : Int → Int) (fs : List Annotated) (cs : Contracts) : Prop where
  names : (fs.map (·.name)).Nodup
  contracts : ∃ events, (contractsOf fs (signatures fs)).exec = (.ok cs, events)
  accepted : ∀ f ∈ fs, ∃ pre post t g, Accepted z (signatures fs) cs f pre post t g

namespace AllAccepted

variable {z : Int → Int} {fs : List Annotated} {cs : Contracts}

/-- The contracts of a module are those of its functions, and no others. -/
theorem contracts_spec (h : AllAccepted z fs cs) : (∀ x, x ∉ fs.map (·.name) → cs.get? x = none) ∧
    ∀ f ∈ fs, ∀ pre post, conditions f (signatureOf (signatures fs) f).table = .ok (some (pre, post)) →
      cs.get? f.name = some (contractFor (signatures fs) f pre post) := by
  obtain ⟨events, hcs⟩ := h.contracts
  refine ⟨fun x hx => ?_, fun f hf pre post hcond => ?_⟩
  · rw [Option.eq_none_iff_forall_ne_some]
    intro c hc
    obtain ⟨f, hf, hname, -⟩ := exists_of_get?_contracts hcs hc
    exact hx (List.mem_map.2 ⟨f, hf, hname⟩)
  · obtain ⟨pre', post', t, g, ha⟩ := h.accepted f hf
    exact (isLast_of_nodup h.names hf).get?_contracts hcs (offers_iff.2 ⟨ha.decorator, hcond, rfl⟩)

theorem exists_of_get? (h : AllAccepted z fs cs) {x : String} {c : Contract}
    (hc : cs.get? x = some c) :
    ∃ f ∈ fs, f.name = x ∧ ∃ pre post t g,
      Accepted z (signatures fs) cs f pre post t g ∧ c = contractFor (signatures fs) f pre post := by
  obtain ⟨hother, hmem⟩ := h.contracts_spec
  by_cases hx : x ∈ fs.map (·.name)
  · obtain ⟨f, hf, rfl⟩ := List.mem_map.1 hx
    obtain ⟨pre, post, t, g, ha⟩ := h.accepted f hf
    rw [hmem f hf pre post ha.conditions] at hc
    cases hc
    exact ⟨f, hf, rfl, pre, post, t, g, ha, rfl⟩
  · rw [hother x hx] at hc
    cases hc

/-- Contracts and signatures tell the same type of a result. -/
theorem result_eq (h : AllAccepted z fs cs) (x : String) (s : Signature) (c : Contract)
    (hs : (signatures fs).get? x = some s) (hc : cs.get? x = some c) : c.result = s.result := by
  obtain ⟨f, hf, rfl, pre, post, t, g, ha, rfl⟩ := h.exists_of_get? hc
  rw [get?_signatures h.names hf] at hs
  cases hs
  unfold contractFor
  rw [signatureOf_eq h.names hf]

theorem contract_scoped (h : AllAccepted z fs cs) (x : String) (c : Contract) (hc : cs.get? x = some c) : c.Scoped := by
  obtain ⟨f, hf, rfl, pre, post, t, g, ha, rfl⟩ := h.exists_of_get? hc
  exact (ha.proved h.names hf h.result_eq).scope

theorem proved (h : AllAccepted z fs cs) (x : String) (d : Decl)
    (hd : moduleProgram fs x = some d) :
    ∃ c, cs.get? x = some c ∧ Proved z cs d c := by
  unfold moduleProgram at hd
  split at hd
  · cases hd
  · rename_i f hfind
    have hf := List.mem_of_find?_eq_some hfind
    have hname : f.name = x := by simpa using List.find?_some hfind
    obtain ⟨pre, post, t, g, ha⟩ := h.accepted f hf
    rw [ha.lowered] at hd
    cases hd
    exact ⟨_, hname ▸ h.contracts_spec.2 f hf pre post ha.conditions, ha.proved h.names hf h.result_eq⟩

end AllAccepted

/-- In a module of functions with different names that all pass verification, every call at any
depth of a terminating run that starts with a precondition is made with arguments that satisfy the
precondition of the callee, and the value returned satisfies the postcondition over the values of
the parameters on entry. -/
theorem module_sound {z : Int → Int} {fs : List Annotated} {cs : Contracts} {events : List Event}
    (hn : (fs.map (·.name)).Nodup) (hcs : (contractsOf fs (signatures fs)).exec = (.ok cs, events))
    (h : ∀ f ∈ fs, ∃ pre post t g, Accepted z (signatures fs) cs f pre post t g) {f : Annotated}
    (hf : f ∈ fs) :
    ∃ c, cs.get? f.name = some c ∧ ∀ vals calls v, c.Pre z vals →
      Returns z (moduleProgram fs) f.name vals calls v →
      Admitted z cs calls ∧ c.Post z vals v := by
  have hall : AllAccepted z fs cs := ⟨hn, ⟨events, hcs⟩, h⟩
  obtain ⟨pre, post, t, g, ha⟩ := h f hf
  have hc := hall.contracts_spec.2 f hf pre post ha.conditions
  exact ⟨_, hc, fun vals calls v hpre hrun => hrun.sound hall.contract_scoped hall.proved hc hpre⟩

/-! ## a recursive function -/

/-- The contract of a function on its own. -/
theorem contractsOf_self {f : Annotated} {pre post : Expr} (he : f.error = none)
    (h : conditions f f.fn.signature.table = .ok (some (pre, post))) :
    (contractsOf [f] (signatures [f])).exec = (.ok ⟨[(f.name, contractFor (signatures [f]) f pre post)]⟩, []) := by
  have hs : signatureOf (signatures [f]) f = f.fn.signature :=
    signatureOf_eq (by simp) (List.mem_singleton.2 rfl)
  unfold contractsOf contractsFrom contractFor
  simp only [he, hs, h]
  rfl

theorem moduleProgram_self {f : Annotated} {t : Table} {g : Graph}
    (h : f.fn.lower (signatures [f]) = .ok (t, g)) :
    moduleProgram [f] f.name = some ⟨f.fn.signature.params, t.types, g⟩ := by
  unfold moduleProgram
  simp [h]

/-- `n` itself, by counting down and up again; the parameter is assigned twice. -/
def down : Annotated where
  fn :=
    { span := ⟨1, 5⟩, name := "down", params := [.mk ⟨1, 1⟩ "n" none], more := [], decorators := [], result := none
      body :=
        [.cond ⟨2, 2⟩ (.compare ⟨2, 2⟩ (.name ⟨2, 2⟩ "n") [.eq] [.constant ⟨2, 2⟩ (.int 0)])
           [.ret ⟨2, 2⟩ (some (.constant ⟨2, 2⟩ (.int 0)))] [],
         .augment ⟨3, 3⟩ (.name ⟨3, 3⟩ "n") .sub (.constant ⟨3, 3⟩ (.int 1)),
         .assign ⟨4, 4⟩ [.name ⟨4, 4⟩ "n"] (.call ⟨4, 4⟩ (.name ⟨4, 4⟩ "down") [.name ⟨4, 4⟩ "n"] []),
         .ret ⟨5, 5⟩ (some (.binary ⟨5, 5⟩ (.name ⟨5, 5⟩ "n") .add (.constant ⟨5, 5⟩ (.int 1))))] }
  pre := some "n >= 0"
  post := some "ret == n"

namespace Down

def param : Var := ⟨"n", .int⟩

def pre : Expr := .bin .ge (.var param) (.num 0)

def post : Expr := .bin .eq (.var ⟨resultName, .int⟩) (.var param)

def table : Table := { args := ⟨[("n", .int)]⟩, result := .int }

def isZero : Expr := .bin .eq (.var param) (.num 0)

def graph : Graph :=
  ⟨[{ term := some (.branch isZero 1 3), line := some 1 },
    { term := some (.ret (some (.num 0))), line := some 2 },
    { term := some (.goto 3), line := some 2 },
    { ops := [.assign param (.bin .sub (.var param) (.num 1)), .call (some param) "down" [.var param]],
      term := some (.ret (some (.bin .add (.var param) (.num 1)))), line := some 2 },
    { term := some (.ret none), line := some 5 }], 0⟩

def contracts : Contracts := ⟨[("down", ⟨"down", [param], .int, pre, post⟩)]⟩

/-- The value that comes back from the call. -/
def back : Expr := .var ⟨"n#1", .int⟩

def vc : Expr :=
  .implies pre (.bin .and (.implies isZero (.bin .eq (.num 0) (.var param)))
    (.implies isZero.negate (.bin .and (.bin .ge (.bin .sub (.var param) (.num 1)) (.num 0))
      (.implies (.bin .eq back (.bin .sub (.var param) (.num 1))) (.bin .eq (.bin .add back (.num 1)) (.var param))))))

theorem conditions_eq : conditions down down.fn.signature.table = .ok (some (pre, post)) := by
  have hpre : Token.scan 0 ['n', ' ', '>', '=', ' ', '0'] =
      .ok [⟨.identifier, "n", 0, 1⟩, ⟨.symbol, ">=", 2, 4⟩, ⟨.integer, "0", 5, 6⟩] :=
    Token.scan_cons rfl (Token.scan_cons rfl (Token.scan_cons rfl (Token.scan_cons rfl (Token.scan_cons rfl
      (Token.scan_nil _) rfl) rfl) rfl) rfl) rfl
  have hpost : Token.scan 0 ['r', 'e', 't', ' ', '=', '=', ' ', 'n'] =
      .ok [⟨.identifier, "ret", 0, 3⟩, ⟨.symbol, "==", 4, 6⟩, ⟨.identifier, "n", 7, 8⟩] :=
    Token.scan_cons rfl (Token.scan_cons rfl (Token.scan_cons rfl (Token.scan_cons rfl (Token.scan_cons rfl
      (Token.scan_nil _) rfl) rfl) rfl) rfl) rfl
  have h₁ : condition "n >= 0" down.fn.signature.table = .ok pre := by
    unfold condition parse
    rw [show "n >= 0".toList = ['n', ' ', '>', '=', ' ', '0'] by decide, hpre]
    rfl
  have h₂ : condition "ret == n" down.fn.signature.table = .ok post := by
    unfold condition parse
    rw [show "ret == n".toList = ['r', 'e', 't', ' ', '=', '=', ' ', 'n'] by decide, hpost]
    rfl
  exact conditions_of_texts rfl rfl h₁ h₂

theorem contracts_eq : (contractsOf [down] (signatures [down])).exec = (.ok contracts, []) :=
  contractsOf_self rfl conditions_eq

theorem lower_eq : down.fn.lower (signatures [down]) = .ok (table, graph) := by decide +kernel

theorem vc_valid (z : Int → Int) : vc.Valid z := by
  intro a ha
  have hint : ∀ v, v.type = .int → ∃ n, a v = .int n :=
    fun v hv => ⟨_, Value.eq_int_of_type (hv ▸ (ha v).type_eq (by simp [hv]))⟩
  obtain ⟨n, hn⟩ := hint param rfl
  obtain ⟨m, hm⟩ := hint ⟨"n#1", .int⟩ rfl
  simp only [vc, pre, isZero, back, Expr.holds_implies, Expr.holds_and, Expr.holds_negate]
  simp [Expr.Holds, Expr.eval, Expr.num, Meaning.standard, Value.toBool, Value.toInt, hn, hm]
  intro h
  have h := of_decide_eq_true h
  omega

theorem accepted (z : Int → Int) : Accepted z (signatures [down]) contracts down pre post table graph where
  decorator := rfl
  conditions := conditions_eq
  lowered := lower_eq
  valid := ⟨vc, by decide +kernel, vc_valid z⟩
  names := by
    intro x hx
    have hx : x = resultName ∨ x = "n" := by
      by_contra hne
      simp only [not_or] at hne
      simp [Table.contains, Table.lookup, table, Keyed.get?_cons, Keyed.get?_nil, Keyed.get?_empty,
        hne, Ne.symm hne.2] at hx
    rcases hx with rfl | rfl <;> decide
  pre := by decide
  quiet := by
    rintro - ⟨i, b, e, v, -, hb, he, hv, hname⟩
    have h : ∀ b ∈ graph.blocks, ∀ e ∈ b.exprs, ∀ v ∈ e.vars, v.name ≠ resultName := by decide
    exact h b (Graph.mem_blocks_of_block hb) e he v hv hname

/-- A call with argument `k` may start with `k` everywhere. -/
theorem starts (k : Int) : Decl.Starts ⟨[param], table.types, graph⟩ [.int k] (fun _ => .int k) where
  length := rfl
  typed := Table.typed_of_all (u := .int) rfl (by decide) fun _ => rfl
  params := by
    intro p hp
    rw [List.mem_singleton.1 hp]
    rfl

theorem program_eq : moduleProgram [down] "down" = some ⟨[param], table.types, graph⟩ :=
  moduleProgram_self lower_eq

/-- The run on 1, with the call on 0 inside it. -/
theorem returns_one : Returns id (moduleProgram [down]) "down" [.int 1] [("down", [.int 0])] (.int 1) := by
  have hzero : Exec id (moduleProgram [down]) ⟨[param], table.types, graph⟩ [] (some (.branch isZero 1 3)) (fun _ => .int 0)
      [] (.int 0) := .jump (j := 1) rfl rfl .ret
  have hone : Exec id (moduleProgram [down]) ⟨[param], table.types, graph⟩ [.call (some param) "down" [.var param]]
      (some (.ret (some (.bin .add (.var param) (.num 1))))) (Store.set (fun _ => .int 1) "n" (.int 0))
      (("down", [.int 0]) :: [] ++ []) (.int 1) := .call program_eq (starts 0) rfl hzero .ret
  exact ⟨_, _, _, program_eq, starts 1, rfl, .jump (j := 3) rfl rfl (.assign hone)⟩

end Down

/-- `down` keeps its contract on all arguments, and a run with a call inside it is among those
meant. -/
theorem down_sound :
    [down.name].Nodup ∧ (contractsOf [down] (signatures [down])).exec = (.ok Down.contracts, []) ∧
      Accepted id (signatures [down]) Down.contracts down Down.pre Down.post Down.table Down.graph ∧
      Returns id (moduleProgram [down]) "down" [.int 1] [("down", [.int 0])] (.int 1) ∧
      ∃ c, Down.contracts.get? "down" = some c ∧ ∀ vals calls v, c.Pre id vals →
        Returns id (moduleProgram [down]) "down" vals calls v → Admitted id Down.contracts calls ∧ c.Post id vals v := by
  have hn : ([down].map (·.name)).Nodup := by simp
  refine ⟨hn, Down.contracts_eq, Down.accepted id, Down.returns_one, ?_⟩
  refine module_sound hn Down.contracts_eq (fun f hf => ?_) (List.mem_singleton.2 rfl)
  rw [List.mem_singleton.1 hf]
  exact ⟨_, _, _, _, Down.accepted id⟩

/-! ## a guess at the result

Where a return gives no value, the verification condition takes the name of the result for the value
returned.  A body that looks at this name first can make the condition valid, and return any value
all the same.-/

/-- Returns 5, or nothing if the result is known to be 5. -/
def guess : Annotated where
  fn :=
    { span := ⟨1, 3⟩, name := "guess", params := [], more := [], decorators := [], result := none
      body :=
        [.cond ⟨2, 2⟩ (.compare ⟨2, 2⟩ (.name ⟨2, 2⟩ "ret") [.eq] [.constant ⟨2, 2⟩ (.int 5)]) [.ret ⟨2, 2⟩ none] [],
         .ret ⟨3, 3⟩ (some (.constant ⟨3, 3⟩ (.int 5)))] }
  pre := some "true"
  post := some "ret == 5"

namespace Guess

def isFive : Expr := .bin .eq (.var ⟨resultName, .int⟩) (.num 5)

def table : Table := { result := .int }

def graph : Graph :=
  ⟨[{ term := some (.branch isFive 1 3), line := some 1 }, { term := some (.ret none), line := some 2 },
    { term := some (.goto 3), line := some 2 }, { term := some (.ret (some (.num 5))), line := some 2 },
    { term := some (.ret none), line := some 3 }], 0⟩

def contract : Contract := ⟨"guess", [], .int, .truth, isFive⟩

def vc : Expr :=
  .implies .truth (.bin .and (.implies isFive isFive) (.implies isFive.negate (.bin .eq (.num 5) (.num 5))))

theorem conditions_eq : conditions guess guess.fn.signature.table = .ok (some (.truth, isFive)) := by
  have hpre : Token.scan 0 ['t', 'r', 'u', 'e'] = .ok [⟨.boolean, "true", 0, 4⟩] :=
    Token.scan_cons rfl (Token.scan_nil _) rfl
  have hpost : Token.scan 0 ['r', 'e', 't', ' ', '=', '=', ' ', '5'] =
      .ok [⟨.identifier, "ret", 0, 3⟩, ⟨.symbol, "==", 4, 6⟩, ⟨.integer, "5", 7, 8⟩] :=
    Token.scan_cons rfl (Token.scan_cons rfl (Token.scan_cons rfl (Token.scan_cons rfl (Token.scan_cons rfl
      (Token.scan_nil _) rfl) rfl) rfl) rfl) rfl
  have h₁ : condition "true" guess.fn.signature.table = .ok .truth := by
    unfold condition parse
    rw [show "true".toList = ['t', 'r', 'u', 'e'] by decide, hpre]
    rfl
  have h₂ : condition "ret == 5" guess.fn.signature.table = .ok isFive := by
    unfold condition parse
    rw [show "ret == 5".toList = ['r', 'e', 't', ' ', '=', '=', ' ', '5'] by decide, hpost]
    rfl
  exact conditions_of_texts rfl rfl h₁ h₂

theorem contracts_eq : (contractsOf [guess] (signatures [guess])).exec =
      (.ok ⟨[("guess", contract)]⟩, []) :=
  contractsOf_self rfl conditions_eq

theorem lower_eq : guess.fn.lower (signatures [guess]) = .ok (table, graph) := by decide +kernel

theorem vc_valid (z : Int → Int) : vc.Valid z := by
  intro a _
  simp only [vc, Expr.holds_implies, Expr.holds_and, Expr.holds_negate]
  exact fun _ => ⟨id, fun _ => rfl⟩

theorem starts : Decl.Starts ⟨[], table.types, graph⟩ [] (fun _ => .int 5) where
  length := rfl
  typed := Table.typed_of_all (u := .int) rfl (by decide) fun _ => rfl
  params := nofun

end Guess

/-- All verification conditions are valid, and yet the value returned fails the postcondition. -/
theorem guess_unsound :
    (contractsOf [guess] (signatures [guess])).exec = (.ok ⟨[("guess", Guess.contract)]⟩, []) ∧
      guess.fn.lower (signatures [guess]) = .ok (Guess.table, Guess.graph) ∧
      (∃ vc, functionVc .truth Guess.isFive Guess.graph ⟨[("guess", Guess.contract)]⟩ = .ok vc ∧ vc.Valid id) ∧
      Guess.contract.Pre id [] ∧ Returns id (moduleProgram [guess]) "guess" [] [] (.int 6) ∧
      ¬ Guess.contract.Post id [] (.int 6) := by
  refine ⟨Guess.contracts_eq, Guess.lower_eq, ⟨Guess.vc, by decide +kernel, Guess.vc_valid id⟩, rfl, ?_, ?_⟩
  · exact ⟨_, _, _, moduleProgram_self Guess.lower_eq, Guess.starts, rfl, .jump (j := 1) rfl rfl (.bare (.inr rfl))⟩
  · unfold Contract.Post
    decide

end ContractVerifier
