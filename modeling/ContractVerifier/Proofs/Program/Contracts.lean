import ContractVerifier.Proofs.Expr.Recognition
import ContractVerifier.Proofs.Lower.Complete
import ContractVerifier.Verifier

/-!
# Contracts of a module

A module may define a function more than once.  Signatures are those of the last definitions, and a
definition gives a contract if its conditions are well formed under the signature that goes with its
name.

* `IsLast` : the last definition of a name;
* `Offers` : what a definition promises under a signature;
* `contracts_eq_ofList` : the contract of a name is that of the last definition that gives one;
* `lower_ok` : what is known of a definition that is lowered.
-/

namespace ContractVerifier

open ContractVerifier.Flow Source

/-! ## conditions -/

theorem condition_eq_ok {text : String} {t : Table} {e : Expr} :
    condition text t = .ok e ↔ ∃ e₀, parse text = .ok e₀ ∧ e₀.resolve t = .ok e ∧ e.typeOf = .ok .bool := by
  constructor
  · intro h
    obtain ⟨e₀, hp, h⟩ := exists_of_bind_ok h
    obtain ⟨e₁, hr, h⟩ := exists_of_bind_ok h
    rw [untyped, mapError_eq_ok] at hr h
    obtain ⟨rfl, hty⟩ := Expr.asCondition_ok h
    exact ⟨e₀, hp, hr, hty⟩
  · rintro ⟨e₀, hp, hr, hty⟩
    unfold condition
    simp [hp, hr, Expr.asCondition, hty, untyped, Except.mapError, bind, Except.bind]

theorem condition_ok {text : String} {t : Table} {e : Expr} (h : condition text t = .ok e) :
    e.In t ∧ e.typeOf = .ok .bool := by
  obtain ⟨e₀, -, hr, hty⟩ := condition_eq_ok.1 h
  exact ⟨Expr.in_of_resolve hr, hty⟩

/-- Only an integer that is too long is a fault of a condition. -/
theorem condition_ne_fault {text : String} {t : Table}
    (hx : ∀ ts, tokenize text = .ok ts → Parser.Short ts) (x : Fault) :
    condition text t ≠ .error (.fault x) := by
  intro h
  unfold condition at h
  cases hp : parse text with
  | error f =>
    simp only [hp, bind, Except.bind] at h
    cases h
    exact parse_ne_fault hx x hp
  | ok e =>
    cases hr : e.resolve t with
    | error c => simp [hp, hr, bind, Except.bind, untyped, Except.mapError] at h
    | ok e =>
      cases hc : e.asCondition <;> simp [hp, hr, hc, bind, Except.bind, untyped, Except.mapError] at h

theorem conditions_eq_ok {f : Annotated} {t : Table} {pre post : Expr} :
    conditions f t = .ok (some (pre, post)) ↔
      ∃ p q, f.pre = some p ∧ f.post = some q ∧ condition p t = .ok pre ∧ condition q t = .ok post := by
  unfold conditions
  split
  · rename_i p q hp hq
    constructor
    · intro h
      obtain ⟨a, ha, h⟩ := exists_of_bind_ok h
      obtain ⟨b, hb, h⟩ := exists_of_bind_ok h
      cases h
      exact ⟨p, q, hp, hq, ha, hb⟩
    · rintro ⟨p', q', hp', hq', ha, hb⟩
      cases hp.symm.trans hp'
      cases hq.symm.trans hq'
      simp only [ha, hb]
      rfl
  · rename_i hne
    simp only [Except.ok.injEq, reduceCtorEq, false_iff]
    rintro ⟨p, q, hp, hq, -⟩
    exact hne p q hp hq

theorem conditions_of_texts {f : Annotated} {t : Table} {p q : String} {a b : Expr}
    (hp : f.pre = some p) (hq : f.post = some q) (ha : condition p t = .ok a)
    (hb : condition q t = .ok b) :
    conditions f t = .ok (some (a, b)) := conditions_eq_ok.2 ⟨p, q, hp, hq, ha, hb⟩

theorem conditions_ne_fault {f : Annotated} {t : Table}
    (hx : ∀ text, f.pre = some text ∨ f.post = some text → ∀ ts, tokenize text = .ok ts → Parser.Short ts) (x : Fault) :
    conditions f t ≠ .error (.fault x) := by
  unfold conditions
  split
  · rename_i p q hp hq
    have hfault := condition_ne_fault (t := t) (hx q (.inr hq)) x
    cases ha : condition p t with
    | error e =>
      intro h
      cases h
      exact condition_ne_fault (hx p (.inl hp)) x ha
    | ok a =>
      cases hb : condition q t with
      | error e =>
        intro h
        cases h
        exact hfault hb
      | ok b => nofun
  · nofun

/-! ## signatures -/

/-- No definition behind this one has its name. -/
def IsLast (fs : List Annotated) (f : Annotated) : Prop :=
  ∃ before after, fs = before ++ f :: after ∧ ∀ g ∈ after, g.name ≠ f.name

section

variable {fs : List Annotated} {sigs : Signatures} {f : Annotated}

theorem exists_isLast (hf : f ∈ fs) : ∃ g, IsLast fs g ∧ g.name = f.name := by
  induction fs using List.reverseRecOn with
  | nil => cases hf
  | append_singleton fs g ih =>
    by_cases hg : g.name = f.name
    · exact ⟨g, ⟨fs, [], rfl, by simp⟩, hg⟩
    · have hf : f ∈ fs := by
        rcases List.mem_append.1 hf with hf | hf
        · exact hf
        · exact absurd (congrArg Annotated.name (List.mem_singleton.1 hf).symm) hg
      obtain ⟨g', ⟨before, after, rfl, hafter⟩, hname⟩ := ih hf
      refine ⟨g', ⟨before, after ++ [g], by simp, fun k hk => ?_⟩, hname⟩
      rcases List.mem_append.1 hk with hk | hk
      · exact hafter k hk
      · rw [List.mem_singleton.1 hk, hname]
        exact hg

/-- Signatures are those of the last definitions. -/
theorem IsLast.get?_signatures (h : IsLast fs f) : (signatures fs).get? f.name = some f.fn.signature := by
  obtain ⟨before, after, rfl, hafter⟩ := h
  unfold signatures
  rw [List.map_append, List.map_cons]
  refine Keyed.get?_ofList_append_cons _ fun hin => ?_
  simp only [List.map_map, List.mem_map, Function.comp_apply] at hin
  obtain ⟨g, hg, hname⟩ := hin
  exact hafter g hg hname

theorem signatureOf_of_get? {s : Signature} (h : sigs.get? f.name = some s) : signatureOf sigs f = s := by
  unfold signatureOf
  rw [h]
  rfl

/-- Every definition has the signature of the last one of its name. -/
theorem exists_get?_signatures (hf : f ∈ fs) : ∃ g, IsLast fs g ∧ g.name = f.name ∧
    (signatures fs).get? f.name = some g.fn.signature := by
  obtain ⟨g, hg, hname⟩ := exists_isLast hf
  exact ⟨g, hg, hname, hname ▸ hg.get?_signatures⟩

/-- The types of the parameters; of two parameters with one name the later one counts. -/
def paramTypes (ps : List Var) : Keyed String Ty := .ofList (ps.map fun p => (p.name, p.type))

theorem lookup_signature_table (s : Signature) (x : String) :
    s.table.lookup x = if x = resultName then some s.result else (paramTypes s.params).get? x := by
  unfold Table.lookup Signature.table paramTypes
  simp

/-- A name of the table of a signature is the result or a parameter. -/
theorem mem_signature_table {s : Signature} {x : String} {u : Ty} (h : s.table.lookup x = some u) :
    x = resultName ∨ x ∈ s.params.map (·.name) := by
  rw [lookup_signature_table] at h
  split at h
  · exact .inl ‹_›
  · obtain ⟨p, hp, he⟩ := List.mem_map.1 (Keyed.mem_of_get?_ofList h)
    exact .inr (List.mem_map.2 ⟨p, hp, congrArg Prod.fst he⟩)

/-! ## contracts -/

/-- Under the signature `s` the definition has well formed conditions, and `c` is its contract. -/
structure Offers (s : Signature) (f : Annotated) (c : Contract) : Prop where
  decorator : f.error = none
  pre : ∃ text, f.pre = some text ∧ condition text s.table = .ok c.pre
  post : ∃ text, f.post = some text ∧ condition text s.table = .ok c.post
  name : c.name = f.name
  params : c.params = s.params
  result : c.result = s.result

/-- The contract of a function with the given conditions. -/
def contractFor (sigs : Signatures) (f : Annotated) (pre post : Expr) : Contract :=
  ⟨f.name, (signatureOf sigs f).params, (signatureOf sigs f).result, pre, post⟩

/-- The contract that a definition gives. -/
def contract? (sigs : Signatures) (f : Annotated) : Option Contract :=
  if f.error.isSome then none
  else
    match conditions f (signatureOf sigs f).table with
    | .ok (some (pre, post)) => some (contractFor sigs f pre post)
    | _ => none

theorem offers_iff {s : Signature} {c : Contract} : Offers s f c ↔
    f.error = none ∧ conditions f s.table = .ok (some (c.pre, c.post)) ∧ c = ⟨f.name, s.params, s.result, c.pre, c.post⟩ := by
  constructor
  · rintro ⟨herr, ⟨p, hp, hpre⟩, ⟨q, hq, hpost⟩, hname, hparams, hresult⟩
    refine ⟨herr, conditions_of_texts hp hq hpre hpost, ?_⟩
    rw [← hname, ← hparams, ← hresult]
  · rintro ⟨herr, hcond, hc⟩
    obtain ⟨p, q, hp, hq, hpre, hpost⟩ := conditions_eq_ok.1 hcond
    exact ⟨herr, ⟨p, hp, hpre⟩, ⟨q, hq, hpost⟩, congrArg Contract.name hc, congrArg Contract.params hc,
      congrArg Contract.result hc⟩

theorem contract?_eq_some {c : Contract} : contract? sigs f = some c ↔ Offers (signatureOf sigs f) f c := by
  rw [offers_iff]
  unfold contract? contractFor
  cases herr : f.error with
  | some e => simp
  | none =>
    simp only [Option.isSome_none, Bool.false_eq_true, if_false, true_and]
    split
    · rename_i pre post hcond
      rw [hcond]
      constructor
      · intro h
        cases h
        exact ⟨rfl, rfl⟩
      · rintro ⟨h, hc⟩
        cases h
        exact congrArg some hc.symm
    · rename_i hne
      simp only [reduceCtorEq, false_iff]
      exact fun h => hne _ _ h.1

/-- The contracts given, in the order of the definitions. -/
def contractEntries (sigs : Signatures) (fs : List Annotated) : List (String × Contract) :=
  fs.filterMap fun f => (contract? sigs f).map fun c => (f.name, c)

/-- A contract takes the place of an earlier one of the same name, and only a fault of a condition
ends the run. -/
theorem contractsFrom_run (cs : Contracts) (es : List Event) :
    (∀ cs' es', StateT.run (ExceptT.run (contractsFrom sigs fs cs)) es = (.ok cs', es') →
      cs' = (contractEntries sigs fs).foldl (fun m e => m.put e.1 e.2) cs) ∧
    ((∀ f ∈ fs, ∀ x, conditions f (signatureOf sigs f).table ≠ .error (.fault x)) →
      ∃ cs' es', StateT.run (ExceptT.run (contractsFrom sigs fs cs)) es = (.ok cs', es')) := by
  induction fs generalizing cs es with
  | nil =>
    refine ⟨fun cs' es' h => ?_, fun _ => ⟨cs, es, rfl⟩⟩
    cases h
    rfl
  | cons f fs ih =>
    unfold contractsFrom contractEntries
    rw [List.filterMap_cons]
    unfold contract?
    cases herr : f.error with
    | some e =>
      simp only [Option.isSome_some, if_true, Option.map_none]
      exact ⟨(ih cs es).1, fun h => (ih cs es).2 fun g hg => h g (List.mem_cons_of_mem _ hg)⟩
    | none =>
      simp only [Option.isSome_none, Bool.false_eq_true, if_false]
      cases hcond : conditions f (signatureOf sigs f).table with
      | error e =>
        cases e with
        | fault x => exact ⟨nofun, fun h => absurd hcond (h f (List.mem_cons_self ..) x)⟩
        | error e =>
          have ih := ih cs (.noContract f.name e :: es)
          exact ⟨ih.1, fun h => ih.2 fun g hg => h g (List.mem_cons_of_mem _ hg)⟩
      | ok r =>
        cases r with
        | none => exact ⟨(ih cs es).1, fun h => (ih cs es).2 fun g hg => h g (List.mem_cons_of_mem _ hg)⟩
        | some p =>
          obtain ⟨pre, post⟩ := p
          have ih := ih (cs.put f.name (contractFor sigs f pre post)) es
          exact ⟨ih.1, fun h => ih.2 fun g hg => h g (List.mem_cons_of_mem _ hg)⟩

variable {cs : Contracts} {events : List Event} {c : Contract} {x : String}

theorem contracts_eq_ofList (h : (contractsOf fs sigs).exec = (.ok cs, events)) :
    cs = .ofList (contractEntries sigs fs) := by
  have hrun : (StateT.run (ExceptT.run (contractsFrom sigs fs .empty)) []).1 = .ok cs :=
    congrArg Prod.fst h
  exact (contractsFrom_run .empty []).1 cs _ (Prod.ext hrun rfl)

theorem exists_contracts (h : ∀ f ∈ fs, ∀ x, conditions f (signatureOf sigs f).table ≠ .error (.fault x)) :
    ∃ cs events, (contractsOf fs sigs).exec = (.ok cs, events) := by
  obtain ⟨cs, es, hrun⟩ := (contractsFrom_run .empty []).2 h
  refine ⟨cs, es.reverse, ?_⟩
  unfold Run.exec contractsOf
  rw [hrun]
  rfl

theorem mem_contractEntries : (x, c) ∈ contractEntries sigs fs ↔ ∃ f ∈ fs, f.name = x ∧ contract? sigs f = some c := by
  unfold contractEntries
  rw [List.mem_filterMap]
  refine exists_congr fun f => and_congr_right fun _ => ?_
  rw [Option.map_eq_some_iff]
  constructor
  · rintro ⟨c', hc', h⟩
    cases h
    exact ⟨rfl, hc'⟩
  · rintro ⟨rfl, hc⟩
    exact ⟨c, hc, rfl⟩

/-- A contract is given by a definition of its name. -/
theorem exists_of_get?_contracts (h : (contractsOf fs sigs).exec = (.ok cs, events))
    (hc : cs.get? x = some c) :
    ∃ f ∈ fs, f.name = x ∧ Offers (signatureOf sigs f) f c := by
  rw [contracts_eq_ofList h] at hc
  obtain ⟨f, hf, hname, hgives⟩ := mem_contractEntries.1 (Keyed.mem_of_get?_ofList hc)
  exact ⟨f, hf, hname, contract?_eq_some.1 hgives⟩

/-- A name has a contract if one of its definitions gives one. -/
theorem exists_get?_contracts (h : (contractsOf fs sigs).exec = (.ok cs, events)) (hf : f ∈ fs)
    (hc : Offers (signatureOf sigs f) f c) : ∃ c', cs.get? f.name = some c' := by
  rw [contracts_eq_ofList h]
  have hmem : (f.name, c) ∈ contractEntries sigs fs :=
    mem_contractEntries.2 ⟨f, hf, rfl, contract?_eq_some.2 hc⟩
  exact Keyed.exists_get?_ofList (List.mem_map.2 ⟨_, hmem, rfl⟩)

/-- The last definition decides, if it gives a contract. -/
theorem IsLast.get?_contracts (hl : IsLast fs f) (h : (contractsOf fs sigs).exec = (.ok cs, events))
    (hc : Offers (signatureOf sigs f) f c) : cs.get? f.name = some c := by
  obtain ⟨before, after, rfl, hafter⟩ := hl
  have hsplit : contractEntries sigs (before ++ f :: after) =
      contractEntries sigs before ++ (f.name, c) :: contractEntries sigs after := by
    unfold contractEntries
    rw [List.filterMap_append, List.filterMap_cons, contract?_eq_some.2 hc]
    rfl
  rw [contracts_eq_ofList h, hsplit]
  refine Keyed.get?_ofList_append_cons _ fun hin => ?_
  obtain ⟨⟨y, c'⟩, hmem, rfl⟩ := List.mem_map.1 hin
  obtain ⟨g, hg, hname, -⟩ := mem_contractEntries.1 hmem
  exact hafter g hg hname

/-- Contracts and signatures of a module have the same parameters and results. -/
theorem contract_signature (h : (contractsOf fs sigs).exec = (.ok cs, events))
    (hc : cs.get? x = some c) {s : Signature} (hs : sigs.get? x = some s) :
    c.params = s.params ∧ c.result = s.result ∧
      (c.pre.In s.table ∧ c.pre.typeOf = .ok .bool) ∧ c.post.In s.table ∧ c.post.typeOf = .ok .bool := by
  obtain ⟨f, -, rfl, hoffers⟩ := exists_of_get?_contracts h hc
  rw [signatureOf_of_get? hs] at hoffers
  obtain ⟨-, ⟨p, -, hpre⟩, ⟨q, -, hpost⟩, -, hparams, hresult⟩ := hoffers
  exact ⟨hparams, hresult, condition_ok hpre, condition_ok hpost⟩

end

/-! ## lowered functions -/

/-- What is lowered is complete and typed by its table, which goes on from that of the signature. -/
theorem lower_ok {f : Function} {sigs : Signatures} {s : Signature} {t : Table} {g : Graph}
    (hs : sigs.get? f.name = some s) (h : f.lower sigs = .ok (t, g)) :
    (∀ p ∈ s.params, p.name ≠ resultName) ∧ s.table.Le t ∧ (∀ k ∈ g.blocks, BlockFits t sigs k) ∧ g.Valid ∧
      ∀ k ∈ g.blocks, ∃ u, k.term = some u := by
  obtain ⟨⟨f', s'⟩, hnorm, h⟩ := exists_of_bind_ok h
  obtain ⟨-, -, hnorm⟩ := exists_of_bind_ok hnorm
  simp only [hs] at hnorm
  obtain ⟨⟨⟩, hparams, hnorm⟩ := exists_of_bind_ok hnorm
  obtain ⟨f'', -, hnorm⟩ := exists_of_bind_ok hnorm
  cases hnorm
  obtain ⟨hle, hfits⟩ := fits_buildGraph h
  refine ⟨fun p hp hr => ?_, hle, hfits, complete_buildGraph h⟩
  have hany : (s.params.any fun p => p.name == resultName) = true :=
    List.any_eq_true.2 ⟨p, hp, by simp [hr]⟩
  unfold Function.checkParams at hparams
  rw [if_pos hany] at hparams
  cases hparams

end ContractVerifier
