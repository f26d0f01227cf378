import ContractVerifier.Proofs.Expr.Recognition
import ContractVerifier.Proofs.Lower.Build
import ContractVerifier.Proofs.Source.Normal

/-!
# How lowering fails

A body in normal form is lowered, or there is something wrong with it that the verifier reports:
with its types, with the text of an invariant, with a callee, or with a name that is reserved.

* `IsRefusal` : these failures;
* `Build.Steps` : a computation keeps track of the loops around and fails in no other way;
* `isRefusal_of_buildGraph` : so does the lowering of a body in normal form.
-/

namespace ContractVerifier.Source

open ContractVerifier.Flow

/-- A type error, a malformed invariant, a callee that is not there or the reserved name. -/
def IsRefusal : Failure → Prop
  | .error (.type _ _) | .error (.parse _) => True
  | .error (.unsupported c _) => c.kind = .unknownCall ∨ c = .reservedName
  | _ => False

theorem isRefusal_type {c : TypeCause} {line : Option Int} : IsRefusal (.error (.type c line)) :=
  trivial

theorem isRefusal_reservedName {line : Option Int} : IsRefusal (.error (.unsupported .reservedName line)) := .inr rfl

theorem isRefusal_unknownCall {c : UnsupportedCause} {line : Option Int}
    (h : c.kind = .unknownCall) :
    IsRefusal (.error (.unsupported c line)) := .inl h

namespace Build

variable {α β : Type} {ls ls₁ ls' : List (Nat × Nat)}

/-- Inside the loops `ls` the computation is refused, or it ends inside the loops `ls'`. -/
def Steps (ls : List (Nat × Nat)) (x : Build α) (ls' : List (Nat × Nat)) : Prop :=
  ∀ b : Builder, b.loops = ls → (∀ e, x.run b = .error e → IsRefusal e) ∧ Spec x b fun _ b' => b'.loops = ls'

theorem Steps.bind {x : Build β} {f : β → Build α} (hx : Steps ls x ls₁)
    (hf : ∀ a, Steps ls₁ (f a) ls') :
    Steps ls (x >>= f) ls' := by
  intro b hb
  obtain ⟨hraise, hspec⟩ := hx b hb
  refine ⟨fun e he => ?_, spec_bind.2 fun a b' hrun => (hf a b' (hspec a b' hrun)).2⟩
  rw [run_bind] at he
  cases hrun : x.run b with
  | error e' =>
    rw [hrun] at he
    cases he
    exact hraise e hrun
  | ok p =>
    rw [hrun] at he
    exact (hf p.1 p.2 (hspec p.1 p.2 hrun)).1 e he

theorem Steps.pure (a : α) : Steps ls (pure a) ls := fun _ hb => ⟨nofun, spec_pure.2 hb⟩

theorem Steps.raise {e : Error} (h : IsRefusal (.error e)) : Steps ls (raise e : Build α) ls' := by
  refine fun b hb => ⟨?_, spec_raise⟩
  rintro _ ⟨⟩
  exact h

/-- Nothing behind a refusal matters. -/
theorem Steps.raise_bind {e : Error} (h : IsRefusal (.error e)) (f : β → Build α) : Steps ls (Build.raise e >>= f) ls' := by
  refine fun b hb => ⟨?_, spec_bind.2 spec_raise⟩
  rintro _ ⟨⟩
  exact h

theorem Steps.get {f : Builder → Build α} (hf : ∀ b : Builder, b.loops = ls → Steps ls (f b) ls') :
    Steps ls (get >>= f) ls' := fun b hb => hf b hb b hb

theorem Steps.modify {f : Builder → Builder} (h : ∀ b : Builder, b.loops = ls → (f b).loops = ls') :
    Steps ls (modify f) ls' := fun b hb => ⟨nofun, spec_modify.2 (h b hb)⟩

theorem Steps.lift {x : Except Failure α} (h : ∀ e, x = .error e → IsRefusal e) : Steps ls (liftM x : Build α) ls := by
  intro b hb
  refine ⟨fun e he => h e ?_, spec_lift.2 fun _ _ => hb⟩
  cases x with
  | error e' =>
    cases he
    rfl
  | ok a => cases he

theorem Steps.typed (line : Int) (x : Except TypeCause α) : Steps ls (typed line x) ls := by
  unfold Build.typed
  cases x with
  | error c => exact .raise isRefusal_type
  | ok a => exact .pure a

/-! ## blocks -/

theorem steps_newBlock (line : Int) : Steps ls (newBlock line) ls :=
  fun _ hb => ⟨nofun, spec_newBlock.2 hb⟩

theorem steps_current : Steps ls current ls := fun _ hb => ⟨nofun, spec_current.2 hb⟩

theorem steps_enter (i : Nat) : Steps ls (enter i) ls := .modify fun _ hb => hb

theorem steps_editBlock (i : Nat) (f : Block → Block) : Steps ls (editBlock i f) ls :=
  .modify fun _ hb => hb

theorem steps_addOp (op : Op) : Steps ls (addOp op) ls :=
  steps_current.bind fun _ => steps_editBlock _ _

theorem steps_terminate (t : Terminator) (line : Int) : Steps ls (terminate t line) ls :=
  steps_current.bind fun _ => (steps_editBlock _ _).bind fun _ => (steps_newBlock line).bind fun i => steps_enter i

theorem steps_enterLoop (l : Nat × Nat) : Steps ls (modify fun b => { b with loops := l :: b.loops }) (l :: ls) :=
  .modify fun _ hb => congrArg (l :: ·) hb

theorem steps_leaveLoop (l : Nat × Nat) : Steps (l :: ls) (modify fun b => { b with loops := b.loops.drop 1 }) ls :=
  .modify fun _ hb => congrArg (List.drop 1) hb

end Build

open Build

/-! ## expressions -/

theorem Arith.exists_binOp? {op : Arith} (h : op.supported) : ∃ o, op.binOp? = some o := by
  cases op with
  | add | sub | mult | floorDiv | mod => exact ⟨_, rfl⟩
  | _ => cases h

theorem Comparison.exists_binOp? {op : Comparison} (h : op.supported) : ∃ o, op.binOp? = some o := by
  cases op with
  | eq | notEq | lt | ltE | gt | gtE => exact ⟨_, rfl⟩
  | _ => cases h

theorem exists_comparisons {ops : List Comparison} (hops : ∀ op ∈ ops, op.supported)
    {rs : List Expr} (hlen : ops.length = rs.length) (l : Expr) :
    ∃ parts, comparisons ops l rs = .ok (some parts) := by
  induction ops generalizing l rs with
  | nil => exact ⟨[], rfl⟩
  | cons op ops ih =>
    obtain ⟨o, ho⟩ := Comparison.exists_binOp? (hops op (List.mem_cons_self ..))
    cases rs with
    | nil => cases hlen
    | cons r rs =>
      obtain ⟨parts, hparts⟩ :=
        ih (fun op' h => hops op' (List.mem_cons_of_mem _ h)) (Nat.succ.inj hlen) r
      refine ⟨.bin o l r :: parts, ?_⟩
      simp only [comparisons, ho, hparts]
      rfl

mutual

/-- A flat expression has a counterpart. -/
theorem Exp.InForm.exists_toExpr {short : Bool} (e : Exp)
    (h : e.InForm ⟨true, false, false, short⟩) :
    ∃ a, e.toExpr = .ok a := by
  cases e with
  | constant sp c =>
    cases c with
    | bool b => exact ⟨.lit (.bool b), rfl⟩
    | int n => exact ⟨.num n, rfl⟩
    | _ => cases h.1
  | name sp x => exact ⟨.var ⟨x, .unknown⟩, rfl⟩
  | unary sp op e =>
    obtain ⟨a, ha⟩ := Exp.InForm.exists_toExpr e h.2
    cases op with
    | not =>
      refine ⟨.un .not a, ?_⟩
      simp only [Exp.toExpr, ha]
      rfl
    | plus =>
      refine ⟨a, ?_⟩
      simp only [Exp.toExpr, ha]
    | minus =>
      unfold Exp.toExpr
      simp only
      split
      · exact ⟨_, rfl⟩
      · refine ⟨.un .neg a, ?_⟩
        simp only [ha]
        rfl
    | invert => cases h.1
  | binary sp l op r =>
    obtain ⟨o, ho⟩ := Arith.exists_binOp? h.1
    obtain ⟨a, ha⟩ := Exp.InForm.exists_toExpr l h.2.1
    obtain ⟨b, hb⟩ := Exp.InForm.exists_toExpr r h.2.2
    refine ⟨.bin o a b, ?_⟩
    simp only [Exp.toExpr, ho, ha, hb]
    rfl
  | logic sp op es =>
    obtain ⟨hne, hes⟩ := h
    cases es with
    | nil => exact absurd rfl (hne rfl)
    | cons e es =>
      obtain ⟨a, ha⟩ := Exp.InForm.exists_toExpr e hes.1
      obtain ⟨as, has, -⟩ := Exp.InFormL.exists_toExprL es hes.2
      refine ⟨as.foldl (.bin op.binOp) a, ?_⟩
      simp only [Exp.toExpr, ha, has]
      rfl
  | compare sp l ops rs =>
    obtain ⟨hops, hlen, hl, hrs⟩ := h
    obtain ⟨a, ha⟩ := Exp.InForm.exists_toExpr l hl
    obtain ⟨bs, hbs, hn⟩ := Exp.InFormL.exists_toExprL rs hrs
    obtain ⟨parts, hparts⟩ := exists_comparisons hops ((hlen rfl).trans hn.symm) a
    refine ⟨.conjoin parts, ?_⟩
    simp only [Exp.toExpr, ha, hbs, bind, Except.bind, hparts]
  | ifElse sp t a b => cases h.1
  | call sp f args keywords => cases h.1
  | other sp k ps => exact h.elim

theorem Exp.InFormL.exists_toExprL {short : Bool} (es : List Exp)
    (h : Exp.InFormL ⟨true, false, false, short⟩ es) :
    ∃ as, Exp.toExprL es = .ok as ∧ as.length = es.length := by
  cases es with
  | nil => exact ⟨[], rfl, rfl⟩
  | cons e es =>
    obtain ⟨a, ha⟩ := Exp.InForm.exists_toExpr e h.1
    obtain ⟨as, has, hlen⟩ := Exp.InFormL.exists_toExprL es h.2
    refine ⟨a :: as, ?_, congrArg (· + 1) hlen⟩
    simp only [Exp.toExprL, ha, has]
    rfl

end

namespace Build

variable {short : Bool} {ls ls' : List (Nat × Nat)}

theorem steps_expression {e : Exp} (h : e.InForm ⟨true, false, false, short⟩) : Steps ls (expression e) ls := by
  obtain ⟨a, ha⟩ := h.exists_toExpr e
  unfold expression
  refine Steps.bind (.lift fun e he => ?_) fun a => Steps.get fun b hb => ?_
  · rw [ha] at he
    cases he
  · exact (Steps.typed _ _).bind fun a' => (Steps.typed _ _).bind fun t => .pure (a', t)

theorem steps_guard {e : Exp} (h : e.InForm ⟨true, false, false, short⟩) : Steps ls (guard e) ls :=
  (steps_expression h).bind fun _ => .pure _

theorem steps_declareVar (x : String) (t : Ty) (line : Int) : Steps ls (declareVar x t line) ls := by
  have hvar : Steps ls (do typed line ((← get).table.var x)) ls :=
    Steps.get fun b _ => .typed line _
  unfold declareVar
  by_cases hx : x = resultName
  · simp only [hx, if_true]
    exact .raise_bind isRefusal_reservedName _
  · simp only [hx, if_false]
    refine Steps.get fun b _ => ?_
    by_cases hc : b.table.contains x = true
    · simp only [hc, Bool.not_true, Bool.false_eq_true, if_false]
      exact hvar
    · simp only [hc, Bool.not_false, if_true]
      exact Steps.bind (.modify fun _ hb => hb) fun _ => hvar

theorem steps_arguments (line : Int) {ps : List Var} {args : List Exp}
    (h : Exp.InFormL ⟨true, false, false, short⟩ args) :
    Steps ls (arguments line (ps.zip args)) ls := by
  induction ps generalizing args with
  | nil => exact .pure []
  | cons p ps ih =>
    cases args with
    | nil => exact .pure []
    | cons e args =>
      simp only [List.zip_cons_cons, arguments]
      refine (steps_expression h.1).bind fun q => ?_
      by_cases hp : p.type = .unknown
      · simp only [hp, if_true]
        exact .raise_bind isRefusal_type _
      · by_cases ht : q.2 = p.type
        · simp only [hp, ht, ne_eq, not_true, if_false]
          exact (ih h.2).bind fun as => .pure _
        · simp only [hp, ht, ne_eq, not_false_eq_true, if_true, if_false]
          exact .raise_bind isRefusal_type _

theorem steps_invoke (x : Option String) {f : Exp} (hf : f.IsCallee) {args : List Exp}
    (h : Exp.InFormL ⟨true, false, false, short⟩ args) (line : Int) : Steps ls (invoke x f args line) ls := by
  unfold invoke
  cases f with
  | name sp id =>
    simp only [pure_bind]
    refine Steps.get fun b _ => ?_
    cases b.signatures.get? id with
    | none => exact .raise_bind (isRefusal_unknownCall rfl) _
    | some s =>
      by_cases hl : args.length = s.params.length
      · simp only [hl, ne_eq, not_true, if_false]
        refine (steps_arguments line h).bind fun as => ?_
        cases x with
        | none => exact steps_addOp _
        | some x =>
          by_cases hu : s.result = .unknown
          · simp only [hu, if_true]
            exact .raise_bind isRefusal_type _
          · simp only [hu, if_false]
            refine (steps_declareVar x s.result line).bind fun v => ?_
            by_cases hty : v.type = s.result
            · simp only [hty, not_true, if_false]
              exact steps_addOp _
            · simp only [hty, not_false_eq_true, if_true]
              exact .raise_bind isRefusal_type _
      · simp only [hl, ne_eq, not_false_eq_true, if_true]
        exact .raise_bind isRefusal_type _
  | _ => exact hf.elim

theorem steps_store (x : String) {value : Exp} (h : value.Whole ⟨true, false, false, short⟩)
    (line : Int) :
    Steps ls (store x value line) ls := by
  unfold store
  split
  · exact steps_invoke (some x) h.1 h.2.2 line
  · rename_i hcall
    have hvalue : value.InForm ⟨true, false, false, short⟩ := by
      cases value with
      | call sp f args keywords => exact (hcall sp f args keywords rfl).elim
      | _ => exact h
    refine (steps_expression hvalue).bind fun q => (steps_declareVar x q.2 line).bind fun v => ?_
    by_cases hty : v.type = q.2
    · simp only [hty, ne_eq, not_true, if_false]
      exact steps_addOp _
    · simp only [hty, ne_eq, not_false_eq_true, if_true]
      exact .raise_bind isRefusal_type _

theorem steps_checkDeclared (x : String) (t : Ty) (line : Int) : Steps ls (checkDeclared x t line) ls := by
  unfold checkDeclared
  refine Steps.get fun b _ => ?_
  split
  · split
    · exact .raise isRefusal_type
    · exact .pure _
  · exact .pure _

theorem steps_firstLine {ss : List Stmt} (h : ss ≠ []) : Steps ls (firstLine ss) ls := by
  cases ss with
  | nil => exact absurd rfl h
  | cons s ss => exact .pure s.line

theorem steps_invariant (es : List Expr) (line : Int) : Steps ls (invariant es line) ls := by
  unfold invariant
  split
  · exact .pure none
  · refine Steps.get fun b _ => ?_
    exact (Steps.typed _ _).bind fun e => (Steps.typed _ _).bind fun e => .pure _

/-! ## invariants -/

/-- The integers of a text are not too long. -/
def ShortText (text : String) : Prop := ∀ ts, tokenize text = .ok ts → Parser.Short ts

theorem isRefusal_of_parse {text : String} (h : ShortText text) {e : Failure} (he : parse text = .error e) : IsRefusal e := by
  cases e with
  | fault x => exact absurd he (parse_ne_fault h x)
  | error e =>
    unfold parse at he
    split at he
    · cases he
      trivial
    · rename_i ts _
      cases hc : Parser.condition text.length ts with
      | ok e' => simp [hc, Except.mapError] at he
      | error r =>
        rw [hc] at he
        cases r with
        | refused cause start stop =>
          cases he
          trivial
        | tooLong => cases he

theorem steps_parseAll {texts : List String} (h : ∀ text ∈ texts, ShortText text) : Steps ls (parseAll texts) ls := by
  induction texts with
  | nil => exact .pure []
  | cons text texts ih =>
    obtain ⟨htext, htexts⟩ := List.forall_mem_cons.1 h
    unfold parseAll
    exact (Steps.lift fun e he => isRefusal_of_parse htext he).bind fun e => (ih htexts).bind fun es => .pure _

end Build

/-! ## statements -/

/-- The texts of all invariants at the start of loops have short integers. -/
def ShortMarkers (ms : List (List Stmt)) : Prop :=
  ∀ leading ∈ ms, ∀ m ∈ leading, ∀ text, m.invariantText = some text → ShortText text

theorem shortMarkers_append {ms ms' : List (List Stmt)} :
    ShortMarkers (ms ++ ms') ↔ ShortMarkers ms ∧ ShortMarkers ms' :=
  List.forall_mem_append

section

variable {types : Exp → Prop} {short : Bool} {ls : List (Nat × Nat)}

theorem steps_cond (sp : Span) {t : Exp} (ht : t.InForm ⟨true, false, false, short⟩)
    {body orElse : List Stmt} (hne : body ≠ []) (hbody : Steps ls (Stmt.lowerL body) ls)
    (hother : Steps ls (Stmt.lowerL orElse) ls) :
    Steps ls (Stmt.cond sp t body orElse).lower ls := by
  unfold Stmt.lower
  refine (steps_guard ht).bind fun g => steps_current.bind fun branch => (steps_firstLine hne).bind fun l =>
    (steps_newBlock l).bind fun onTrue => (steps_enter onTrue).bind fun _ => hbody.bind fun _ =>
    steps_current.bind fun trueEnd => ?_
  have hjoin : ∀ falsePart : Option (Nat × Nat), Steps ls (do
      let join ← newBlock sp.endLine
      setTerm branch (.branch g onTrue ((falsePart.map (·.1)).getD join))
      setMissingTerm trueEnd (.goto join)
      falsePart.elim (enter join) fun part => do
        setMissingTerm part.2 (.goto join)
        enter join) ls := fun falsePart =>
    (steps_newBlock _).bind fun join => (steps_editBlock _ _).bind fun _ => (steps_editBlock _ _).bind fun _ => by
      cases falsePart with
      | none => exact steps_enter _
      | some p => exact (steps_editBlock _ _).bind fun _ => steps_enter _
  split
  · exact hjoin none
  · rename_i hempty
    have hne' : orElse ≠ [] := by simpa using hempty
    exact (steps_firstLine hne').bind fun l => (steps_newBlock l).bind fun onFalse => (steps_enter onFalse).bind fun _ =>
      hother.bind fun _ => steps_current.bind fun falseEnd => hjoin (some (onFalse, falseEnd))

theorem steps_loop (sp : Span) {t : Exp} (ht : t.InForm ⟨true, false, false, short⟩)
    {body : List Stmt} (orElse : List Stmt)
    (htexts : ∀ text ∈ leadingInvariants body, ShortText text)
    (hbody : ∀ l, Steps (l :: ls) (Stmt.lowerLoopBody body) (l :: ls)) :
    Steps ls (Stmt.loop sp t body orElse).lower ls := by
  unfold Stmt.lower
  refine (steps_parseAll htexts).bind fun invs => (steps_newBlock _).bind fun header => steps_current.bind fun i =>
    (steps_editBlock _ _).bind fun _ => (steps_enter header).bind fun _ => (steps_guard ht).bind fun g =>
    (steps_newBlock _).bind fun start => (steps_newBlock _).bind fun exit => (steps_editBlock _ _).bind fun _ => ?_
  refine (steps_enterLoop (header, exit)).bind fun _ => (steps_enter start).bind fun _ => (hbody _).bind fun _ =>
    steps_current.bind fun j => (steps_editBlock _ _).bind fun _ => (steps_leaveLoop (header, exit)).bind fun _ => ?_
  exact (steps_invariant invs sp.line).bind fun inv => (steps_editBlock _ _).bind fun _ => steps_enter exit

theorem mem_leadingInvariants {body : List Stmt} {text : String}
    (h : text ∈ leadingInvariants body) :
    ∃ m ∈ body.takeWhile Stmt.isInvariant, m.invariantText = some text := List.mem_filterMap.1 h

theorem exists_of_target? {ts : List Exp} {x : String} (h : target? ts = some x) : ∃ sp, ts = [.name sp x] := by
  unfold target? at h
  split at h
  · rename_i t
    cases t with
    | name sp y =>
      cases h
      exact ⟨sp, rfl⟩
    | _ => cases h
  · cases h

mutual

theorem steps_lower {ls : List (Nat × Nat)} {inLoop : Bool} (s : Stmt)
    (h : s.InForm (.normal true types short) inLoop) (hl : inLoop → ls ≠ [])
    (hm : ShortMarkers s.markers) : Steps ls s.lower ls := by
  cases s with
  | assign sp ts v =>
    obtain ⟨⟨x, hts⟩, hv⟩ := h
    obtain ⟨nsp, rfl⟩ := exists_of_target? hts
    unfold Stmt.lower
    exact steps_store x hv sp.line
  | declare sp t u v =>
    obtain ⟨⟨x, ht⟩, -, hv⟩ := h
    cases t with
    | name nsp y =>
      unfold Stmt.lower
      refine (steps_checkDeclared _ _ _).bind fun _ => (steps_declareVar _ _ _).bind fun _ => ?_
      cases v with
      | none => exact .pure _
      | some v => exact steps_store y (hv v rfl) sp.line
    | _ => cases ht
  | exp sp v =>
    obtain ⟨hcall, hv⟩ := h
    cases v with
    | call csp f args keywords =>
      unfold Stmt.lower
      exact steps_invoke none hv.1 hv.2.2 sp.line
    | _ => cases hcall
  | pass sp =>
    unfold Stmt.lower
    exact .pure _
  | ret sp v =>
    cases v with
    | none =>
      unfold Stmt.lower
      exact steps_terminate _ _
    | some v =>
      unfold Stmt.lower
      refine (steps_expression (h v rfl)).bind fun q => Steps.get fun b _ => ?_
      by_cases hr : b.table.result = .unknown
      · simp only [hr, if_true]
        exact .raise_bind isRefusal_type _
      · by_cases ht : q.2 = b.table.result
        · simp only [hr, ht, ne_eq, not_true, if_false]
          exact steps_terminate _ _
        · simp only [hr, ht, ne_eq, not_false_eq_true, if_true, if_false]
          exact .raise_bind isRefusal_type _
  | cond sp t body orElse =>
    obtain ⟨ht, hne, hbody, hother⟩ := h
    obtain ⟨hmb, hmo⟩ := shortMarkers_append.1 hm
    exact steps_cond sp ht (hne rfl) (steps_lowerL body hbody hl hmb)
      (steps_lowerL orElse hother hl hmo)
  | loop sp t body orElse =>
    obtain ⟨ht, rfl, hbody⟩ := h
    obtain ⟨hlead, hmb⟩ := List.forall_mem_cons.1 hm
    refine steps_loop sp ht [] (fun text htext => ?_) fun l =>
      steps_lowerLoopBody l body hbody (shortMarkers_append.1 hmb).1
    obtain ⟨m, hmem, hm⟩ := mem_leadingInvariants htext
    exact hlead m hmem text hm
  | brk sp =>
    unfold Stmt.lower
    refine Steps.get fun b hb => ?_
    split
    · exact steps_terminate _ _
    · rename_i hnil
      exact absurd (hb.symm.trans hnil) (hl h)
  | cont sp =>
    unfold Stmt.lower
    refine Steps.get fun b hb => ?_
    split
    · exact steps_terminate _ _
    · rename_i hnil
      exact absurd (hb.symm.trans hnil) (hl h)
  | augment sp t op v => cases h.1
  | function | other => exact h.elim

theorem steps_lowerL {ls : List (Nat × Nat)} {inLoop : Bool} (ss : List Stmt)
    (h : Stmt.InFormL (.normal true types short) inLoop ss) (hl : inLoop → ls ≠ [])
    (hm : ShortMarkers (Stmt.markersL ss)) :
    Steps ls (Stmt.lowerL ss) ls := by
  cases ss with
  | nil =>
    unfold Stmt.lowerL
    exact .pure _
  | cons s ss =>
    obtain ⟨hms, hmss⟩ := shortMarkers_append.1 hm
    unfold Stmt.lowerL
    exact (steps_lower s h.1 hl hms).bind fun _ => steps_lowerL ss h.2 hl hmss

theorem steps_lowerLoopBody {ls : List (Nat × Nat)} (l : Nat × Nat) (ss : List Stmt)
    (h : Stmt.InLoopForm (.normal true types short) ss) (hm : ShortMarkers (Stmt.markersL ss)) :
    Steps (l :: ls) (Stmt.lowerLoopBody ss) (l :: ls) := by
  cases ss with
  | nil =>
    unfold Stmt.lowerLoopBody
    exact .pure _
  | cons s ss =>
    obtain ⟨hms, hmss⟩ := shortMarkers_append.1 hm
    unfold Stmt.lowerLoopBody
    rcases h with ⟨hs, hss⟩ | ⟨hs, hss⟩
    · simp only [hs, if_true]
      exact steps_lowerLoopBody l ss hss hmss
    · simp only [hs.not_isInvariant, Bool.false_eq_true, if_false]
      have hl : true → l :: ls ≠ [] := fun _ => List.cons_ne_nil _ _
      exact (steps_lower s hs hl hms).bind fun _ => steps_lowerL ss hss hl hmss

end

/-! ## bodies -/

theorem steps_lowerBody {body : List Stmt} (h : Stmt.InBodyForm (.normal true types short) body)
    (hm : ShortMarkers (Stmt.markersL body)) : Steps [] (lowerBody body) [] := by
  have hret : Steps [] (do setMissingTerm (← current) (.ret none)) [] :=
    steps_current.bind fun _ => steps_editBlock _ _
  unfold lowerBody
  cases body with
  | nil => exact hret
  | cons s ss =>
    obtain ⟨hs, hss⟩ := h
    obtain ⟨hms, hmss⟩ := shortMarkers_append.1 hm
    have htail : Steps [] (Stmt.lowerL ss) [] := steps_lowerL ss hss nofun hmss
    simp only
    split
    · exact htail.bind fun _ => hret
    · rename_i hdoc
      have hhead : Steps [] s.lower [] := steps_lower s (hs.resolve_left hdoc) nofun hms
      unfold Stmt.lowerL
      exact (hhead.bind fun _ => htail).bind fun _ => hret

/-- **Lowering only refuses.**  Whatever goes wrong with a body in normal form is something the
verifier reports. -/
theorem isRefusal_of_buildGraph {body : List Stmt}
    (h : Stmt.InBodyForm (.normal true types short) body) (hm : ShortMarkers (Stmt.markersL body))
    {t : Table} {sigs : Signatures} {line : Int} {e : Failure}
    (he : buildGraph t sigs line body = .error e) : IsRefusal e := by
  let start : Builder := { table := t, signatures := sigs, blocks := [{ line := some line }] }
  unfold buildGraph at he
  cases hr : (lowerBody body).run start with
  | error e' =>
    simp only [bind, Except.bind] at he
    rw [hr] at he
    cases he
    exact (steps_lowerBody h hm start rfl).1 e hr
  | ok p =>
    simp only [bind, Except.bind] at he
    rw [hr] at he
    cases he

end

/-! ## from the checker to the graph -/

/-- **Checker, passes and lowering agree on the fragment.**  A function that the checker accepts,
with types that are plain names and invariants whose integers are not too long, has a normal form.
It holds no augmented assignment, no conditional expression and no call inside of another
expression, and the invariants at the start of its loops are those of the function. Lowering it
never ends in a fault, and in no construct that is not supported. -/
theorem lowering_agrees {f : Function} (hc : f.toStmt.check false false = .ok ())
    (hf : Stmt.FormedL f.body) (ha : ∀ u ∈ Stmt.annotationsL f.body, u.isName)
    (hx : ShortMarkers (Stmt.markersL f.body)) :
    ∃ body, f.preprocess = .ok { f with body := body } ∧ Stmt.InBodyForm (.normal true fun u => u.isName) body ∧
      Stmt.markersL body = Stmt.markersL f.body ∧
      ∀ t sigs line e, buildGraph t sigs line body = .error e → IsRefusal e := by
  have hnormal : ∃ body, f.preprocess = .ok { f with body := body } ∧
      HasBodyForm (.normal true fun u => u.isName) f.body body :=
    Function.preprocess_normal hc (fun _ => hf) ha fun u hu => liftIf_of_isName hu
  obtain ⟨body, hrun, hbody⟩ := hnormal
  have hx' : ShortMarkers (Stmt.markersL body) := by
    rw [hbody.markers]
    exact hx
  exact ⟨body, hrun, hbody.form, hbody.markers, fun t sigs line e he => isRefusal_of_buildGraph hbody.form hx' he⟩

namespace Settle

theorem formed : Stmt.FormedL function.body := by
  simp [function, body, Stmt.FormedL, Stmt.Formed, Exp.Formed, Exp.FormedL, a, b, x, num, half]

theorem short : ShortMarkers (Stmt.markersL function.body) := by
  have hs : Token.scan 0 "a >= b".toList =
      .ok [⟨.identifier, "a", 0, 1⟩, ⟨.symbol, ">=", 2, 4⟩, ⟨.identifier, "b", 5, 6⟩] := by
    rw [show "a >= b".toList = ['a', ' ', '>', '=', ' ', 'b'] by decide]
    exact Token.scan_cons rfl (Token.scan_cons rfl (Token.scan_cons rfl (Token.scan_cons rfl (Token.scan_cons rfl
      (Token.scan_nil _) rfl) rfl) rfl) rfl) rfl
  intro leading hl m hm text ht
  cases List.mem_singleton.1 hl
  cases List.mem_singleton.1 hm
  cases ht
  exact fun ts h => short_of_scan hs (by unfold Parser.Short; decide) h

end Settle

theorem settle_agrees : ∃ body, Settle.function.preprocess = .ok { Settle.function with body := body } ∧
    Stmt.InBodyForm (.normal true fun u => u.isName) body ∧ Stmt.markersL body = Stmt.markersL Settle.body ∧
    ∀ t sigs line e, buildGraph t sigs line body = .error e → IsRefusal e := by
  have hcheck : Settle.function.toStmt.check false false = .ok () := by rfl
  have htypes : ∀ u ∈ Stmt.annotationsL Settle.function.body, u.isName := by decide +kernel
  exact lowering_agrees hcheck Settle.formed htypes Settle.short

end ContractVerifier.Source
