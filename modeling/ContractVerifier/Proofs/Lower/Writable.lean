import ContractVerifier.Proofs.Expr.Writable
import ContractVerifier.Proofs.Lower.Typing

/-!
# Lowered numbers

All numbers of a lowered body are numbers of the body or of an invariant, apart from the zero that
an integer guard is compared with.  So the graph of a body that has a text has labels for all its
blocks.

* `Builder.Writable` : the blocks that there are have labels;
* `Build.Writes` : a computation leaves such blocks to others;
* `isWritable_of_buildGraph` : lowering does.
-/

namespace ContractVerifier.Source

open ContractVerifier.Flow

/-! ## expressions -/

theorem isWritable_foldl {op : BinOp} {es : List Expr} {e : Expr} (he : e.isWritable = true)
    (hes : ∀ a ∈ es, a.isWritable = true) : (es.foldl (.bin op) e).isWritable = true := by
  induction es generalizing e with
  | nil => exact he
  | cons a es ih =>
    obtain ⟨ha, hes⟩ := List.forall_mem_cons.1 hes
    exact ih (Expr.isWritable_bin he ha) hes

theorem isWritable_comparisons {ops : List Comparison} {l : Expr} {rs parts : List Expr}
    (hl : l.isWritable = true) (hrs : ∀ a ∈ rs, a.isWritable = true)
    (h : comparisons ops l rs = .ok (some parts)) :
    ∀ a ∈ parts, a.isWritable = true := by
  induction ops generalizing l rs parts with
  | nil =>
    cases h
    exact List.forall_mem_nil _
  | cons op ops ih =>
    unfold comparisons at h
    cases hop : op.binOp? with
    | none => simp [hop] at h
    | some o =>
      simp only [hop] at h
      cases rs with
      | nil => cases h
      | cons r rs =>
        obtain ⟨hr, hrs⟩ := List.forall_mem_cons.1 hrs
        obtain ⟨rest, hrest, h⟩ := exists_of_bind_ok h
        obtain ⟨parts', rfl, rfl⟩ := Option.map_eq_some_iff.1 (Except.ok.inj h)
        exact List.forall_mem_cons.2 ⟨Expr.isWritable_bin hl hr, ih hr hrs hrest⟩

mutual

theorem Exp.isWritable_toExpr (e : Exp) (h : e.isWritable = true) {a : Expr}
    (ha : e.toExpr = .ok a) :
    a.isWritable = true := by
  cases e with
  | constant sp c =>
    cases c with
    | bool b =>
      cases ha
      rfl
    | int n =>
      cases ha
      exact h
    | _ => cases ha
  | name sp x =>
    cases ha
    rfl
  | unary sp op e =>
    cases op with
    | not =>
      obtain ⟨b, hb, ha⟩ := exists_of_bind_ok ha
      cases ha
      exact (Exp.isWritable_toExpr e h hb : b.isWritable = true)
    | plus => exact Exp.isWritable_toExpr e h ha
    | minus =>
      unfold Exp.toExpr at ha
      simp only at ha
      split at ha
      · rename_i n
        cases ha
        exact (Text.isShort_neg n).trans h
      · obtain ⟨b, hb, ha⟩ := exists_of_bind_ok ha
        cases ha
        exact (Exp.isWritable_toExpr e h hb : b.isWritable = true)
    | invert => cases ha
  | binary sp l op r =>
    obtain ⟨hl, hr⟩ := Bool.and_eq_true_iff.1 h
    unfold Exp.toExpr at ha
    cases hop : op.binOp? with
    | none => simp [hop] at ha
    | some o =>
      simp only [hop] at ha
      obtain ⟨b, hb, ha⟩ := exists_of_bind_ok ha
      obtain ⟨c, hc, ha⟩ := exists_of_bind_ok ha
      cases ha
      exact Expr.isWritable_bin (Exp.isWritable_toExpr l hl hb) (Exp.isWritable_toExpr r hr hc)
  | logic sp op es =>
    cases es with
    | nil => cases ha
    | cons e es =>
      obtain ⟨he, hes⟩ := Bool.and_eq_true_iff.1 h
      obtain ⟨b, hb, ha⟩ := exists_of_bind_ok ha
      obtain ⟨bs, hbs, ha⟩ := exists_of_bind_ok ha
      cases ha
      exact isWritable_foldl (Exp.isWritable_toExpr e he hb) (Exp.isWritable_toExprL es hes hbs)
  | compare sp l ops rs =>
    obtain ⟨hl, hrs⟩ := Bool.and_eq_true_iff.1 h
    obtain ⟨b, hb, ha⟩ := exists_of_bind_ok ha
    obtain ⟨bs, hbs, ha⟩ := exists_of_bind_ok ha
    split at ha
    · rename_i parts hparts
      cases ha
      exact Expr.isWritable_conjoin
        (isWritable_comparisons (Exp.isWritable_toExpr l hl hb) (Exp.isWritable_toExprL rs hrs hbs) hparts)
    · cases ha
    · cases ha
  | ifElse | call | other => cases ha

theorem Exp.isWritable_toExprL (es : List Exp) (h : Exp.isWritableL es = true) {as : List Expr}
    (ha : Exp.toExprL es = .ok as) : ∀ a ∈ as, a.isWritable = true := by
  cases es with
  | nil =>
    cases ha
    exact List.forall_mem_nil _
  | cons e es =>
    obtain ⟨he, hes⟩ := Bool.and_eq_true_iff.1 h
    obtain ⟨b, hb, ha⟩ := exists_of_bind_ok ha
    obtain ⟨bs, hbs, ha⟩ := exists_of_bind_ok ha
    cases ha
    exact List.forall_mem_cons.2 ⟨Exp.isWritable_toExpr e he hb, Exp.isWritable_toExprL es hes hbs⟩

end

theorem Translates.isWritable {t : Table} {e : Exp} {a : Expr} {u : Ty} (h : Translates t e a u)
    (he : e.isWritable = true) : a.isWritable = true := by
  obtain ⟨a₀, ha, hr, -⟩ := h
  rw [Expr.isWritable_resolve hr]
  exact Exp.isWritable_toExpr e he ha

theorem isWritable_asGuard {a : Expr} (u : Ty) (h : a.isWritable = true) : (asGuard a u).isWritable = true := by
  unfold asGuard
  split
  · exact Expr.isWritable_bin h Text.isShort_zero
  · exact h

theorem Called.isWritable {b : Builder} {x : Option String} {f : Exp} {args : List Exp} {t : Table}
    {op : Op} (h : Called b x f args t op) (hargs : Exp.isWritableL args = true) :
    op.isWritable = true := by
  obtain ⟨-, -, -, as, -, -, -, -, has, -, rfl, -⟩ := h
  refine List.all_eq_true.2 ?_
  induction has with
  | nil => exact List.forall_mem_nil _
  | cons ha _ ih =>
    obtain ⟨he, hes⟩ := Bool.and_eq_true_iff.1 hargs
    obtain ⟨u, hu⟩ := ha
    exact List.forall_mem_cons.2 ⟨hu.isWritable he, ih hes⟩

theorem Stored.isWritable {b : Builder} {x : String} {value : Exp} {t : Table} {op : Op}
    (h : Stored b x value t op) (hv : value.isWritable = true) : op.isWritable = true := by
  rcases h with ⟨sp, f, args, ks, rfl, hc⟩ | ⟨-, v, a, ha, rfl, -⟩
  · exact hc.isWritable (Bool.and_eq_true_iff.1 (Bool.and_eq_true_iff.1 hv).1).2
  · exact ha.isWritable hv

theorem Conjoins.isWritable {t : Table} {es : List Expr} {inv : Option Expr} (h : Conjoins t es inv)
    (hes : ∀ e ∈ es, e.isWritable = true) : inv.all Expr.isWritable = true := by
  rcases h with ⟨-, rfl⟩ | ⟨-, e, hr, -, rfl⟩
  · rfl
  · exact (Expr.isWritable_resolve hr).trans (Expr.isWritable_conjoin hes)

theorem Parses.isWritable {texts : List String} {es : List Expr} (h : Parses texts es) :
    ∀ e ∈ es, e.isWritable = true := by
  induction h with
  | nil => exact List.forall_mem_nil _
  | cons h _ ih => exact List.forall_mem_cons.2 ⟨Expr.isWritable_of_parse h, ih⟩

/-! ## blocks -/

/-- All blocks have a label. -/
def Builder.Writable (b : Builder) : Prop := ∀ k ∈ b.blocks, k.isWritable = true

/-- The three parts of a block that are written. -/
theorem isWritable_block {k : Block} : k.isWritable = true ↔
      k.invariant.all Expr.isWritable = true ∧
    k.ops.all Op.isWritable = true ∧ k.term.all Terminator.isWritable = true := by
  unfold Block.isWritable
  simp only [Bool.and_eq_true, and_assoc]

theorem Builder.Writable.emit {b : Builder} (hb : b.Writable) (t : Table) {op : Op}
    (hop : op.isWritable = true) :
    (b.emit t op).Writable := by
  intro k hk
  rcases mem_modify hk with hk | ⟨c, hc, rfl⟩
  · exact hb k hk
  · obtain ⟨hinv, hops, hterm⟩ := isWritable_block.1 (hb c hc)
    exact isWritable_block.2 ⟨hinv, by simpa [hop] using hops, hterm⟩

namespace Build

variable {α β : Type} {Q : α → Prop}

/-- From blocks that have a label to blocks that have one, with a result that satisfies `Q`. -/
def Writes (x : Build α) (Q : α → Prop) : Prop :=
  ∀ b : Builder, b.Writable → Spec x b fun a b' => b'.Writable ∧ Q a

theorem Writes.bind {x : Build β} {f : β → Build α} {P : β → Prop} (hx : Writes x P)
    (hf : ∀ a, P a → Writes (f a) Q) :
    Writes (x >>= f) Q := fun b hb => spec_bind.2 ((hx b hb).mono fun a b' h => hf a h.2 b' h.1)

theorem writes_pure {a : α} (h : Q a) : Writes (pure a) Q := fun _ hb => spec_pure.2 ⟨hb, h⟩

theorem writes_raise (e : Error) : Writes (raise e : Build α) Q := fun _ _ => spec_raise

theorem writes_raise_bind (e : Error) (f : β → Build α) : Writes (raise e >>= f) Q :=
  (writes_raise (Q := fun _ => False) e).bind fun _ h => h.elim

theorem writes_fault (f : Fault) : Writes (fault f : Build α) Q := fun _ _ => spec_fault

theorem writes_get {f : Builder → Build α} (h : ∀ b, Writes (f b) Q) : Writes (get >>= f) Q :=
  fun b hb => spec_bind.2 (spec_get.2 (h b b hb))

theorem writes_current : Writes current fun _ => True := fun _ hb => spec_current.2 ⟨hb, trivial⟩

theorem writes_enter (i : Nat) : Writes (enter i) fun _ => True :=
  fun _ hb => spec_enter.2 ⟨hb, trivial⟩

theorem writes_loops (f : List (Nat × Nat) → List (Nat × Nat)) :
    Writes (modify fun b => { b with loops := f b.loops }) fun _ => True := fun _ hb => spec_modify.2 ⟨hb, trivial⟩

theorem writes_newBlock (line : Int) : Writes (newBlock line) fun _ => True := by
  refine fun b hb => spec_newBlock.2 ⟨fun k hk => ?_, trivial⟩
  rcases List.mem_append.1 hk with hk | hk
  · exact hb k hk
  · rw [List.mem_singleton.1 hk]
    rfl

theorem writes_editBlock (i : Nat) {f : Block → Block}
    (hf : ∀ k, k.isWritable = true → (f k).isWritable = true) :
    Writes (editBlock i f) fun _ => True := by
  refine fun b hb => spec_editBlock.2 ⟨fun k hk => ?_, trivial⟩
  rcases mem_modify hk with hk | ⟨c, hc, rfl⟩
  · exact hb k hk
  · exact hf c (hb c hc)

theorem writes_setTerm (i : Nat) {u : Terminator} (hu : u.isWritable = true) : Writes (setTerm i u) fun _ => True := by
  refine writes_editBlock i fun k hk => ?_
  obtain ⟨hinv, hops, -⟩ := isWritable_block.1 hk
  exact isWritable_block.2 ⟨hinv, hops, hu⟩

theorem writes_setMissingTerm (i : Nat) {u : Terminator} (hu : u.isWritable = true) :
    Writes (setMissingTerm i u) fun _ => True := by
  refine writes_editBlock i fun k hk => ?_
  obtain ⟨hinv, hops, hterm⟩ := isWritable_block.1 hk
  refine isWritable_block.2 ⟨hinv, hops, ?_⟩
  cases ht : k.term with
  | none => exact hu
  | some u' =>
    rw [ht] at hterm
    exact hterm

theorem writes_terminate {u : Terminator} (hu : u.isWritable = true) (line : Int) :
    Writes (terminate u line) fun _ => True :=
  writes_current.bind fun i _ => (writes_setTerm i hu).bind fun _ _ => (writes_newBlock line).bind fun j _ => writes_enter j

theorem writes_expression {e : Exp} (h : e.isWritable = true) :
    Writes (expression e) fun p => p.1.isWritable = true :=
  fun _ hb => spec_expression fun _ _ hu => ⟨hb, hu.isWritable h⟩

theorem writes_guard {e : Exp} (h : e.isWritable = true) : Writes (guard e) (·.isWritable = true) :=
  fun _ hb => spec_guard fun _ u hu => ⟨hb, isWritable_asGuard u (hu.isWritable h)⟩

theorem writes_declareVar (x : String) (u : Ty) (line : Int) :
    Writes (declareVar x u line) fun _ => True :=
  fun _ hb => spec_declareVar fun _ _ _ _ _ _ _ => ⟨hb, trivial⟩

theorem writes_checkDeclared (x : String) (u : Ty) (line : Int) :
    Writes (checkDeclared x u line) fun _ => True :=
  fun _ hb => spec_checkDeclared ⟨hb, trivial⟩

theorem writes_firstLine (ss : List Stmt) : Writes (firstLine ss) fun _ => True :=
  fun _ hb => spec_firstLine fun _ => ⟨hb, trivial⟩

theorem writes_invoke (x : Option String) (f : Exp) {args : List Exp}
    (h : Exp.isWritableL args = true) (line : Int) :
    Writes (invoke x f args line) fun _ => True :=
  fun _ hb => spec_invoke fun t _ _ hc => ⟨hb.emit t (hc.isWritable h), trivial⟩

theorem writes_store (x : String) {value : Exp} (h : value.isWritable = true) (line : Int) :
    Writes (store x value line) fun _ => True :=
  fun _ hb => spec_store fun t _ _ hs => ⟨hb.emit t (hs.isWritable h), trivial⟩

theorem writes_parseAll (texts : List String) :
    Writes (parseAll texts) fun es => ∀ e ∈ es, e.isWritable = true :=
  fun _ hb => spec_parseAll fun _ hes => ⟨hb, hes.isWritable⟩

theorem writes_invariant {es : List Expr} (h : ∀ e ∈ es, e.isWritable = true) (line : Int) :
    Writes (invariant es line) fun inv => inv.all Expr.isWritable = true :=
  fun _ hb => spec_invariant fun _ hinv => ⟨hb, hinv.isWritable h⟩

end Build

open Build

/-! ## statements -/

theorem writes_ret (sp : Span) {v : Exp} (h : v.isWritable = true) : Writes (Stmt.ret sp (some v)).lower fun _ => True := by
  unfold Stmt.lower
  refine (writes_expression h).bind fun p hp => writes_get fun b => ?_
  by_cases hr : b.table.result = .unknown
  · simp only [hr, if_true]
    exact writes_raise_bind _ _
  · by_cases ht : p.2 = b.table.result
    · simp only [hr, ht, ne_eq, not_true, if_false]
      exact writes_terminate (u := .ret (some p.1)) hp sp.line
    · simp only [hr, ht, ne_eq, not_false_eq_true, if_true, if_false]
      exact writes_raise_bind _ _

theorem writes_cond (sp : Span) {t : Exp} (ht : t.isWritable = true) {body orElse : List Stmt}
    (hbody : Writes (Stmt.lowerL body) fun _ => True)
    (hother : Writes (Stmt.lowerL orElse) fun _ => True) :
    Writes (Stmt.cond sp t body orElse).lower fun _ => True := by
  unfold Stmt.lower
  refine (writes_guard ht).bind fun g hg => writes_current.bind fun branch _ => (writes_firstLine body).bind fun l _ =>
    (writes_newBlock l).bind fun onTrue _ => (writes_enter onTrue).bind fun _ _ => hbody.bind fun _ _ =>
    writes_current.bind fun trueEnd _ => ?_
  have hjoin : ∀ falsePart : Option (Nat × Nat), Writes (do
      let join ← newBlock sp.endLine
      setTerm branch (.branch g onTrue ((falsePart.map (·.1)).getD join))
      setMissingTerm trueEnd (.goto join)
      falsePart.elim (enter join) fun part => do
        setMissingTerm part.2 (.goto join)
        enter join) fun _ => True := fun falsePart =>
    (writes_newBlock _).bind fun join _ => (writes_setTerm (u := .branch g onTrue _) branch hg).bind fun _ _ =>
      (writes_setMissingTerm trueEnd rfl).bind fun _ _ => by
        cases falsePart with
        | none => exact writes_enter _
        | some p => exact (writes_setMissingTerm _ rfl).bind fun _ _ => writes_enter _
  split
  · exact hjoin none
  · exact (writes_firstLine orElse).bind fun l _ => (writes_newBlock l).bind fun onFalse _ =>
      (writes_enter onFalse).bind fun _ _ => hother.bind fun _ _ => writes_current.bind fun falseEnd _ =>
      hjoin (some (onFalse, falseEnd))

theorem writes_loop (sp : Span) {t : Exp} (ht : t.isWritable = true) {body : List Stmt}
    (orElse : List Stmt) (hbody : Writes (Stmt.lowerLoopBody body) fun _ => True) :
    Writes (Stmt.loop sp t body orElse).lower fun _ => True := by
  unfold Stmt.lower
  refine (writes_parseAll _).bind fun invs hinvs => (writes_newBlock _).bind fun header _ =>
    writes_current.bind fun i _ => (writes_setTerm i rfl).bind fun _ _ =>
    (writes_enter header).bind fun _ _ => (writes_guard ht).bind fun g hg =>
    (writes_newBlock _).bind fun start _ => (writes_newBlock _).bind fun exit _ => ?_
  refine (writes_setTerm (u := .branch g start exit) header hg).bind fun _ _ =>
    (writes_loops _).bind fun _ _ => (writes_enter start).bind fun _ _ => hbody.bind fun _ _ =>
    writes_current.bind fun j _ => (writes_setMissingTerm j rfl).bind fun _ _ =>
    (writes_loops (List.drop 1)).bind fun _ _ => ?_
  refine (writes_invariant hinvs sp.line).bind fun inv hinv =>
    (writes_editBlock header fun k hk => ?_).bind fun _ _ => writes_enter exit
  obtain ⟨-, hops, hterm⟩ := isWritable_block.1 hk
  exact isWritable_block.2 ⟨hinv, hops, hterm⟩

mutual

theorem writes_lower (s : Stmt) (h : s.isWritable = true) : Writes s.lower fun _ => True := by
  cases s with
  | assign sp ts v =>
    unfold Stmt.lower
    split
    · exact writes_store _ (Bool.and_eq_true_iff.1 h).2 sp.line
    · exact writes_fault _
    · exact writes_fault _
  | declare sp t u v =>
    unfold Stmt.lower
    split
    · refine (writes_checkDeclared _ _ _).bind fun _ _ => (writes_declareVar _ _ _).bind fun _ _ => ?_
      cases v with
      | none => exact writes_pure trivial
      | some v => exact writes_store _ (Bool.and_eq_true_iff.1 h).2 sp.line
    · exact writes_fault _
  | exp sp v =>
    unfold Stmt.lower
    split
    · exact writes_invoke none _ (Bool.and_eq_true_iff.1 (Bool.and_eq_true_iff.1 h).1).2 sp.line
    · exact writes_fault _
  | pass sp => exact writes_pure trivial
  | ret sp v =>
    cases v with
    | none => exact writes_terminate (u := .ret none) rfl sp.line
    | some v => exact writes_ret sp h
  | cond sp t body orElse =>
    obtain ⟨htb, ho⟩ := Bool.and_eq_true_iff.1 h
    obtain ⟨ht, hb⟩ := Bool.and_eq_true_iff.1 htb
    exact writes_cond sp ht (writes_lowerL body hb) (writes_lowerL orElse ho)
  | loop sp t body orElse =>
    obtain ⟨htb, -⟩ := Bool.and_eq_true_iff.1 h
    obtain ⟨ht, hb⟩ := Bool.and_eq_true_iff.1 htb
    exact writes_loop sp ht orElse (writes_lowerLoopBody body hb)
  | brk sp | cont sp =>
    unfold Stmt.lower
    refine writes_get fun b => ?_
    split
    · exact writes_terminate (u := .goto _) rfl sp.line
    · exact writes_fault _
  | augment | function | other => exact writes_raise _

theorem writes_lowerL (ss : List Stmt) (h : Stmt.isWritableL ss = true) : Writes (Stmt.lowerL ss) fun _ => True := by
  cases ss with
  | nil => exact writes_pure trivial
  | cons s ss =>
    obtain ⟨hs, hss⟩ := Bool.and_eq_true_iff.1 h
    unfold Stmt.lowerL
    exact (writes_lower s hs).bind fun _ _ => writes_lowerL ss hss

theorem writes_lowerLoopBody (ss : List Stmt) (h : Stmt.isWritableL ss = true) :
    Writes (Stmt.lowerLoopBody ss) fun _ => True := by
  cases ss with
  | nil => exact writes_pure trivial
  | cons s ss =>
    obtain ⟨hs, hss⟩ := Bool.and_eq_true_iff.1 h
    unfold Stmt.lowerLoopBody
    split
    · exact writes_lowerLoopBody ss hss
    · exact (writes_lower s hs).bind fun _ _ => writes_lowerL ss hss

end

end ContractVerifier.Source
