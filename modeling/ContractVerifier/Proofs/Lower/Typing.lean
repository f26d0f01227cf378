import ContractVerifier.Proofs.Lower.Table

/-!
# Lowered graphs are well typed

Every operation, guard and returned value of a lowered body is typed by the final table, and so is
every invariant.  The blocks of the builder are typed by its table at any time (`Builder.Fits`), and
lowering keeps this (`fits_lower`).
-/

namespace ContractVerifier.Source

open ContractVerifier.Flow

/-! ## blocks and tables -/

def OpFits (t : Table) (sigs : Signatures) : Op → Prop
  | .assign x e => t.Has x ∧ x.name ≠ resultName ∧ e.In t ∧ e.typeOf = .ok x.type
  | .call x f args => (∀ w, x = some w → t.Has w ∧ w.name ≠ resultName ∧ ∃ s, sigs.get? f = some s ∧ w.type = s.result) ∧
      (∀ e ∈ args, e.In t) ∧ ∃ s, sigs.get? f = some s ∧ args.map Expr.typeOf = s.params.map fun p => .ok p.type

def TermFits (t : Table) : Terminator → Prop
  | .goto _ => True
  | .branch e _ _ => e.In t ∧ e.typeOf = .ok .bool
  | .ret e => ∀ v, e = some v → v.In t ∧ v.typeOf = .ok t.result

structure BlockFits (t : Table) (sigs : Signatures) (k : Block) : Prop where
  ops : ∀ op ∈ k.ops, OpFits t sigs op
  term : ∀ u, k.term = some u → TermFits t u
  invariant : ∀ e, k.invariant = some e → e.In t ∧ e.typeOf = .ok .bool

def Builder.Fits (b : Builder) : Prop := ∀ k ∈ b.blocks, BlockFits b.table b.signatures k

/-- The builder went on, and the blocks are still typed. -/
structure Extends (b b' : Builder) : Prop where
  table : b.table.Le b'.table
  signatures : b'.signatures = b.signatures
  fits : b.Fits → b'.Fits

section

variable {t t' : Table} {sigs : Signatures} {b b' b'' : Builder}

theorem OpFits.mono {op : Op} (h : OpFits t sigs op) (hl : t.Le t') : OpFits t' sigs op := by
  cases op with
  | assign x e => exact ⟨h.1.mono hl, h.2.1, h.2.2.1.mono hl, h.2.2.2⟩
  | call x f args =>
    exact ⟨fun w hw => ⟨(h.1 w hw).1.mono hl, (h.1 w hw).2⟩, fun e he => (h.2.1 e he).mono hl, h.2.2⟩

theorem TermFits.mono {u : Terminator} (h : TermFits t u) (hl : t.Le t') : TermFits t' u := by
  cases u with
  | goto j => trivial
  | branch e j k => exact ⟨h.1.mono hl, h.2⟩
  | ret e => exact fun v hv => ⟨(h v hv).1.mono hl, hl.result ▸ (h v hv).2⟩

theorem BlockFits.mono {k : Block} (h : BlockFits t sigs k) (hl : t.Le t') : BlockFits t' sigs k :=
  ⟨fun op hop => (h.ops op hop).mono hl, fun u hu => (h.term u hu).mono hl,
    fun e he => ⟨(h.invariant e he).1.mono hl, (h.invariant e he).2⟩⟩

theorem blockFits_empty (line : Option Int) : BlockFits t sigs { line := line } := ⟨by simp, by simp, by simp⟩

theorem Extends.refl (b : Builder) : Extends b b := ⟨Table.Le.refl _, rfl, id⟩

theorem Extends.trans (h : Extends b b') (h' : Extends b' b'') : Extends b b'' :=
  ⟨h.table.trans h'.table, h'.signatures.trans h.signatures, fun hf => h'.fits (h.fits hf)⟩

/-- The table is the same, and the blocks come from typed ones. -/
theorem extends_of_blocks (ht : b'.table = b.table) (hs : b'.signatures = b.signatures)
    (hf : b.Fits → ∀ k ∈ b'.blocks, BlockFits b.table b.signatures k) : Extends b b' := by
  refine ⟨ht ▸ Table.Le.refl _, hs, fun h k hk => ?_⟩
  rw [ht, hs]
  exact hf h k hk

theorem mem_modify {α : Type} {l : List α} {i : Nat} {f : α → α} {a : α} (h : a ∈ l.modify i f) :
    a ∈ l ∨ ∃ c ∈ l, a = f c := by
  obtain ⟨n, hn⟩ := List.mem_iff_getElem?.1 h
  rw [List.getElem?_modify] at hn
  split at hn
  · obtain ⟨c, hc, rfl⟩ := Option.map_eq_some_iff.1 hn
    exact .inr ⟨c, List.mem_of_getElem? hc, rfl⟩
  · exact .inl (List.mem_of_getElem? (by simpa using hn))

/-- One block is edited to a typed one. -/
theorem extends_modify {i : Nat} {f : Block → Block}
    (hf : ∀ k, BlockFits b.table b.signatures k → BlockFits b.table b.signatures (f k)) :
    Extends b { b with blocks := b.blocks.modify i f } := by
  refine extends_of_blocks rfl rfl fun h k hk => ?_
  rcases mem_modify hk with hk | ⟨c, hc, rfl⟩
  · exact h k hk
  · exact hf c (h c hc)

theorem extends_newBlock (line : Option Int) :
    Extends b { b with blocks := b.blocks ++ [({ line := line } : Block)] } := by
  refine extends_of_blocks rfl rfl fun h k hk => ?_
  rcases List.mem_append.1 hk with hk | hk
  · exact h k hk
  · rw [List.mem_singleton.1 hk]
    exact blockFits_empty line

/-- Which block is current and which loops are open does not matter. -/
theorem extends_context (i : Nat) (ls : List (Nat × Nat)) : Extends b { b with current := i, loops := ls } :=
  extends_of_blocks rfl rfl fun h => h

theorem extends_table (h : b.table.Le t) : Extends b { b with table := t } :=
  ⟨h, rfl, fun hf k hk => (hf k hk).mono h⟩

theorem extends_term {i : Nat} {u : Terminator} (hu : TermFits b.table u) :
    Extends b { b with blocks := b.blocks.modify i fun k => { k with term := some u } } :=
  extends_modify fun k hk => ⟨hk.ops, fun w hw => by cases hw; exact hu, hk.invariant⟩

theorem extends_missingTerm {i : Nat} {u : Terminator} (hu : TermFits b.table u) :
    Extends b { b with blocks := b.blocks.modify i fun k => { k with term := k.term.or (some u) } } := by
  refine extends_modify fun k hk => ⟨hk.ops, fun w hw => ?_, hk.invariant⟩
  rcases Option.or_eq_some_iff.1 hw with hw | ⟨-, hw⟩
  · exact hk.term w hw
  · cases hw
    exact hu

theorem extends_emit {op : Op} (hl : b.table.Le t) (hop : OpFits t b.signatures op) : Extends b (b.emit t op) := by
  refine (extends_table hl).trans
    (extends_modify (b := { b with table := t }) fun k hk => ⟨fun o ho => ?_, hk.term, hk.invariant⟩)
  rcases List.mem_append.1 ho with ho | ho
  · exact hk.ops o ho
  · rw [List.mem_singleton.1 ho]
    exact hop

end

/-! ## operations -/

section

variable {b : Builder} {t : Table} {op : Op}

theorem exists_of_forall₂ {α β : Type} {R : α → β → Prop} {l : List α} {l' : List β}
    (h : List.Forall₂ R l l') {y : β} (hy : y ∈ l') : ∃ x, R x y := by
  induction h with
  | nil => cases hy
  | cons hr _ ih =>
    rcases List.mem_cons.1 hy with rfl | hy
    · exact ⟨_, hr⟩
    · exact ih hy

theorem Called.fits {x : Option String} {f : Exp} {args : List Exp} (h : Called b x f args t op)
    (hl : b.table.Le t) :
    OpFits t b.signatures op := by
  obtain ⟨sp, id, s, as, target, -, hs, -, has, htypes, rfl, -, htarget⟩ := h
  refine ⟨fun w hw => ?_, fun a ha => ?_, s, hs, htypes⟩
  · obtain ⟨hhas, hr, hty⟩ := htarget w hw
    exact ⟨hhas, hr, s, hs, hty⟩
  · obtain ⟨e, u, hu⟩ := exists_of_forall₂ has ha
    exact hu.declared.mono hl

theorem Stored.fits {x : String} {value : Exp} (h : Stored b x value t op) (hl : b.table.Le t) :
    OpFits t b.signatures op := by
  rcases h with ⟨sp, f, args, ks, -, hc⟩ | ⟨-, v, a, ha, rfl, rfl, hhas, hr⟩
  · exact hc.fits hl
  · exact ⟨hhas, hr, ha.declared.mono hl, ha.type⟩

/-- A guard is boolean. -/
theorem asGuard_fits {e : Exp} {a : Expr} {u : Ty} (h : Translates t e a u) :
    (asGuard a u).In t ∧ (asGuard a u).typeOf = .ok .bool := by
  have hin := h.declared
  have hty := h.type
  unfold asGuard
  cases u with
  | int =>
    refine ⟨fun v hv => ?_, Expr.typeOf_bin_of hty rfl rfl⟩
    rcases List.mem_append.1 hv with hv | hv
    · exact hin v hv
    · cases hv
  | bool => exact ⟨hin, hty⟩
  | unknown => exact absurd rfl (Expr.typeOf_ne_unknown hty)

end

/-! ## steps of lowering -/

open Build

theorem spec_firstLine {ss : List Stmt} {b : Builder} {Q : Int → Builder → Prop} (h : ∀ l, Q l b) :
    Spec (firstLine ss) b Q := by
  cases ss with
  | nil => exact spec_fault
  | cons s ss => exact spec_pure.2 (h s.line)

theorem spec_checkDeclared {x : String} {u : Ty} {line : Int} {b : Builder}
    {Q : Unit → Builder → Prop} (h : Q () b) :
    Spec (checkDeclared x u line) b Q := by
  unfold checkDeclared
  simp only [spec_bind, spec_get]
  split
  · split
    · exact spec_raise
    · exact spec_pure.2 h
  · exact spec_pure.2 h

/-- `x` keeps the blocks typed, at any time after `b`. -/
def After {α : Type} (b : Builder) (x : Build α) : Prop :=
  ∀ b₁, Extends b b₁ → Spec x b₁ fun _ b' => Extends b b'

section

variable {α β : Type} {b : Builder}

theorem After.spec {x : Build α} (h : After b x) : Spec x b fun _ b' => Extends b b' :=
  h b (Extends.refl b)

theorem after_of_spec {x : Build α} (h : ∀ b, Spec x b fun _ b' => Extends b b') : After b x :=
  fun b₁ h₁ => (h b₁).mono fun _ _ h₂ => h₁.trans h₂

theorem after_bind {x : Build β} {f : β → Build α} (hx : After b x) (hf : ∀ a, After b (f a)) :
    After b (x >>= f) :=
  fun b₁ h₁ => spec_bind.2 ((hx b₁ h₁).mono fun a b₂ h₂ => hf a b₂ h₂)

theorem after_pure (a : α) : After b (pure a : Build α) := fun _ h₁ => spec_pure.2 h₁

theorem after_newBlock (line : Int) : After b (newBlock line) :=
  fun _ h₁ => spec_newBlock.2 (h₁.trans (extends_newBlock _))

theorem after_enter (i : Nat) : After b (enter i) :=
  fun b₁ h₁ => spec_enter.2 (h₁.trans (extends_context i b₁.loops))

theorem after_current : After b current := fun _ h₁ => spec_current.2 h₁

theorem after_firstLine (ss : List Stmt) : After b (firstLine ss) :=
  fun _ h₁ => spec_firstLine fun _ => h₁

theorem after_setTerm (i : Nat) {u : Terminator} (hu : TermFits b.table u) :
    After b (setTerm i u) :=
  fun _ h₁ => spec_setTerm.2 (h₁.trans (extends_term (hu.mono h₁.table)))

theorem after_setMissingTerm (i : Nat) {u : Terminator} (hu : TermFits b.table u) :
    After b (setMissingTerm i u) :=
  fun _ h₁ => spec_setMissingTerm.2 (h₁.trans (extends_missingTerm (hu.mono h₁.table)))

theorem after_terminate {u : Terminator} (line : Int) (hu : TermFits b.table u) :
    After b (terminate u line) :=
  after_bind after_current fun i => after_bind (after_setTerm i hu) fun _ =>
    after_bind (after_newBlock line) fun j => after_enter j

theorem after_loops (f : List (Nat × Nat) → List (Nat × Nat)) :
    After b (modify fun b => { b with loops := f b.loops } : Build Unit) :=
  fun b₁ h₁ => spec_modify.2 (h₁.trans (extends_context b₁.current _))

theorem after_invoke (x : Option String) (f : Exp) (args : List Exp) (line : Int) :
    After b (invoke x f args line) :=
  after_of_spec fun _ => spec_invoke fun _ _ hl hc => extends_emit hl (hc.fits hl)

theorem after_store (x : String) (value : Exp) (line : Int) : After b (store x value line) :=
  after_of_spec fun _ => spec_store fun _ _ hl hs => extends_emit hl (hs.fits hl)

theorem after_declareVar (x : String) (u : Ty) (line : Int) : After b (declareVar x u line) :=
  after_of_spec fun _ => spec_declareVar fun _ _ _ _ hl _ _ => extends_table hl

theorem after_checkDeclared (x : String) (u : Ty) (line : Int) : After b (checkDeclared x u line) :=
  fun _ h₁ => spec_checkDeclared h₁

/-- What conditions say, one after the other. -/
def Parses (ss : List String) (es : List Expr) : Prop :=
  List.Forall₂ (fun s e => parse s = .ok e) ss es

theorem spec_parseAll {ss : List String} {Q : List Expr → Builder → Prop}
    (h : ∀ es, Parses ss es → Q es b) :
    Spec (parseAll ss) b Q := by
  induction ss generalizing Q with
  | nil => exact spec_pure.2 (h [] .nil)
  | cons s ss ih =>
    simp only [parseAll, spec_bind, spec_lift, spec_pure]
    exact fun e he => ih fun es hes => h (e :: es) (.cons he hes)

/-- The conjunction of `es`, if there are any, with the types of the table. -/
def Conjoins (t : Table) (es : List Expr) (inv : Option Expr) : Prop :=
  (es = [] ∧ inv = none) ∨
    (es ≠ [] ∧ ∃ e, (Expr.conjoin es).resolve t = .ok e ∧ e.typeOf = .ok .bool ∧ inv = some e)

theorem Conjoins.fits {t : Table} {es : List Expr} {inv : Option Expr} (h : Conjoins t es inv) :
    ∀ e, inv = some e → e.In t ∧ e.typeOf = .ok .bool := by
  rintro e rfl
  rcases h with ⟨-, h⟩ | ⟨-, e', hr, hty, h⟩
  · cases h
  · cases h
    exact ⟨Expr.in_of_resolve hr, hty⟩

theorem Conjoins.mono {t t' : Table} {es : List Expr} {inv : Option Expr} (h : Conjoins t es inv)
    (hl : t.Le t') :
    Conjoins t' es inv :=
  h.imp_right fun ⟨hne, e, hr, hty, he⟩ => ⟨hne, e, Expr.resolve_mono hl hr, hty, he⟩

theorem spec_invariant {es : List Expr} {line : Int} {Q : Option Expr → Builder → Prop}
    (h : ∀ inv, Conjoins b.table es inv → Q inv b) : Spec (invariant es line) b Q := by
  unfold invariant
  split
  · rename_i hempty
    exact spec_pure.2 (h none (.inl ⟨List.isEmpty_iff.1 hempty, rfl⟩))
  · rename_i hne
    simp only [spec_bind, spec_get, spec_typed, spec_pure]
    intro e he c hc
    obtain ⟨rfl, hty⟩ := Expr.asCondition_ok hc
    exact h (some c) (.inr ⟨fun hnil => hne (List.isEmpty_iff.2 hnil), c, he, hty, rfl⟩)

end

/-! ## statements -/

theorem extends_ret (sp : Span) (v : Exp) (b : Builder) :
    Spec (Stmt.ret sp (some v)).lower b fun _ b' => Extends b b' := by
  unfold Stmt.lower
  rw [spec_bind]
  refine spec_expression fun a u hu => ?_
  simp only [spec_bind, spec_get]
  split
  · simp
  · split
    · simp
    · rename_i ht
      simp only [ne_eq, Decidable.not_not] at ht
      refine (after_terminate sp.line (u := .ret (some a)) fun w hw => ?_).spec
      cases hw
      exact ⟨hu.declared, ht ▸ hu.type⟩

theorem extends_cond (sp : Span) (t : Exp) {body orElse : List Stmt} (b : Builder)
    (hbody : ∀ b, Spec (Stmt.lowerL body) b fun _ b' => Extends b b')
    (hother : ∀ b, Spec (Stmt.lowerL orElse) b fun _ b' => Extends b b') :
    Spec (Stmt.cond sp t body orElse).lower b fun _ b' => Extends b b' := by
  unfold Stmt.lower
  rw [spec_bind]
  refine spec_guard fun a u hu => ?_
  have hg : ∀ i j, TermFits b.table (.branch (asGuard a u) i j) := fun i j => asGuard_fits hu
  refine After.spec (after_bind after_current fun branch => after_bind (after_firstLine _) fun l =>
    after_bind (after_newBlock l) fun onTrue => after_bind (after_enter onTrue) fun _ =>
    after_bind (after_of_spec hbody) fun _ => after_bind after_current fun trueEnd => ?_)
  split
  · exact after_bind (after_pure _) fun falsePart => after_bind (after_newBlock _) fun join =>
      after_bind (after_setTerm branch (hg _ _)) fun _ => after_bind (after_setMissingTerm _ trivial) fun _ => by
        cases falsePart with
        | none => exact after_enter _
        | some p => exact after_bind (after_setMissingTerm _ trivial) fun _ => after_enter _
  · exact after_bind (after_firstLine _) fun l => after_bind (after_newBlock l) fun onFalse =>
      after_bind (after_enter onFalse) fun _ => after_bind (after_of_spec hother) fun _ => after_bind after_current fun _ =>
      after_bind (after_pure _) fun falsePart => after_bind (after_newBlock _) fun join =>
      after_bind (after_setTerm branch (hg _ _)) fun _ => after_bind (after_setMissingTerm _ trivial) fun _ => by
        cases falsePart with
        | none => exact after_enter _
        | some p => exact after_bind (after_setMissingTerm _ trivial) fun _ => after_enter _

theorem extends_loop (sp : Span) (t : Exp) {body : List Stmt} (orElse : List Stmt) (b : Builder)
    (hbody : ∀ b, Spec (Stmt.lowerLoopBody body) b fun _ b' => Extends b b') :
    Spec (Stmt.loop sp t body orElse).lower b fun _ b' => Extends b b' := by
  unfold Stmt.lower
  rw [spec_bind]
  refine spec_parseAll fun invs _ => ?_
  refine After.spec (after_bind (after_newBlock _) fun header => after_bind after_current fun i =>
    after_bind (after_setTerm i (u := .goto header) trivial) fun _ => after_bind (after_enter header) fun _ => ?_)
  refine after_of_spec fun b₁ => ?_
  rw [spec_bind]
  refine spec_guard fun a u hu => ?_
  have hg : ∀ i j, TermFits b₁.table (.branch (asGuard a u) i j) := fun i j => asGuard_fits hu
  refine After.spec (after_bind (after_newBlock _) fun start => after_bind (after_newBlock _) fun exit =>
    after_bind (after_setTerm header (hg _ _)) fun _ => after_bind (after_loops _) fun _ =>
    after_bind (after_enter start) fun _ => after_bind (after_of_spec hbody) fun _ => after_bind after_current fun j =>
    after_bind (after_setMissingTerm j (u := .goto header) trivial) fun _ => after_bind (after_loops (List.drop 1)) fun _ => ?_)
  refine after_of_spec fun b₂ => ?_
  rw [spec_bind]
  refine spec_invariant fun inv hinv => ?_
  simp only [spec_bind, spec_editBlock, spec_enter]
  exact (extends_modify (f := fun k => { k with invariant := inv }) fun k hk => ⟨hk.ops, hk.term, hinv.fits⟩).trans
    (extends_context _ _)

mutual

theorem extends_lower (s : Stmt) (b : Builder) : Spec s.lower b fun _ b' => Extends b b' := by
  cases s with
  | assign sp ts v =>
    unfold Stmt.lower
    split
    · exact (after_store _ v sp.line).spec
    · exact spec_fault
    · exact spec_fault
  | declare sp t u v =>
    unfold Stmt.lower
    split
    · refine (after_bind (after_checkDeclared _ _ _) fun _ => after_bind (after_declareVar _ _ _) fun _ => ?_).spec
      cases v with
      | none => exact after_pure _
      | some v => exact after_store _ v sp.line
    · exact spec_fault
  | exp sp v =>
    unfold Stmt.lower
    split
    · exact (after_invoke none _ _ sp.line).spec
    · exact spec_fault
  | pass sp => exact (after_pure _).spec
  | ret sp v =>
    cases v with
    | none => exact (after_terminate sp.line (u := .ret none) fun v hv => by cases hv).spec
    | some v => exact extends_ret sp v b
  | cond sp t body orElse => exact extends_cond sp t b (extends_lowerL body) (extends_lowerL orElse)
  | loop sp t body orElse => exact extends_loop sp t orElse b (extends_lowerLoopBody body)
  | brk sp | cont sp =>
    unfold Stmt.lower
    simp only [spec_bind, spec_get]
    split
    · exact (after_terminate (u := .goto _) sp.line trivial).spec
    · exact spec_fault
  | augment sp t op v => exact spec_raise
  | function sp x ps more body ds r => exact spec_raise
  | other sp k ps => exact spec_raise

theorem extends_lowerL (ss : List Stmt) (b : Builder) : Spec (Stmt.lowerL ss) b fun _ b' => Extends b b' := by
  cases ss with
  | nil => exact (after_pure _).spec
  | cons s ss =>
    unfold Stmt.lowerL
    exact (after_bind (after_of_spec (extends_lower s)) fun _ => after_of_spec (extends_lowerL ss)).spec

theorem extends_lowerLoopBody (ss : List Stmt) (b : Builder) :
    Spec (Stmt.lowerLoopBody ss) b fun _ b' => Extends b b' := by
  cases ss with
  | nil => exact (after_pure _).spec
  | cons s ss =>
    unfold Stmt.lowerLoopBody
    split
    · exact extends_lowerLoopBody ss b
    · exact (after_bind (after_of_spec (extends_lower s)) fun _ => after_of_spec (extends_lowerL ss)).spec

end

/-! ## bodies -/

theorem fits_buildGraph {t : Table} {sigs : Signatures} {line : Int} {body : List Stmt} {t' : Table}
    {g : Graph} (h : buildGraph t sigs line body = .ok (t', g)) :
    t.Le t' ∧ ∀ k ∈ g.blocks, BlockFits t' sigs k := by
  let start : Builder := { table := t, signatures := sigs, blocks := [{ line := some line }] }
  have hbody : Spec (lowerBody body) start fun _ b' => Extends start b' := by
    have hret : ∀ i, After start (setMissingTerm i (.ret none)) :=
      fun i => after_setMissingTerm i fun v hv => by cases hv
    unfold lowerBody
    cases body with
    | nil => exact (after_bind after_current fun i => hret i).spec
    | cons s ss =>
      simp only
      split
      · exact (after_bind (after_of_spec (extends_lowerL ss)) fun _ => after_bind after_current fun i => hret i).spec
      · exact (after_bind (after_of_spec (extends_lowerL (s :: ss))) fun _ => after_bind after_current fun i => hret i).spec
  unfold buildGraph at h
  cases hr : (lowerBody body).run start with
  | error e =>
    simp only [bind, Except.bind] at h
    rw [hr] at h
    cases h
  | ok p =>
    obtain ⟨⟨⟩, b'⟩ := p
    simp only [bind, Except.bind] at h
    rw [hr] at h
    cases h
    have hext := hbody () b' hr
    refine ⟨hext.table, fun k hk => ?_⟩
    have hstart : start.Fits := fun k hk => by
      rw [List.mem_singleton.1 hk]
      exact blockFits_empty _
    have hfit := hext.fits hstart k hk
    rw [hext.signatures] at hfit
    exact hfit

end ContractVerifier.Source
