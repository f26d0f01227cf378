import ContractVerifier.Proofs.Lower.Simulation

/-!
# Lowering keeps the meaning

A body that is lowered runs as its graph does: it ends, with a value and a store, exactly if the run
of the graph comes to a return with this value and store (`buildGraph_exact`).

* `Stmt.Plain` : what the check of the fragment guarantees and lowering takes for granted;
* `Stmt.KeepsTruth` : no unary plus turns a truth value into a number, as lowering drops it;
* `sim_lower` : a statement simulates its blocks.
-/

namespace ContractVerifier.Source

open ContractVerifier.Flow Build

/-! ## bodies -/

/-- No named arguments. -/
def Exp.Positional : Exp → Prop
  | .call _ _ _ keywords => keywords = []
  | _ => True

/-- No unary plus on a truth value gives this value, or an argument of this call. -/
def Exp.KeepsTruth (t : Table) : Exp → Prop
  | .call _ _ args _ => ∀ e ∈ args, e.plusOfTruth t = false
  | e => e.plusOfTruth t = false

mutual

/-- One target, no named arguments, and no `else` behind a loop. -/
def Stmt.Plain : Stmt → Prop
  | .assign _ ts v => (∃ sp x, ts = [.name sp x]) ∧ v.Positional
  | .declare _ _ _ v => ∀ e, v = some e → e.Positional
  | .exp _ v => v.Positional
  | .cond _ _ body orElse => Stmt.PlainL body ∧ Stmt.PlainL orElse
  | .loop _ _ body orElse => Stmt.PlainL body ∧ orElse = []
  | _ => True

def Stmt.PlainL : List Stmt → Prop
  | [] => True
  | s :: ss => s.Plain ∧ Stmt.PlainL ss

end

mutual

/-- What is stored, passed on or returned is not the unary plus of a truth value. -/
def Stmt.KeepsTruth (t : Table) : Stmt → Prop
  | .assign _ _ v => v.KeepsTruth t
  | .declare _ _ _ v => ∀ e, v = some e → e.KeepsTruth t
  | .exp _ v => v.KeepsTruth t
  | .ret _ v => ∀ e, v = some e → e.plusOfTruth t = false
  | .cond _ _ body orElse => Stmt.KeepsTruthL t body ∧ Stmt.KeepsTruthL t orElse
  | .loop _ _ body _ => Stmt.KeepsTruthL t body
  | _ => True

def Stmt.KeepsTruthL (t : Table) : List Stmt → Prop
  | [] => True
  | s :: ss => s.KeepsTruth t ∧ Stmt.KeepsTruthL t ss

end

/-- Callees give values of their declared types. -/
def Respects (I : Callees) (sigs : Signatures) : Prop :=
  ∀ f s vals, sigs.get? f = some s → (I f vals).Fits s.result

/-! ## operations -/

section

variable {z : Int → Int} {I : Callees} {b : Builder} {t T : Table} {op : Op} {s : Store}

/-- An operation that fits the table keeps the store typed. -/
theorem OpFits.run_typed (h : OpFits T b.signatures op) (hI : Respects I b.signatures)
    (hs : s.Typed T.types) :
    (op.run z I s).Typed T.types := by
  cases op with
  | assign x e =>
    obtain ⟨hx, -, hin, hty⟩ := h
    refine hs.set (.inr ?_)
    rw [← hx.types]
    exact Expr.type_eval hty fun v hv => by
      rw [(hin v hv).types]
      exact hs v.name
  | call x f args =>
    refine hs.bind fun w hw => ?_
    obtain ⟨hx, -, sig, hsig, hty⟩ := h.1 w hw
    rw [← hx.types, hty]
    exact hI f sig _ hsig

theorem Called.eval_eq {x : Option String} {f : Exp} {args : List Exp} (h : Called b x f args t op)
    (sp : Span) (hs : s.Agrees b.table) (hp : ∀ e ∈ args, e.plusOfTruth b.table = false) :
    ∃ v target, (Exp.call sp f args []).eval z I s = some v ∧ op.run z I s = s.bind target v ∧
      target.map (·.name) = x := by
  obtain ⟨sp', id, sig, as, target, rfl, -, -, has, -, rfl, hx, -⟩ := h
  refine ⟨I id (as.map (·.value z s)), target, ?_, rfl, hx⟩
  rw [Exp.eval, evalL_eq has hs hp]
  rfl

/-- The operation for `x = value` has the effect of the assignment. -/
theorem Stored.store_eq {x : String} {value : Exp} (h : Stored b x value t op)
    (hs : s.Agrees b.table) (hpos : value.Positional) (hp : value.KeepsTruth b.table) :
    Effect.store z I (some x) value s = some (.next, op.run z I s) := by
  rcases h with ⟨sp, f, args, ks, rfl, hc⟩ | ⟨hcall, v, a, ha, rfl, rfl, -, -⟩
  · cases hpos
    obtain ⟨v, target, hv, hrun, hx⟩ := hc.eval_eq (z := z) (I := I) sp hs hp
    obtain ⟨w, rfl, rfl⟩ := Option.map_eq_some_iff.1 hx
    simp only [Effect.store, hv, Option.bind_eq_bind, Option.bind_some, hrun]
    rfl
  · have hp : value.plusOfTruth b.table = false := by
      cases value with
      | call sp f args ks => cases hcall
      | _ => exact hp
    simp only [Effect.store, ha.eval_eq hs hp, Option.bind_eq_bind, Option.bind_some]
    rfl

theorem KeepsTruth.mono {t t' : Table} (hl : t.Le t') {e : Exp} (h : e.KeepsTruth t') : e.KeepsTruth t := by
  cases e with
  | call sp f args ks => exact fun e he => plusOfTruth_mono hl e (h e he)
  | _ => exact plusOfTruth_mono hl _ h

end

/-! ## statements -/

/-- From `b` to `b'` the statement `X` was laid out: in every graph that the blocks grow to, it
simulates the run from one current block to the other. -/
def Simulated (z : Int → Int) (I : Callees) (ok : Table → Prop) (X : Nat → Effect) (b : Builder)
    (ops : List Op) (b' : Builder) (ops' : List Op) : Prop :=
  ∀ (T : Table) (g : Graph), b'.table.Le T → Grows b'.blocks g.blocks → ok T → Respects I b.signatures →
    Sim z I g T.types (Leads z I g b.loops (b'.current, ops'.length)) (b.current, ops.length) X

/-- `x` lays out the statement `X`. -/
def LaysOut (z : Int → Int) (I : Callees) (ok : Table → Prop) (X : Nat → Effect) (x : Build Unit) :
    Prop :=
  ∀ b ops, Open b.blocks b.current ops →
    Spec x b fun _ b' => ∃ ops', Lays b b' ops' ∧ Simulated z I ok X b ops b' ops'

section

variable {z : Int → Int} {I : Callees} {ok : Table → Prop} {X Y : Nat → Effect} {b b' : Builder} {ops : List Op}

theorem LaysOut.congr {x : Build Unit} {ok' : Table → Prop} (h : LaysOut z I ok X x)
    (hok : ∀ T, ok' T → ok T) (hX : ∀ n, Y n = X n) : LaysOut z I ok' Y x := by
  intro b ops ho
  refine (h b ops ho).mono ?_
  rintro - b' ⟨ops', hl, hs⟩
  rw [funext hX]
  exact ⟨ops', hl, fun T g hT hg hok' hI => hs T g hT hg (hok T hok') hI⟩

theorem laysOut_skip (hX : ∀ n, X n = Effect.skip) : LaysOut z I ok X (pure ()) := by
  intro b ops ho
  rw [spec_pure]
  refine ⟨ops, Lays.refl ho, fun T g _ _ _ _ => ?_⟩
  rw [funext hX]
  exact sim_skip

/-- One operation at the end of the current block. -/
theorem simulated_op {t : Table} {op : Op} (ho : Open b.blocks b.current ops)
    (hfit : OpFits t b.signatures op)
    (hX : ∀ T s m, ok T → t.Le T → s.Typed T.types → X m s = some (.next, op.run z I s)) :
    Simulated z I ok X b ops (b.emit t op) (ops ++ [op]) := by
  intro T g hT hg hok hI
  refine .of_step (fun _ => .next) (op.run z I) (fun m s hs => hX T s m hok hT hs)
    (fun s hs => (hfit.mono hT).run_typed hI hs) fun n s o _ => ?_
  exact goesTo_op hg (ho.emit op)

/-- The current block ends here. -/
theorem simulated_term {t : Terminator} {line : Int} (sig : Store → Signal)
    (ho : Open b.blocks b.current ops)
    (hX : ∀ T s m, ok T → b.table.Le T → s.Typed T.types → X m s = some (sig s, s))
    (ht : ∀ (g : Graph) n s o, t.leave z (g.run z I n) s = some o ↔
      Leads z I g b.loops (b.blocks.length, 0) n (sig s) s o) :
    Simulated z I ok X b ops { b with
      blocks := (b.blocks.modify b.current fun k => { k with term := some t }) ++ [({ line := some line } : Block)],
      current := b.blocks.length } [] := by
  intro T g hT hg hok hI
  refine .of_step sig id (fun m s hs => hX T s m hok hT hs) (fun s hs => hs) fun n s o _ => ?_
  have hclosed := (ho.close t).grows (grows_append [({ line := some line } : Block)])
  exact (goesTo_term hg hclosed).trans (ht g n s o)

theorem laysOut_store {x : String} {v : Exp} {line : Int} (hpos : v.Positional) :
    LaysOut z I (fun T => v.KeepsTruth T) (fun _ => Effect.store z I (some x) v) (store x v line) := by
  intro b ops ho
  refine spec_store fun t op hl hst => ⟨_, lays_emit ho t op, simulated_op ho (hst.fits hl) fun T s m hok hT hs => ?_⟩
  exact hst.store_eq (hs.agrees (hl.trans hT)) hpos (KeepsTruth.mono (hl.trans hT) hok)

theorem laysOut_terminate {t : Terminator} {line : Int} {sig : Store → Signal}
    (hX : ∀ n s, X n s = some (sig s, s))
    (ht : ∀ (g : Graph) ls q n s o, t.leave z (g.run z I n) s = some o ↔ Leads z I g ls q n (sig s) s o) :
    LaysOut z I ok X (terminate t line) := by
  intro b ops ho
  rw [spec_terminate]
  exact ⟨[], lays_terminate ho t line, simulated_term sig ho (fun T s m _ _ _ => hX m s) fun g n s o => ht g _ _ n s o⟩

theorem LaysOut.andThen {x y : Build Unit} {ok' : Table → Prop} (hx : LaysOut z I ok X x)
    (hy : LaysOut z I ok' Y y) (hext : ∀ b, Spec x b fun _ b' => Extends b b')
    (hext' : ∀ b, Spec y b fun _ b' => Extends b b') (hX : ∀ {n m}, n ≤ m → (X n).Le (X m))
    (hY : ∀ {n m}, n ≤ m → (Y n).Le (Y m)) :
    LaysOut z I (fun T => ok T ∧ ok' T) (fun n => (X n).andThen (Y n)) (x >>= fun _ => y) := by
  intro b ops ho
  rw [spec_bind]
  refine ((hext b).and (hx b ops ho)).mono ?_
  rintro - b₁ ⟨he₁, ops₁, hl₁, hs₁⟩
  refine ((hext' b₁).and (hy b₁ ops₁ hl₁.ready)).mono ?_
  rintro - b₂ ⟨he₂, ops₂, hl₂, hs₂⟩
  refine ⟨ops₂, hl₁.trans hl₂, fun T g hT hg hok hI => ?_⟩
  have h₁ := hs₁ T g (he₂.table.trans hT) (hl₂.grows.trans hg) hok.1 hI
  have h₂ := hs₂ T g hT hg hok.2 (he₁.signatures ▸ hI)
  rw [hl₁.loops] at h₂
  exact h₁.andThen h₂ hX hY

section

variable {test : Store → Option Bool} {e : Expr} {ok' : Table → Prop} {b₂ b₄ : Builder} {ops₂ ops₄ : List Op}
  {l l' : Int}

/-- A conditional without `else`. -/
theorem laid_if (line : Int) (ho : Open b.blocks b.current ops) (hle : b.table.Le b₂.table)
    (hl : Lays (b.newArm l) b₂ ops₂) (hs : Simulated z I ok X (b.newArm l) [] b₂ ops₂)
    (ht : ∀ (T : Table) (s : Store), b.table.Le T → s.Typed T.types → test s = some (decide (e.Holds z s.read))) :
    let b' := b₂.join line b.current b₂.current fun j => .branch e b.blocks.length j
    Lays b b' [] ∧ Simulated z I ok (fun n s => do if ← test s then X n s else Effect.skip s) b ops b' [] := by
  obtain ⟨hbranch, hne⟩ := hl.wait ho
  have hgrows : Grows b₂.blocks (b₂.join line b.current b₂.current fun j => .branch e b.blocks.length j).blocks :=
    grows_join hbranch hl.ready hne
  refine ⟨⟨hl.grows_arm.trans hgrows, hl.loops, .inr hl.grows_arm.length_le, fun i os hi hoi => ?_,
    open_join hbranch hl.ready⟩, fun T g hT hg hok hI => ?_⟩
  · obtain ⟨hoi, hne'⟩ := hl.wait hoi
    exact open_join_other hoi hi hne'
  · have hX := (hs T g hT (hgrows.trans hg) hok hI).goto hg (closed_join_end hl.ready hne)
    exact hX.cond sim_skip (fun s => ht T s (hle.trans hT))
      (goesTo_term hg (closed_join_branch hbranch hl.ready hne))

/-- A conditional with both arms. -/
theorem laid_ifElse (line : Int) (ho : Open b.blocks b.current ops) (hle : Extends (b.newArm l) b₂)
    (hl : Lays (b.newArm l) b₂ ops₂) (hs : Simulated z I ok X (b.newArm l) [] b₂ ops₂)
    (hle' : Extends (b₂.newArm l') b₄) (hl' : Lays (b₂.newArm l') b₄ ops₄)
    (hs' : Simulated z I ok' Y (b₂.newArm l') [] b₄ ops₄)
    (ht : ∀ (T : Table) (s : Store), b.table.Le T → s.Typed T.types → test s = some (decide (e.Holds z s.read))) :
    let b₅ := b₄.join line b.current b₂.current fun _ => .branch e b.blocks.length b₂.blocks.length
    let b' := b₅.joinAlso b₄.current
    Lays b b' [] ∧ Simulated z I (fun T => ok T ∧ ok' T) (fun n s => do if ← test s then X n s else Y n s) b ops b' [] := by
  intro b₅ b'
  obtain ⟨hbranch, hne⟩ := hl.wait ho
  obtain ⟨hbranch', hne'⟩ := hl'.wait hbranch
  obtain ⟨hend, hne''⟩ := hl'.wait hl.ready
  have hgrows : Grows b₄.blocks b₅.blocks := grows_join hbranch' hend hne
  have hlast : Open b₅.blocks b₄.current ops₄ :=
    open_join_other hl'.ready (Ne.symm hne') (Ne.symm hne'')
  have hgrows' : Grows b₅.blocks b'.blocks := hlast.grows_missingTerm (.goto b₄.blocks.length)
  refine ⟨⟨(hl.grows_arm.trans hl'.grows_arm).trans (hgrows.trans hgrows'), hl'.loops.trans hl.loops,
    .inr (Nat.le_trans hl.grows_arm.length_le hl'.grows_arm.length_le), fun i os hi hoi => ?_, ?_⟩,
    fun T g hT hg hok hI => ?_⟩
  · obtain ⟨hoi, hi₂⟩ := hl.wait hoi
    obtain ⟨hoi, hi₄⟩ := hl'.wait hoi
    exact (open_join_other hoi hi hi₂).modify_ne (Ne.symm hi₄) _
  · exact (open_join hbranch' hend).modify_ne (Nat.ne_of_lt hl'.ready.lt) _
  · have hX := (hs T g (hle'.table.trans hT) ((hl'.grows_arm.trans (hgrows.trans hgrows')).trans hg) hok.1 hI).goto hg
      ((closed_join_end hend hne).grows hgrows')
    have hY := (hs' T g hT ((hgrows.trans hgrows').trans hg) hok.2 (hle.signatures ▸ hI)).goto hg
      (hlast.closeMissing _)
    rw [show (b₂.newArm l').loops = b.loops from hl.loops] at hY
    exact hX.cond hY (fun s => ht T s ((hle.table.trans hle'.table).trans hT))
      (goesTo_term hg ((closed_join_branch hbranch' hend hne).grows hgrows'))

/-- A loop. -/
theorem laid_loop {l₁ l₂ l₃ : Int} {inv : Option Expr} (ho : Open b.blocks b.current ops)
    (hle : b.table.Le b₂.table)
    (hl : Lays (b.enterLoop l₁ l₂ l₃ e) b₂ ops₂)
    (hs : Simulated z I ok X (b.enterLoop l₁ l₂ l₃ e) [] b₂ ops₂)
    (hX : ∀ {n m}, n ≤ m → (X n).Le (X m))
    (ht : ∀ (T : Table) (s : Store), b.table.Le T → s.Typed T.types → test s = some (decide (e.Holds z s.read))) :
    let b' := b₂.leaveLoop b.blocks.length (b.blocks.length + 1 + 1) inv
    Lays b b' [] ∧ Simulated z I ok (fun n => Effect.rounds test (X n) Effect.skip n) b ops b' [] := by
  obtain ⟨hgrows, hback, hhead, -, hexit, hframe⟩ := enterLoop_blocks (e := e) ho
  obtain ⟨hgrows', hend, hframe'⟩ := leaveLoop_blocks hl.ready
  -- the header and the end of the loop are no blocks of the body
  have hwait : ∀ i os, i ≠ b.blocks.length → i ≠ b.blocks.length + 1 → Open (b.enterLoop l₁ l₂ l₃ e).blocks i os →
      Open (b₂.leaveLoop b.blocks.length (b.blocks.length + 1 + 1) inv).blocks i os :=
    fun i os hi hi' hoi => hframe' i os (hl.ne_current hi' hoi) hi (hl.frame i os hi' hoi)
  refine ⟨⟨(hgrows.trans hl.grows).trans hgrows', ?_, .inr ?_, fun i os hi hoi => ?_, ?_⟩, fun T g hT hg hok hI => ?_⟩
  · show b₂.loops.drop 1 = b.loops
    rw [hl.loops]
    rfl
  · show b.blocks.length ≤ b.blocks.length + 1 + 1
    omega
  · have hlt := hoi.lt
    exact hwait i os (by omega) (by omega) (hframe i os hi hoi)
  · exact hwait (b.blocks.length + 1 + 1) [] (by omega) (by omega) hexit
  · have hB := (hs T g hT (hgrows'.trans hg) hok hI).goto hg hend
    have hclosed : ∀ {i os t}, Closed (b.enterLoop l₁ l₂ l₃ e).blocks i os t →
        Closed (b₂.leaveLoop b.blocks.length (b.blocks.length + 1 + 1) inv).blocks i os t :=
      fun h => (h.grows hl.grows).grows hgrows'
    exact (hB.loop hX (fun s => ht T s (hle.trans hT)) (goesTo_term hg (hclosed hhead))).after_goto
      (goesTo_term hg (hclosed hback))

end

end

/-- The text of an invariant is no argument of a call that is lowered. -/
theorem isInvariant_of_translated {t : Table} {sp sp' : Span} {f : Exp} {args : List Exp}
    {ks : List Part} {as : List Expr}
    (h : List.Forall₂ (fun e a => ∃ u, Translates t e a u) args as) :
    (Stmt.exp sp (.call sp' f args ks)).isInvariant = false := by
  unfold Stmt.isInvariant Stmt.invariantText
  split
  · rename_i heq
    cases heq
    cases h with
    | cons he _ =>
      obtain ⟨u, a₀, h₀, -⟩ := he
      cases h₀
  · rfl

section

variable {z : Int → Int} {I : Callees} {sp : Span}

/-! ## one statement after the other -/

theorem laysOut_declare {t u : Exp} {v : Option Exp} (hpos : ∀ e, v = some e → e.Positional) :
    LaysOut z I (fun T => (Stmt.declare sp t u v).KeepsTruth T) ((Stmt.declare sp t u v).exec z I)
      (Stmt.declare sp t u v).lower := by
  unfold Stmt.lower
  split
  · rename_i sp' x
    intro b ops ho
    simp only [spec_bind]
    refine spec_checkDeclared (spec_declareVar fun w t' _ _ _ _ _ => ?_)
    cases v with
    | none =>
      rw [spec_pure]
      exact ⟨ops, ⟨Grows.refl _, rfl, .inl rfl, fun _ _ _ h => h, ho⟩, fun T g _ _ _ _ => sim_skip⟩
    | some v =>
      refine (laysOut_store (z := z) (I := I) (hpos v rfl) { b with table := t' } ops ho).mono ?_
      rintro - b' ⟨ops', hl, hs⟩
      exact ⟨ops', ⟨hl.grows, hl.loops, hl.current, hl.frame, hl.ready⟩,
        fun T g hT hg hok hI => hs T g hT hg (hok v rfl) hI⟩
  · exact fun _ _ _ => spec_fault

theorem laysOut_exp {v : Exp} (hpos : v.Positional) :
    LaysOut z I (fun T => v.KeepsTruth T) ((Stmt.exp sp v).exec z I) (Stmt.exp sp v).lower := by
  unfold Stmt.lower
  split
  · rename_i sp' f args ks
    cases hpos
    intro b ops ho
    refine spec_invoke fun t op hl hc => ⟨_, lays_emit ho t op, simulated_op ho (hc.fits hl) fun T s m hok hT hs => ?_⟩
    have hplus : ∀ e ∈ args, e.plusOfTruth b.table = false :=
      fun e he => plusOfTruth_mono (hl.trans hT) e (hok e he)
    obtain ⟨v, target, hv, hrun, hx⟩ :=
      hc.eval_eq (z := z) (I := I) sp' (hs.agrees (hl.trans hT)) hplus
    have hinv : (Stmt.exp sp (.call sp' f args [])).isInvariant = false := by
      obtain ⟨_, _, _, as, _, _, _, _, has, -⟩ := hc
      exact isInvariant_of_translated has
    rw [Option.map_eq_none_iff] at hx
    subst hx
    rw [hrun]
    simp only [Stmt.exec, hinv, hv]
    rfl
  · exact fun _ _ _ => spec_fault

theorem laysOut_ret {v : Option Exp} :
    LaysOut z I (fun T => (Stmt.ret sp v).KeepsTruth T) ((Stmt.ret sp v).exec z I) (Stmt.ret sp v).lower := by
  cases v with
  | none =>
    exact laysOut_terminate (fun _ _ => rfl) fun g ls q n s o =>
      ⟨fun h => (Option.some.inj h).symm, fun h => congrArg some h.symm⟩
  | some v =>
    intro b ops ho
    unfold Stmt.lower
    rw [spec_bind]
    refine spec_expression fun a u hu => ?_
    simp only [spec_bind, spec_get]
    split
    · simp
    · split
      · simp
      · rw [spec_terminate]
        refine ⟨[], lays_terminate ho _ _, simulated_term (fun s => .ret (some (a.value z s))) ho
          (fun T s m hok hT hs => ?_) fun g n s o =>
          ⟨fun h => (Option.some.inj h).symm, fun h => congrArg some h.symm⟩⟩
        simp only [Stmt.exec, hu.eval_eq (hs.agrees hT) (plusOfTruth_mono hT v (hok v rfl))]
        rfl

theorem laysOut_brk {ok : Table → Prop} : LaysOut z I ok ((Stmt.brk sp).exec z I) (Stmt.brk sp).lower := by
  intro b ops ho
  unfold Stmt.lower
  simp only [spec_bind, spec_get]
  split
  · rename_i head exit rest hloops
    rw [spec_terminate]
    refine ⟨[], lays_terminate ho _ _, simulated_term (fun _ => .brk) ho (fun T s m _ _ _ => rfl) fun g n s o => ?_⟩
    simp [Leads, hloops, Terminator.leave]
  · exact spec_fault

theorem laysOut_cont {ok : Table → Prop} : LaysOut z I ok ((Stmt.cont sp).exec z I) (Stmt.cont sp).lower := by
  intro b ops ho
  unfold Stmt.lower
  simp only [spec_bind, spec_get]
  split
  · rename_i head exit rest hloops
    rw [spec_terminate]
    refine ⟨[], lays_terminate ho _ _, simulated_term (fun _ => .cont) ho (fun T s m _ _ _ => rfl) fun g n s o => ?_⟩
    simp [Leads, hloops, Terminator.leave]
  · exact spec_fault

theorem laysOut_cond {t : Exp} {body orElse : List Stmt}
    (hbody : LaysOut z I (fun T => Stmt.KeepsTruthL T body) (fun n => Stmt.execL z I n body) (Stmt.lowerL body))
    (hother : LaysOut z I (fun T => Stmt.KeepsTruthL T orElse) (fun n => Stmt.execL z I n orElse) (Stmt.lowerL orElse)) :
    LaysOut z I (fun T => (Stmt.cond sp t body orElse).KeepsTruth T) ((Stmt.cond sp t body orElse).exec z I)
      (Stmt.cond sp t body orElse).lower := by
  intro b ops ho
  unfold Stmt.lower
  rw [spec_bind]
  refine spec_guard fun a u hu => ?_
  have ht : ∀ (T : Table) (s : Store), b.table.Le T → s.Typed T.types →
      t.truth? z I s = some (decide ((asGuard a u).Holds z s.read)) := fun T s hT hs => hu.truth?_eq (hs.agrees hT)
  simp only [spec_bind, spec_current]
  refine spec_firstLine fun l => ?_
  simp only [spec_newBlock, spec_enter]
  refine ((extends_lowerL body (b.newArm l)).and (hbody _ _ (open_newArm b l))).mono ?_
  rintro - b₂ ⟨he, ops₂, hl, hs⟩
  by_cases hempty : orElse.isEmpty = true
  · have horElse : orElse = [] := List.isEmpty_iff.1 hempty
    subst horElse
    simp only [List.isEmpty_nil, if_true, pure_bind, spec_bind, spec_newBlock, spec_setTerm,
      spec_setMissingTerm, spec_enter]
    have hlaid := laid_if sp.endLine ho he.table hl hs ht
    exact ⟨[], hlaid.1, fun T g hT hg hok hI => hlaid.2 T g hT hg hok.1 hI⟩
  · simp only [hempty, Bool.false_eq_true, if_false, spec_bind]
    refine spec_firstLine fun l' => ?_
    simp only [spec_newBlock, spec_enter]
    refine ((extends_lowerL orElse (b₂.newArm l')).and (hother _ _ (open_newArm b₂ l'))).mono ?_
    rintro - b₄ ⟨he', ops₄, hl', hs'⟩
    simp only [spec_current, spec_setTerm, spec_setMissingTerm, spec_pure, spec_bind, spec_enter]
    exact ⟨[], laid_ifElse sp.endLine ho he hl hs he' hl' hs' ht⟩

theorem laysOut_loop {t : Exp} {body : List Stmt}
    (hbody : LaysOut z I (fun T => Stmt.KeepsTruthL T body) (fun n => Stmt.execL z I n body) (Stmt.lowerLoopBody body)) :
    LaysOut z I (fun T => (Stmt.loop sp t body []).KeepsTruth T) ((Stmt.loop sp t body []).exec z I)
      (Stmt.loop sp t body []).lower := by
  intro b ops ho
  unfold Stmt.lower
  rw [spec_bind]
  refine spec_parseAll fun invs _ => ?_
  simp only [spec_bind, spec_newBlock, spec_current, spec_setTerm, spec_enter]
  refine spec_guard fun a u hu => ?_
  have ht : ∀ (T : Table) (s : Store), b.table.Le T → s.Typed T.types →
      t.truth? z I s = some (decide ((asGuard a u).Holds z s.read)) := fun T s hT hs => hu.truth?_eq (hs.agrees hT)
  simp only [spec_modify, List.length_append, List.length_modify, List.length_singleton]
  let l := ((body.dropWhile Stmt.isInvariant).head?.map Stmt.line).getD sp.line
  let b₁ := b.enterLoop sp.line l sp.endLine (asGuard a u)
  have hopen : Open b₁.blocks b₁.current [] := (enterLoop_blocks ho).2.2.2.1
  refine ((extends_lowerLoopBody body b₁).and (hbody b₁ [] hopen)).mono ?_
  rintro - b₂ ⟨he, ops₂, hl, hs⟩
  rw [spec_setMissingTerm]
  refine spec_invariant fun inv _ => ?_
  rw [spec_editBlock]
  exact ⟨[], laid_loop ho he.table hl hs (fun h => execL_mono h body) ht⟩

mutual

theorem sim_lower (s : Stmt) (hp : s.Plain) : LaysOut z I (fun T => s.KeepsTruth T) (s.exec z I) s.lower := by
  cases s with
  | assign sp ts v =>
    obtain ⟨⟨sp', x, rfl⟩, hpos⟩ := hp
    exact laysOut_store hpos
  | declare sp t u v => exact laysOut_declare hp
  | exp sp v => exact laysOut_exp hp
  | pass sp => exact laysOut_skip fun _ => rfl
  | ret sp v => exact laysOut_ret
  | cond sp t body orElse => exact laysOut_cond (sim_lowerL body hp.1) (sim_lowerL orElse hp.2)
  | loop sp t body orElse =>
    obtain ⟨hbody, rfl⟩ := hp
    exact laysOut_loop (sim_lowerLoopBody body hbody)
  | brk sp => exact laysOut_brk
  | cont sp => exact laysOut_cont
  | augment sp t op v => exact fun _ _ _ => spec_raise
  | function sp x ps more body ds r => exact fun _ _ _ => spec_raise
  | other sp k ps => exact fun _ _ _ => spec_raise

theorem sim_lowerL (ss : List Stmt) (hp : Stmt.PlainL ss) :
    LaysOut z I (fun T => Stmt.KeepsTruthL T ss) (fun n => Stmt.execL z I n ss) (Stmt.lowerL ss) := by
  cases ss with
  | nil => exact laysOut_skip fun _ => rfl
  | cons s ss =>
    exact (sim_lower s hp.1).andThen (sim_lowerL ss hp.2) (extends_lower s) (extends_lowerL ss) (fun h => exec_mono h s)
      fun h => execL_mono h ss

theorem sim_lowerLoopBody (ss : List Stmt) (hp : Stmt.PlainL ss) :
    LaysOut z I (fun T => Stmt.KeepsTruthL T ss) (fun n => Stmt.execL z I n ss) (Stmt.lowerLoopBody ss) := by
  cases ss with
  | nil => exact laysOut_skip fun _ => rfl
  | cons s ss =>
    unfold Stmt.lowerLoopBody
    by_cases hinv : s.isInvariant = true
    · rw [if_pos hinv]
      refine (sim_lowerLoopBody ss hp.2).congr (fun T h => h.2) fun n => ?_
      rw [Stmt.execL, exec_of_isNote (Stmt.isNote_of_isInvariant hinv)]
      rfl
    · rw [if_neg hinv]
      exact (sim_lower s hp.1).andThen (sim_lowerL ss hp.2) (extends_lower s) (extends_lowerL ss) (fun h => exec_mono h s)
        fun h => execL_mono h ss

end

/-! ## bodies -/

/-- The end of a body returns. -/
theorem LaysOut.spec_end {ok : Table → Prop} {X : Nat → Effect} {x : Build Unit}
    (h : LaysOut z I ok X x) {b : Builder} (ho : Open b.blocks b.current []) :
    Spec (do
      x
      setMissingTerm (← current) (.ret none)) b fun _ b' => ∃ b₁ ops, Simulated z I ok X b [] b₁ ops ∧
        b₁.table = b'.table ∧ Grows b₁.blocks b'.blocks ∧ Closed b'.blocks b₁.current ops (.ret none) := by
  simp only [spec_bind, spec_current]
  refine (h b [] ho).mono ?_
  rintro - b₁ ⟨ops, hl, hs⟩
  rw [spec_setMissingTerm]
  exact ⟨b₁, ops, hs, rfl, hl.ready.grows_missingTerm _, hl.ready.closeMissing _⟩

theorem spec_lowerBody {body : List Stmt} (hp : Stmt.PlainL body) {b : Builder}
    (ho : Open b.blocks b.current []) :
    Spec (lowerBody body) b fun _ b' => ∃ b₁ ops,
      Simulated z I (fun T => Stmt.KeepsTruthL T body) (fun n => Stmt.execL z I n body) b [] b₁ ops ∧
        b₁.table = b'.table ∧ Grows b₁.blocks b'.blocks ∧ Closed b'.blocks b₁.current ops (.ret none) := by
  unfold lowerBody
  cases body with
  | nil => exact (laysOut_skip fun _ => rfl).spec_end ho
  | cons s ss =>
    by_cases hdoc : s.isDocstring = true
    · simp only [hdoc, if_true]
      refine ((sim_lowerL ss hp.2).congr (fun T h => h.2) fun n => ?_).spec_end ho
      rw [Stmt.execL, exec_of_isNote (Stmt.isNote_of_isDocstring hdoc)]
      rfl
    · simp only [hdoc]
      exact (sim_lowerL (s :: ss) hp).spec_end ho

/-- A body in normal form that is lowered, run as the language runs it, ends with a given value and
store exactly if the run of its graph returns with them. -/
theorem buildGraph_exact {t T : Table} {sigs : Signatures} {line : Int} {body : List Stmt}
    {g : Graph} (hp : Stmt.PlainL body) (h : buildGraph t sigs line body = .ok (T, g))
    (hk : Stmt.KeepsTruthL T body) (hI : Respects I sigs) {s : Store} (hs : s.Typed T.types)
    (out : Option Value) (s' : Store) :
    Finishes z I body s out s' ↔ g.Finishes z I s out s' := by
  let start : Builder := { table := t, signatures := sigs, blocks := [{ line := some line }] }
  obtain ⟨⟨⟨⟩, b'⟩, hrun, h⟩ := exists_of_bind_ok h
  cases h
  have hopen : Open start.blocks start.current [] := ⟨_, rfl, rfl, rfl⟩
  obtain ⟨b₁, ops, hsim, htable, hgrows, hend⟩ :=
    spec_lowerBody (z := z) (I := I) hp hopen () b' hrun
  have hsim := hsim b'.table ⟨b'.blocks, 0⟩ (htable ▸ Table.Le.refl _) hgrows hk hI
  have hret : ∀ {n σ o}, goesTo z I ⟨b'.blocks, 0⟩ n (b₁.current, ops.length) σ o ↔ o = (none, σ) := by
    intro n σ o
    rw [goesTo_term (Grows.refl _) hend]
    exact ⟨fun h => (Option.some.inj h).symm, fun h => congrArg some h.symm⟩
  constructor
  · rintro ⟨n, sig, hx, hout⟩
    have hlead : Leads z I ⟨b'.blocks, 0⟩ [] (b₁.current, ops.length) 0 sig s' (out, s') := by
      cases sig with
      | next =>
        cases hout
        exact hret.2 rfl
      | ret v =>
        cases hout
        rfl
      | _ => cases hout
    obtain ⟨n', hn⟩ := hsim.fwd hs hx hlead
    exact ⟨n' + 1, run_iff.2 ⟨n', rfl, hn⟩⟩
  · rintro ⟨n, hn⟩
    obtain ⟨m, rfl, hm⟩ := run_iff.1 hn
    obtain ⟨k, sig, s₁, n', hx, -, hlead⟩ := hsim.bwd hs hm
    refine ⟨k, sig, ?_⟩
    cases sig with
    | next =>
      cases hret.1 hlead
      exact ⟨hx, rfl⟩
    | ret v =>
      cases hlead
      exact ⟨hx, rfl⟩
    | brk =>
      obtain ⟨l, hl, -⟩ := hlead
      cases hl
    | cont =>
      obtain ⟨l, hl, -⟩ := hlead
      cases hl

end

/-! ## a loop that is left -/

namespace Drain

def n : Exp := .name ⟨1, 1⟩ "n"

def k : Exp := .name ⟨1, 1⟩ "k"

def num (i : Int) : Exp := .constant ⟨1, 1⟩ (.int i)

/-- `while n: n = n - 1; if 0 < k < n: break; k = back(n)`, and then `return k`. -/
def body : List Stmt :=
  [.loop ⟨2, 6⟩ n
     [.assign ⟨3, 3⟩ [n] (.binary ⟨3, 3⟩ n .sub (num 1)),
      .cond ⟨4, 5⟩ (.compare ⟨4, 4⟩ (num 0) [.lt, .lt] [k, n]) [.brk ⟨5, 5⟩] [],
      .assign ⟨6, 6⟩ [k] (.call ⟨6, 6⟩ (.name ⟨6, 6⟩ "back") [n] [])] [],
   .ret ⟨7, 7⟩ (some k)]

def sigs : Signatures := ⟨[("back", ⟨"back", [⟨"x", .int⟩], .int⟩)]⟩

def table : Table := { args := ⟨[("n", .int), ("k", .int)]⟩, result := .int }

def nVar : Expr := .var ⟨"n", .int⟩

def kVar : Expr := .var ⟨"k", .int⟩

def graph : Graph :=
  ⟨[{ term := some (.goto 1), line := some 1 },
    { term := some (.branch (.bin .ne nVar (.num 0)) 2 3), line := some 2 },
    { ops := [.assign ⟨"n", .int⟩ (.bin .sub nVar (.num 1))],
      term := some (.branch (.bin .and (.bin .lt (.num 0) kVar) (.bin .lt kVar nVar)) 4 6), line := some 3 },
    { term := some (.ret (some kVar)), line := some 6 },
    { term := some (.goto 3), line := some 5 },
    { term := some (.goto 6), line := some 5 },
    { ops := [.call (some ⟨"k", .int⟩) "back" [nVar]], term := some (.goto 1), line := some 5 },
    { term := some (.ret none), line := some 7 }], 0⟩

theorem lower_eq : buildGraph table sigs 1 body = .ok (table, graph) := by decide +kernel

/-- Three less than the argument. -/
def back : Callees := fun _ vals => .int ((vals.headD (.int 0)).toInt - 3)

theorem respects_back : Respects back sigs := by
  intro f s vals h
  have hmem := Keyed.mem_of_get? h
  cases List.mem_singleton.1 hmem
  exact .inr rfl

def start : Store := fun x => if x = "n" then .int 5 else .int 0

theorem typed_start : start.Typed table.types := by
  refine Table.typed_of_all (u := .int) rfl (by decide) fun x => ?_
  unfold start
  split <;> rfl

end Drain

/-- The body leaves its loop in the second round, and so does the run of the graph. -/
theorem drain_exact : ∃ s', Finishes id Drain.back Drain.body Drain.start (some (.int 1)) s' ∧
    Drain.graph.Finishes id Drain.back Drain.start (some (.int 1)) s' := by
  have hplain : Stmt.PlainL Drain.body := by
    simp [Drain.body, Stmt.PlainL, Stmt.Plain, Exp.Positional, Drain.n, Drain.k]
  have htruth : Stmt.KeepsTruthL Drain.table Drain.body := by
    simp [Drain.body, Stmt.KeepsTruthL, Stmt.KeepsTruth, Exp.KeepsTruth, Exp.plusOfTruth, Drain.n,
      Drain.k]
  have hfin : Finishes id Drain.back Drain.body Drain.start (some (.int 1)) _ := ⟨3, _, rfl, rfl⟩
  exact ⟨_, hfin, (buildGraph_exact hplain Drain.lower_eq htruth Drain.respects_back Drain.typed_start _ _).1 hfin⟩

/-! ## the plus that is dropped -/

/-- `return +b` -/
def returnPlus : List Stmt := [.ret ⟨2, 2⟩ (some (.unary ⟨2, 2⟩ .plus (.name ⟨2, 2⟩ "b")))]

/-- For a truth value `b` the body returns 1, and the run of its graph returns the truth value. -/
theorem returnPlus_differs :
    ∃ g, buildGraph { args := ⟨[("b", .bool)]⟩, result := .bool } .empty 1 returnPlus =
        .ok ({ args := ⟨[("b", .bool)]⟩, result := .bool }, g) ∧
      Finishes id (fun _ _ => .int 0) returnPlus (fun _ => .bool true) (some (.int 1)) (fun _ => .bool true) ∧
      g.Finishes id (fun _ _ => .int 0) (fun _ => .bool true) (some (.bool true)) (fun _ => .bool true) ∧
      ¬ g.Finishes id (fun _ _ => .int 0) (fun _ => .bool true) (some (.int 1)) (fun _ => .bool true) := by
  refine ⟨⟨[{ term := some (.ret (some (.var ⟨"b", .bool⟩))), line := some 1 },
    { term := some (.ret none), line := some 2 }], 0⟩, by decide +kernel, ⟨0, _, rfl, rfl⟩, ⟨1, rfl⟩, ?_⟩
  rintro ⟨n, hn⟩
  cases n with
  | zero => cases hn
  | succ n =>
    have hval : some (some (Value.bool true), fun _ => Value.bool true) = some (some (Value.int 1), fun (_ : String) => _) := hn
    cases hval

end ContractVerifier.Source
