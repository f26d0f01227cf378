import ContractVerifier.Proofs.Source.Hoist

/-!
# Conditional expressions as statements

Expanding conditional expressions keeps the meaning of a body (`gives_liftIfL`).  For an expression
there are two ways to be expanded, side by side in `LiftsIf`: it gives a value, or its arms are
wrapped into statements.
-/

namespace ContractVerifier.Source

open Hoist

structure LiftsIf (e : Exp) : Prop where
  value : ∀ c, e.Within (Old c) → Adds c (e.liftIf none) fun ss e' => Hoists c [e] ss [e']
  wrapped : ∀ b c wrap k, b ≤ c → e.Within (Old b) → Wraps b wrap k →
    Adds c (e.liftIf (some wrap)) fun ss _ => Replaces b c [wrap e] ss

/-! ## all but conditional expressions -/

theorem liftIf_some {e : Exp} (h : e.isIfElse = false) (wrap : Exp → Stmt) :
    e.liftIf (some wrap) = (e.liftIf none >>= fun e' => push [wrap e'] >>= fun _ => pure e') := by
  cases e with
  | ifElse => cases h
  | _ => simp only [Exp.liftIf, finish, bind_assoc, pure_bind]

theorem LiftsIf.of_value {e : Exp} (hif : e.isIfElse = false)
    (h : ∀ c, e.Within (Old c) → Adds c (e.liftIf none) fun ss e' => Hoists c [e] ss [e']) :
    LiftsIf e where
  value := h
  wrapped b c wrap k hbc he hw := by
    rw [liftIf_some hif]
    refine (h c (he.mono (old_mono hbc) e)).bind fun ss e' c' hH => ?_
    exact Adds.push (hH.wrap hbc he hw)

/-! ## conditional expressions -/

/-- Wrapped arms do what the wrapped conditional does. -/
theorem execL_cond_wrap {b : Nat} {wrap wrap₁ wrap₂ : Exp → Stmt} {k : (Int → Int) → Value → Effect}
    (hw : Wraps b wrap k) (hw₁ : Wraps b wrap₁ k) (hw₂ : Wraps b wrap₂ k) {V : Set String}
    {sp sp' : Span} {t a e : Exp} (h : (Exp.ifElse sp t a e).Within V) (z : Int → Int) (I : Callees)
    (n : Nat) :
    Stmt.execL z I n [.cond sp' t [wrap₁ a] [wrap₂ e]] = Stmt.execL z I n [wrap (.ifElse sp t a e)] := by
  rw [execL_singleton, execL_singleton, exec_cond, hw.exec h, execL_singleton, execL_singleton,
    hw₁.exec h.2.1, hw₂.exec h.2.2]
  funext s
  simp only [Effect.onValue, Exp.eval]
  cases t.eval z I s with
  | none => rfl
  | some v => cases hv : v.toBool <;> simp [hv, Effect.onValue]

theorem adds_choose {b c : Nat} (sp : Span) {t : Exp} {body orElse : List Stmt}
    {mt ma mb : HoistM Exp} (hbc : b ≤ c) (ht : t.Within (Old b))
    (hmt : Adds c mt fun ss t' => Hoists c [t] ss [t'])
    (hma : ∀ c', b ≤ c' → Adds c' ma fun ss _ => Replaces b c' body ss)
    (hmb : ∀ c', b ≤ c' → Adds c' mb fun ss _ => Replaces b c' orElse ss) :
    Adds c (choose sp mt ma mb) fun ss st => Replaces b c [.cond sp t body orElse] (ss ++ [st]) := by
  intro waiting
  obtain ⟨ss, t', c₁, hrun, hT⟩ := hmt waiting
  have hc₁ := hbc.trans hT.le
  obtain ⟨body', a', c₂, hrun₁, hA⟩ := hma c₁ hc₁ []
  obtain ⟨orElse', b', c₃, hrun₂, hB⟩ := hmb c₂ (hc₁.trans hA.le) []
  refine ⟨ss, .cond sp t' body' orElse', c₃, ?_, hT.cond hbc ht hA hB⟩
  simp only [choose, run_bind, run_pure, hrun, run_takeAll, hrun₁, List.nil_append, hrun₂, run_push]

theorem LiftsIf.ifElse {sp : Span} {t a e : Exp} (ht : LiftsIf t) (ha : LiftsIf a)
    (he : LiftsIf e) :
    LiftsIf (.ifElse sp t a e) where
  value c h := by
    simp only [Exp.liftIf]
    refine Adds.fresh ?_
    -- the temporary is given away first, so the arms may assign to it
    have hx : temporary c ∈ Old (c + 1) := temporary_mem_old.2 (Nat.lt_succ_self c)
    have hw (sp : Span) : Wraps (c + 1) (assignTo (temporary c) sp) fun _ => Effect.keep (temporary c) :=
      wraps_assign rfl hx
    have h' := h.mono (old_mono (Nat.le_succ c))
    have hchoose := adds_choose sp le_rfl h'.1 (ht.value (c + 1) h'.1)
      (fun c' hc => ha.wrapped _ c' _ _ hc h'.2.1 (hw a.span)) (fun c' hc => he.wrapped _ c' _ _ hc h'.2.2 (hw e.span))
    refine hchoose.bind fun ss st c' hR => Adds.push ?_
    have hR' : Replaces (c + 1) (c + 1) [assignTo (temporary c) sp (.ifElse sp t a e)] (ss ++ [st]) c' :=
      hR.congr (execL_cond_wrap (hw sp) (hw a.span) (hw e.span) h)
    exact hR'.hoists h
  wrapped b c wrap k hbc h hw := by
    simp only [Exp.liftIf]
    have hchoose := adds_choose sp hbc h.1 (ht.value c (h.1.mono (old_mono hbc) t))
      (fun c' hc => ha.wrapped b c' wrap k hc h.2.1 hw) (fun c' hc => he.wrapped b c' wrap k hc h.2.2 hw)
    exact hchoose.bind fun ss st c' hR => Adds.push (hR.congr (execL_cond_wrap hw hw hw h))

/-! ## every expression of the fragment -/

mutual

theorem liftsIf (e : Exp) : LiftsIf e := by
  cases e with
  | ifElse sp t a e => exact .ifElse (liftsIf t) (liftsIf a) (liftsIf e)
  | constant sp k =>
    refine .of_value rfl fun c h => ?_
    simp only [Exp.liftIf, finish]
    exact .pure (.self h)
  | name sp x =>
    refine .of_value rfl fun c h => ?_
    simp only [Exp.liftIf, finish]
    exact .pure (.self h)
  | unary sp op e =>
    refine .of_value rfl fun c h => ?_
    simp only [Exp.liftIf, finish]
    exact ((liftsIf e).value c h.2).map fun ss e' c' he => he.unary h.1
  | binary sp l op r =>
    refine .of_value rfl fun c h => ?_
    simp only [Exp.liftIf, finish]
    refine ((liftsIf l).value c h.2.1).bind fun ss l' c₁ hl => ?_
    refine ((liftsIf r).value c₁ (h.2.2.mono (old_mono hl.le) r)).map fun ts r' c₂ hr => ?_
    exact (hl.append hr ⟨h.2.2, trivial⟩).binary h.1
  | logic sp op es =>
    refine .of_value rfl fun c h => ?_
    simp only [Exp.liftIf, finish]
    exact (adds_liftIfL es c h).map fun ss es' c' hes => hes.logic
  | compare sp l ops rs =>
    refine .of_value rfl fun c h => ?_
    simp only [Exp.liftIf, finish]
    refine ((liftsIf l).value c h.2.1).bind fun ss l' c₁ hl => ?_
    refine (adds_liftIfL rs c₁ (h.2.2.mono (old_mono hl.le) rs)).map fun ts rs' c₂ hrs => ?_
    exact (hl.append hrs h.2.2).compare h.1
  | call sp f args keywords =>
    refine .of_value rfl fun c h => ?_
    obtain ⟨hf, rfl, hargs⟩ := h
    cases f with
    | name nsp id =>
      simp only [Exp.liftIf, Part.liftIfL, finish, pure_bind]
      exact (adds_liftIfL args c hargs).map fun ss args' c' hes => hes.call hf
    | _ => cases hf
  | other sp k ps => exact .of_value rfl fun _ h => h.elim

theorem adds_liftIfL (es : List Exp) (c : Nat) (h : Exp.WithinL (Old c) es) : Adds c (Exp.liftIfL es) (Hoists c es) := by
  cases es with
  | nil =>
    simp only [Exp.liftIfL]
    exact .pure (.nil c)
  | cons e es =>
    simp only [Exp.liftIfL]
    refine ((liftsIf e).value c h.1).bind fun ss e' c₁ he => ?_
    refine (adds_liftIfL es c₁ (h.2.mono (old_mono he.le) es)).map fun ts es' c₂ hes => ?_
    exact he.append hes h.2

end

/-! ## expressions without conditional ones -/

mutual

/-- No conditional expression stands anywhere inside, and no statement. -/
def Exp.Unconditional : Exp → Prop
  | .constant .. | .name .. => True
  | .unary _ _ e => e.Unconditional
  | .binary _ l _ r => l.Unconditional ∧ r.Unconditional
  | .logic _ _ es => Exp.UnconditionalL es
  | .compare _ l _ rs => l.Unconditional ∧ Exp.UnconditionalL rs
  | .ifElse .. => False
  | .call _ f args keywords => f.Unconditional ∧ Exp.UnconditionalL args ∧ Part.UnconditionalL keywords
  | .other _ _ ps => Part.UnconditionalL ps

def Exp.UnconditionalL : List Exp → Prop
  | [] => True
  | e :: es => e.Unconditional ∧ Exp.UnconditionalL es

def Part.Unconditional : Part → Prop
  | .missing | .text _ | .number _ => True
  | .exp e | .keyword _ _ e => e.Unconditional
  | .stmt _ => False
  | .node _ _ ps | .list ps => Part.UnconditionalL ps
  | .field _ p => p.Unconditional

def Part.UnconditionalL : List Part → Prop
  | [] => True
  | p :: ps => p.Unconditional ∧ Part.UnconditionalL ps

end

mutual

/-- Nothing is moved out of them. -/
theorem liftIf_of_unconditional (e : Exp) (h : e.Unconditional) : e.liftIf none = pure e := by
  cases e with
  | constant sp c => simp only [Exp.liftIf, finish]
  | name sp x => simp only [Exp.liftIf, finish]
  | unary sp op e => simp only [Exp.liftIf, finish, liftIf_of_unconditional e h, pure_bind]
  | binary sp l op r =>
    simp only [Exp.liftIf, finish, liftIf_of_unconditional l h.1, liftIf_of_unconditional r h.2,
      pure_bind]
  | logic sp op es => simp only [Exp.liftIf, finish, liftIfL_of_unconditional es h, pure_bind]
  | compare sp l ops rs =>
    simp only [Exp.liftIf, finish, liftIf_of_unconditional l h.1, liftIfL_of_unconditional rs h.2,
      pure_bind]
  | ifElse sp t a b => exact h.elim
  | call sp f args keywords =>
    obtain ⟨hf, hargs, hkeywords⟩ := h
    simp only [Exp.liftIf, finish, liftIf_of_unconditional f hf,
      liftIfL_of_unconditional args hargs, liftIfL_of_unconditional_parts keywords hkeywords,
      pure_bind]
  | other sp k ps => simp only [Exp.liftIf, finish, liftIfL_of_unconditional_parts ps h, pure_bind]

theorem liftIfL_of_unconditional (es : List Exp) (h : Exp.UnconditionalL es) : Exp.liftIfL es = pure es := by
  cases es with
  | nil => simp only [Exp.liftIfL]
  | cons e es => simp only [Exp.liftIfL, liftIf_of_unconditional e h.1, liftIfL_of_unconditional es h.2, pure_bind]

theorem liftIf_of_unconditional_part (p : Part) (h : p.Unconditional) : p.liftIf = pure [p] := by
  cases p with
  | missing => simp only [Part.liftIf]
  | text s => simp only [Part.liftIf]
  | number n => simp only [Part.liftIf]
  | exp e => simp only [Part.liftIf, liftIf_of_unconditional e h, pure_bind]
  | stmt s => exact h.elim
  | keyword sp x e => simp only [Part.liftIf, liftIf_of_unconditional e h, pure_bind]
  | node k sp ps => simp only [Part.liftIf, liftIfL_of_unconditional_parts ps h, pure_bind]
  | list ps => simp only [Part.liftIf, liftIfL_of_unconditional_parts ps h, pure_bind]
  | field l p => simp only [Part.liftIf, liftIf_of_unconditional_part p h, pure_bind, List.map_cons, List.map_nil]

theorem liftIfL_of_unconditional_parts (ps : List Part) (h : Part.UnconditionalL ps) : Part.liftIfL ps = pure ps := by
  cases ps with
  | nil => simp only [Part.liftIfL]
  | cons p ps =>
    simp only [Part.liftIfL, liftIf_of_unconditional_part p h.1,
      liftIfL_of_unconditional_parts ps h.2, pure_bind, List.cons_append, List.nil_append]

end

/-! ## statements -/

theorem liftIf_of_isName {e : Exp} (h : e.isName) : e.liftIf none = pure e := by
  cases e with
  | name sp x => simp only [Exp.liftIf, finish]
  | _ => cases h

theorem liftIf_of_name? {e : Exp} {x : String} (h : e.name? = some x) : e.liftIf none = pure e := by
  cases e with
  | name sp y => simp only [Exp.liftIf, finish]
  | _ => cases h

theorem liftIf_of_isNote {sp : Span} {v : Exp} (h : (Stmt.exp sp v).isNote) : v.liftIf none = pure v := by
  rcases Stmt.isNote_cases h with ⟨csp, k, rfl⟩ | ⟨csp, nsp, ksp, text, rfl⟩
  · simp only [Exp.liftIf, finish]
  · simp only [Exp.liftIf, Exp.liftIfL, Part.liftIfL, finish, pure_bind]

/-- A statement around an expression whose arms do not become statements of its kind. -/
theorem emits_liftIf_wrap {b c : Nat} {wrap : Exp → Stmt} {k : (Int → Int) → Value → Effect}
    (hw : Wraps b wrap k) (hbc : b ≤ c) {e : Exp} (he : e.Within (Old b)) :
    Emits c (e.liftIf none >>= fun e' => pure [wrap e']) (Replaces b c [wrap e]) :=
  .wrap hw hbc he ((liftsIf e).value c (he.mono (old_mono hbc) e))

/-- A statement whose whole value is a conditional expression. -/
theorem emits_liftIf_spread {b c : Nat} {wrap : Exp → Stmt} {k : (Int → Int) → Value → Effect}
    (hw : Wraps b wrap k) (hbc : b ≤ c) {e : Exp} (he : e.Within (Old b)) :
    Emits c (e.liftIf (some wrap) >>= fun _ => pure []) (Replaces b c [wrap e]) := by
  refine ((liftsIf e).wrapped b c wrap k hbc he hw).emits fun ss _ c' hR => ?_
  rwa [List.append_nil]

mutual

theorem emits_liftIf {b c : Nat} (hbc : b ≤ c) (s : Stmt) (h : s.Within (Old b)) :
    Emits c s.liftIf (Replaces b c [s]) := by
  cases s with
  | assign sp ts v =>
    obtain ⟨⟨x, hx, hts⟩, hv⟩ := h
    have hw : Wraps b (.assign sp ts) fun _ => Effect.keep x := wraps_assign hts hx
    simp only [Stmt.liftIf]
    split
    · exact emits_liftIf_spread hw hbc hv
    · exact emits_liftIf_wrap hw hbc hv
  | declare sp t u v =>
    obtain ⟨⟨x, hx, ht⟩, hu, hv⟩ := h
    cases v with
    | none =>
      simp only [Stmt.liftIf, liftIf_of_name? ht, liftIf_of_isName hu, pure_bind]
      exact emits_self hbc ⟨⟨x, hx, ht⟩, hu, hv⟩
    | some v =>
      simp only [Stmt.liftIf, liftIf_of_name? ht, liftIf_of_isName hu, pure_bind]
      exact emits_liftIf_wrap (wraps_declare ht hu hx) hbc (hv v rfl)
  | augment sp t op v =>
    obtain ⟨⟨x, hx, ht⟩, hop, hv⟩ := h
    simp only [Stmt.liftIf, liftIf_of_name? ht, pure_bind]
    exact emits_liftIf_wrap (wraps_augment ht hop hx) hbc hv
  | exp sp v =>
    simp only [Stmt.liftIf]
    rcases h with h | hv
    · rw [liftIf_of_isNote h, pure_bind]
      exact emits_self hbc (.inl h)
    · exact emits_liftIf_wrap wraps_exp hbc hv
  | cond sp t body orElse =>
    simp only [Stmt.liftIf]
    exact .cond hbc h.1 ((liftsIf t).value c (h.1.mono (old_mono hbc) t)) (fun c' hc => gives_liftIfL hc body h.2.1)
      fun c' hc => gives_liftIfL hc orElse h.2.2
  | loop sp t body orElse =>
    obtain ⟨ht, hbody, rfl⟩ := h
    simp only [Stmt.liftIf]
    exact .loop hbc ht (gives_liftIfL hbc body hbody)
  | ret sp v =>
    cases v with
    | none =>
      simp only [Stmt.liftIf]
      exact emits_self hbc h
    | some v =>
      simp only [Stmt.liftIf]
      split
      · exact emits_liftIf_spread wraps_ret hbc (h v rfl)
      · exact emits_liftIf_wrap wraps_ret hbc (h v rfl)
  | pass sp =>
    simp only [Stmt.liftIf]
    exact emits_self hbc h
  | brk sp =>
    simp only [Stmt.liftIf]
    exact emits_self hbc h
  | cont sp =>
    simp only [Stmt.liftIf]
    exact emits_self hbc h
  | function => exact h.elim
  | other => exact h.elim

theorem gives_liftIfL {b c : Nat} (hbc : b ≤ c) (ss : List Stmt) (h : Stmt.WithinL (Old b) ss) :
    Gives c (Stmt.liftIfL ss) (Replaces b c ss) := by
  cases ss with
  | nil =>
    simp only [Stmt.liftIfL]
    exact ⟨[], c, rfl, .nil b c⟩
  | cons s ss =>
    simp only [Stmt.liftIfL]
    exact .cons hbc (emits_liftIf hbc s h.1) fun c' hc => gives_liftIfL hc ss h.2

end

end ContractVerifier.Source
