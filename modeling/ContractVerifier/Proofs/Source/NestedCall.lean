import ContractVerifier.Proofs.Source.Hoist

/-!
# Nested calls as assignments

Moving nested calls into assignments of their own keeps the meaning of a body (`gives_liftCallL`).
A call that `and`, `or` or a comparison would not have come to is made all the same: callees are
functions, so this shows in no value.
-/

namespace ContractVerifier.Source

open Hoist

/-! ## expressions -/

/-- A call that may not stay where it is goes through a temporary. -/
theorem adds_call {c : Nat} {sp : Span} {f : Exp} {args : List Exp} (hf : f.isName)
    (h : Adds c (Exp.liftCallL args) (Hoists c args)) (whole : Bool) :
    Adds c ((Exp.call sp f args []).liftCall whole) fun ss e' => Hoists c [.call sp f args []] ss [e'] := by
  cases whole with
  | true =>
    simp only [Exp.liftCall, if_true]
    exact h.map fun ss args' c' hargs => hargs.call hf
  | false =>
    simp only [Exp.liftCall]
    exact h.bind fun ss args' c' hargs => Adds.fresh (Adds.push (hargs.call hf).toTemporary)

mutual

theorem adds_liftCall (e : Exp) (whole : Bool) (c : Nat) (h : e.Within (Old c)) :
    Adds c (e.liftCall whole) fun ss e' => Hoists c [e] ss [e'] := by
  cases e with
  | constant sp k =>
    simp only [Exp.liftCall]
    exact .pure (.self h)
  | name sp x =>
    simp only [Exp.liftCall]
    exact .pure (.self h)
  | unary sp op e =>
    simp only [Exp.liftCall]
    exact (adds_liftCall e false c h.2).map fun ss e' c' he => he.unary h.1
  | binary sp l op r =>
    simp only [Exp.liftCall]
    refine (adds_liftCall l false c h.2.1).bind fun ss l' c₁ hl => ?_
    refine (adds_liftCall r false c₁ (h.2.2.mono (old_mono hl.le) r)).map fun ts r' c₂ hr => ?_
    exact (hl.append hr ⟨h.2.2, trivial⟩).binary h.1
  | logic sp op es =>
    simp only [Exp.liftCall]
    exact (adds_liftCallL es c h).map fun ss es' c' hes => hes.logic
  | compare sp l ops rs =>
    simp only [Exp.liftCall]
    refine (adds_liftCall l false c h.2.1).bind fun ss l' c₁ hl => ?_
    refine (adds_liftCallL rs c₁ (h.2.2.mono (old_mono hl.le) rs)).map fun ts rs' c₂ hrs => ?_
    exact (hl.append hrs h.2.2).compare h.1
  | ifElse sp t a b =>
    simp only [Exp.liftCall]
    obtain ⟨ht, ha, hb⟩ := h
    refine (adds_liftCall t false c ht).bind fun ss t' c₁ hT => ?_
    refine (adds_liftCall a false c₁ (ha.mono (old_mono hT.le) a)).bind fun ts a' c₂ hA => ?_
    have hTA := hT.append hA ⟨ha, trivial⟩
    refine (adds_liftCall b false c₂ (hb.mono (old_mono hTA.le) b)).map fun us b' c₃ hB => ?_
    rw [← List.append_assoc]
    exact (hTA.append hB ⟨hb, trivial⟩).ifElse
  | call sp f args keywords =>
    obtain ⟨hf, rfl, hargs⟩ := h
    exact adds_call hf (adds_liftCallL args c hargs) whole
  | other sp k ps => exact h.elim

theorem adds_liftCallL (es : List Exp) (c : Nat) (h : Exp.WithinL (Old c) es) :
    Adds c (Exp.liftCallL es) (Hoists c es) := by
  cases es with
  | nil =>
    simp only [Exp.liftCallL]
    exact .pure (.nil c)
  | cons e es =>
    simp only [Exp.liftCallL]
    refine (adds_liftCall e false c h.1).bind fun ss e' c₁ he => ?_
    refine (adds_liftCallL es c₁ (h.2.mono (old_mono he.le) es)).map fun ts es' c₂ hes => ?_
    exact he.append hes h.2

end

/-! ## statements -/

theorem liftCall_of_isNote {sp : Span} {v : Exp} (h : (Stmt.exp sp v).isNote) :
    (Stmt.exp sp v).liftCall = pure [.exp sp v] := by
  rcases Stmt.isNote_cases h with ⟨csp, k, rfl⟩ | ⟨csp, nsp, ksp, text, rfl⟩
  · simp [Stmt.liftCall, Exp.isCall]
  · simp [Stmt.liftCall, Exp.isCall, Exp.liftCall, Exp.liftCallL]

theorem liftCall_of_name? {e : Exp} {x : String} (h : e.name? = some x) (whole : Bool) : e.liftCall whole = pure e := by
  cases e with
  | name sp y => simp only [Exp.liftCall]
  | _ => cases h

/-- A statement around an expression. -/
theorem emits_wrapped {b c : Nat} {wrap : Exp → Stmt} {k : (Int → Int) → Value → Effect}
    (hw : Wraps b wrap k) (hbc : b ≤ c) {e : Exp} (he : e.Within (Old b)) (whole : Bool) :
    Emits c (e.liftCall whole >>= fun e' => pure [wrap e']) (Replaces b c [wrap e]) :=
  .wrap hw hbc he (adds_liftCall e whole c (he.mono (old_mono hbc) e))

mutual

theorem emits_liftCall {b c : Nat} (hbc : b ≤ c) (s : Stmt) (h : s.Within (Old b)) :
    Emits c s.liftCall (Replaces b c [s]) := by
  cases s with
  | assign sp ts v =>
    obtain ⟨⟨x, hx, hts⟩, hv⟩ := h
    simp only [Stmt.liftCall]
    exact emits_wrapped (wraps_assign hts hx) hbc hv true
  | declare sp t u v =>
    obtain ⟨⟨x, hx, ht⟩, hu, hv⟩ := h
    cases v with
    | none =>
      simp only [Stmt.liftCall]
      exact emits_self hbc ⟨⟨x, hx, ht⟩, hu, hv⟩
    | some v =>
      simp only [Stmt.liftCall]
      exact emits_wrapped (wraps_declare ht hu hx) hbc (hv v rfl) true
  | augment sp t op v =>
    obtain ⟨⟨x, hx, ht⟩, hop, hv⟩ := h
    simp only [Stmt.liftCall, liftCall_of_name? ht, pure_bind]
    exact emits_wrapped (wraps_augment ht hop hx) hbc hv false
  | exp sp v =>
    rcases h with h | hv
    · rw [liftCall_of_isNote h]
      exact emits_self hbc (.inl h)
    · simp only [Stmt.liftCall]
      split
      · exact emits_wrapped wraps_exp hbc hv true
      · exact emits_self hbc (.inr hv)
  | cond sp t body orElse =>
    simp only [Stmt.liftCall]
    exact .cond hbc h.1 (adds_liftCall t false c (h.1.mono (old_mono hbc) t)) (fun c' hc => gives_liftCallL hc body h.2.1)
      fun c' hc => gives_liftCallL hc orElse h.2.2
  | loop sp t body orElse =>
    obtain ⟨ht, hbody, rfl⟩ := h
    simp only [Stmt.liftCall]
    exact .loop hbc ht (gives_liftCallL hbc body hbody)
  | ret sp v =>
    cases v with
    | none =>
      simp only [Stmt.liftCall]
      exact emits_self hbc h
    | some v =>
      simp only [Stmt.liftCall]
      exact emits_wrapped wraps_ret hbc (h v rfl) false
  | pass sp =>
    simp only [Stmt.liftCall]
    exact emits_self hbc h
  | brk sp =>
    simp only [Stmt.liftCall]
    exact emits_self hbc h
  | cont sp =>
    simp only [Stmt.liftCall]
    exact emits_self hbc h
  | function => exact h.elim
  | other => exact h.elim

theorem gives_liftCallL {b c : Nat} (hbc : b ≤ c) (ss : List Stmt) (h : Stmt.WithinL (Old b) ss) :
    Gives c (Stmt.liftCallL ss) (Replaces b c ss) := by
  cases ss with
  | nil =>
    simp only [Stmt.liftCallL]
    exact ⟨[], c, rfl, .nil b c⟩
  | cons s ss =>
    simp only [Stmt.liftCallL]
    exact .cons hbc (emits_liftCall hbc s h.1) fun c' hc => gives_liftCallL hc ss h.2

end

end ContractVerifier.Source
