import ContractVerifier.Proofs.Source.Fragment
import Mathlib.Data.List.Forall2

/-!
# Moved statements

What it means that a pass moves statements out of expressions and changes nothing else.  A pass that
has given `c` temporaries is free to assign to the temporaries from `c` on, so stores are compared
on the other names, `Old c`.

* `Effect.Alike V` : started alike on `V`, two effects end alike on `V`;
* `Hoists` : behind the moved statements the new expressions have the values of the old ones;
* `Replaces` : new statements do what the old ones do;
* `Adds`, `Emits`, `Gives` : what a hoisting computation leaves pending and gives back.
-/

namespace ContractVerifier.Source

/-! ## temporaries -/

theorem toList_temporary (n : Nat) : (temporary n).toList = temporaryStem.toList ++ Nat.toDigits 10 n := by
  simp [temporary]

theorem temporary_inj {m n : Nat} (h : temporary m = temporary n) : m = n := by
  have hlist := congrArg String.toList h
  have hdigits : Nat.toDigits 10 m = Nat.toDigits 10 n := by
    simpa only [toList_temporary, List.append_cancel_left_eq] using hlist
  simpa only [Nat.ofDigitChars_ten_toDigits] using congrArg (Nat.ofDigitChars 10 · 0) hdigits

/-- A name that is kept for temporaries. -/
def IsTemporary (x : String) : Prop := temporaryStem.toList <+: x.toList

instance : DecidablePred IsTemporary := fun x => by unfold IsTemporary; infer_instance

/-- All names but the temporaries from the `c`-th on. -/
def Old (c : Nat) : Set String := {x | ∀ k, c ≤ k → x ≠ temporary k}

theorem old_mono {c d : Nat} (h : c ≤ d) : Old c ⊆ Old d := fun _ hx k hk => hx k (h.trans hk)

theorem temporary_mem_old {k c : Nat} : temporary k ∈ Old c ↔ k < c := by
  constructor
  · intro h
    by_contra hk
    exact h k (by omega) rfl
  · intro hk j hj h
    have := temporary_inj h
    omega

theorem temporary_notMem_old {k c : Nat} (h : c ≤ k) : temporary k ∉ Old c := fun hk => hk k h rfl

/-- An assignment to a name that does not count. -/
theorem eqOn_set {V : Set String} {x : String} (h : x ∉ V) (s : Store) (v : Value) : Set.EqOn s (s.set x v) V := by
  intro y hy
  have hne : x ≠ y := by
    rintro rfl
    exact h hy
  exact (Store.set_of_ne s v hne).symm

theorem mem_old_of_not_isTemporary {x : String} (h : ¬ IsTemporary x) (c : Nat) : x ∈ Old c := by
  rintro k - rfl
  exact h ⟨_, (toList_temporary k).symm⟩

/-! ## effects that agree on some names -/

/-- The same signal, and stores that agree on `V`; or neither comes to an end. -/
def SameEnd (V : Set String) : Option (Signal × Store) → Option (Signal × Store) → Prop :=
  Option.Rel fun r r' => r.1 = r'.1 ∧ Set.EqOn r.2 r'.2 V

section

variable {V W : Set String} {r r' r'' : Option (Signal × Store)}

theorem SameEnd.trans (h : SameEnd V r r') (h' : SameEnd V r' r'') : SameEnd V r r'' := by
  cases h with
  | none => exact h'
  | some h =>
    cases h' with
    | some h' => exact .some ⟨h.1.trans h'.1, h.2.trans h'.2⟩

theorem SameEnd.symm (h : SameEnd V r r') : SameEnd V r' r := by
  cases h with
  | none => exact .none
  | some h => exact .some ⟨h.1.symm, h.2.symm⟩

theorem SameEnd.mono (hV : V ⊆ W) (h : SameEnd W r r') : SameEnd V r r' := by
  cases h with
  | none => exact .none
  | some h => exact .some ⟨h.1, h.2.mono hV⟩

/-- An end that is reached is reached on the other side too. -/
theorem SameEnd.exists_some {sig : Signal} {s : Store} (h : SameEnd V (some (sig, s)) r) :
    ∃ s', r = some (sig, s') ∧ Set.EqOn s s' V := by
  cases h with
  | @some _ q h =>
    obtain ⟨sig', s'⟩ := q
    obtain ⟨rfl, hs⟩ := h
    exact ⟨s', rfl, hs⟩

end

namespace Effect

/-- From stores that agree on `V` both come to the same end. -/
def Alike (V : Set String) (f f' : Effect) : Prop :=
  ∀ s s', Set.EqOn s s' V → SameEnd V (f s) (f' s')

variable {V W : Set String} {f f' g g' h : Effect}

theorem alike_skip : Alike V skip skip := fun _ _ hs => .some ⟨rfl, hs⟩

theorem Alike.andThen (hf : Alike V f f') (hg : Alike V g g') : Alike V (f.andThen g) (f'.andThen g') := by
  intro s s' hs
  have hfs := hf s s' hs
  unfold Effect.andThen
  generalize f s = r, f' s' = r' at hfs
  cases hfs with
  | none => exact .none
  | @some q q' h =>
    obtain ⟨sig, s₁⟩ := q
    obtain ⟨sig', s₁'⟩ := q'
    obtain ⟨rfl, hs₁⟩ := h
    cases sig with
    | next => exact hg s₁ s₁' hs₁
    | _ => exact .some ⟨rfl, hs₁⟩

theorem Alike.rounds {test test' : Store → Option Bool}
    (ht : ∀ s s', Set.EqOn s s' V → test' s' = test s) (hf : Alike V f f') (hg : Alike V g g')
    (n : Nat) : Alike V (rounds test f g n) (rounds test' f' g' n) := by
  induction n with
  | zero => exact fun s s' _ => .none
  | succ n ih =>
    intro s s' hs
    rw [rounds_succ, rounds_succ, ht s s' hs]
    cases test s with
    | none => exact .none
    | some b =>
      cases b with
      | false => exact hg s s' hs
      | true =>
        have hfs := hf s s' hs
        simp only [Option.bind_some, if_true]
        generalize f s = r, f' s' = r' at hfs
        cases hfs with
        | none => exact .none
        | @some q q' h =>
          obtain ⟨sig, s₁⟩ := q
          obtain ⟨sig', s₁'⟩ := q'
          obtain ⟨rfl, hs₁⟩ := h
          cases sig with
          | next => exact ih s₁ s₁' hs₁
          | cont => exact ih s₁ s₁' hs₁
          | brk => exact .some ⟨rfl, hs₁⟩
          | ret v => exact .some ⟨rfl, hs₁⟩

/-! ## one effect behind the other -/

theorem andThen_skip (f : Effect) : f.andThen skip = f := by
  funext s
  unfold andThen
  cases f s with
  | none => rfl
  | some r =>
    obtain ⟨sig, s₁⟩ := r
    cases sig <;> rfl

theorem andThen_assoc (f g h : Effect) : (f.andThen g).andThen h = f.andThen (g.andThen h) := by
  funext s
  unfold andThen
  cases f s with
  | none => rfl
  | some r =>
    obtain ⟨sig, s₁⟩ := r
    cases sig <;> rfl

/-- Goes on with the value of an expression. -/
def onValue (z : Int → Int) (I : Callees) (e : Exp) (k : Value → Effect) : Effect := fun s =>
  (e.eval z I s).bind fun v => k v s

end Effect

section

variable {z : Int → Int} {I : Callees} {n : Nat}

theorem execL_singleton (s : Stmt) : Stmt.execL z I n [s] = s.exec z I n := by
  simp only [Stmt.execL, Effect.andThen_skip]

theorem execL_append (ss ts : List Stmt) :
    Stmt.execL z I n (ss ++ ts) = (Stmt.execL z I n ss).andThen (Stmt.execL z I n ts) := by
  induction ss with
  | nil => rfl
  | cons s ss ih => simp only [List.cons_append, Stmt.execL, ih, Effect.andThen_assoc]

theorem exec_cond (sp : Span) (t : Exp) (body orElse : List Stmt) :
    (Stmt.cond sp t body orElse).exec z I n =
      Effect.onValue z I t fun v => if v.toBool then Stmt.execL z I n body else Stmt.execL z I n orElse := by
  funext s
  simp only [Stmt.exec, Effect.onValue, Exp.truth?]
  cases t.eval z I s with
  | none => rfl
  | some v => cases hv : v.toBool <;> simp [hv]

/-- The value goes to a variable. -/
def Effect.keep (x : String) (v : Value) : Effect := fun s => some (.next, s.set x v)

theorem exec_assign {sp : Span} {ts : List Exp} {x : String} (h : target? ts = some x) (e : Exp) :
    (Stmt.assign sp ts e).exec z I n = Effect.onValue z I e (Effect.keep x) := by
  funext s
  simp only [Stmt.exec, Effect.store, h]
  rfl

theorem exec_assignTo (x : String) (sp : Span) (e : Exp) :
    (Hoist.assignTo x sp e).exec z I n = Effect.onValue z I e (Effect.keep x) := exec_assign rfl e

end

/-! ## expressions that are relieved of their parts -/

/-- The statements `ss`, put in front, use the temporaries from `c` up to `c'`.  They always run to
their end, leave all older names alone, and behind them `es'` have the values that `es` had
before. -/
structure Hoists (c : Nat) (es : List Exp) (ss : List Stmt) (es' : List Exp) (c' : Nat) : Prop where
  le : c ≤ c'
  stmts : Stmt.WithinL (Old c') ss
  exps : Exp.WithinL (Old c') es'
  run : ∀ z I n s, ∃ s', Stmt.execL z I n ss s = some (.next, s') ∧ Set.EqOn s s' (Old c) ∧ SameValues z I s s' es es'

namespace Hoists

variable {c c₁ c₂ : Nat} {e e' : Exp} {es es' ds ds' : List Exp} {ss ts : List Stmt}

theorem nil (c : Nat) : Hoists c [] [] [] c :=
  ⟨le_rfl, trivial, trivial, fun _ _ _ s => ⟨s, rfl, fun _ _ => rfl, .nil⟩⟩

theorem self (h : e.Within (Old c)) : Hoists c [e] [] [e] c :=
  ⟨le_rfl, trivial, ⟨h, trivial⟩, fun _ _ _ s => ⟨s, rfl, fun _ _ => rfl, .cons rfl .nil⟩⟩

/-- Statements moved out of later expressions change nothing that the earlier ones read, and the
other way round. -/
theorem append (h : Hoists c es ss es' c₁) (h' : Hoists c₁ ds ts ds' c₂)
    (hds : Exp.WithinL (Old c) ds) :
    Hoists c (es ++ ds) (ss ++ ts) (es' ++ ds') c₂ where
  le := h.le.trans h'.le
  stmts := (Stmt.withinL_append ss ts).2 ⟨h.stmts.mono (old_mono h'.le) ss, h'.stmts⟩
  exps := (Exp.withinL_append es' ds').2 ⟨h.exps.mono (old_mono h'.le) es', h'.exps⟩
  run z I n s := by
    obtain ⟨s₁, hrun, hs₁, hes⟩ := h.run z I n s
    obtain ⟨s₂, hrun', hs₂, hds'⟩ := h'.run z I n s₁
    -- `es'` read no temporary from `c₁` on, and `ds` none from `c` on
    refine ⟨s₂, ?_, hs₁.trans (hs₂.mono (old_mono h.le)), ?_⟩
    · simp only [execL_append, Effect.andThen, hrun, Option.bind_eq_bind, Option.bind_some, hrun']
    · have hes' : SameValues z I s₁ s₂ es' es' := h.exps.sameValues hs₂ es'
      have hds : SameValues z I s s₁ ds ds := hds.sameValues hs₁ ds
      exact List.rel_append (SameValues.trans hes hes') (SameValues.trans hds hds')

/-- An expression that is put together again. -/
theorem build (h : Hoists c es ss es' c₁) (hw : e'.Within (Old c₁))
    (he : ∀ {z I s s'}, SameValues z I s s' es es' → e'.eval z I s' = e.eval z I s) :
    Hoists c [e] ss [e'] c₁ where
  le := h.le
  stmts := h.stmts
  exps := ⟨hw, trivial⟩
  run z I n s := by
    obtain ⟨s', hrun, hs, hes⟩ := h.run z I n s
    exact ⟨s', hrun, hs, .cons (he hes) .nil⟩

theorem unary {sp : Span} {op : Sign} (hop : op.supported) (h : Hoists c [e] ss [e'] c₁) :
    Hoists c [.unary sp op e] ss [.unary sp op e'] c₁ :=
  h.build ⟨hop, h.exps.1⟩ fun
    | .cons he .nil => by simp only [Exp.eval, he]

theorem binary {sp : Span} {op : Arith} {l l' r r' : Exp} (hop : op.supported)
    (h : Hoists c [l, r] ss [l', r'] c₁) :
    Hoists c [.binary sp l op r] ss [.binary sp l' op r'] c₁ :=
  h.build ⟨hop, h.exps.1, h.exps.2.1⟩ fun
    | .cons hl (.cons hr .nil) => by simp only [Exp.eval, hl, hr]

theorem logic {sp : Span} {op : Logic} (h : Hoists c es ss es' c₁) :
    Hoists c [.logic sp op es] ss [.logic sp op es'] c₁ :=
  h.build h.exps fun hes => hes.evalLogic_eq op

theorem compare {sp : Span} {ops : List Comparison} (hops : ∀ op ∈ ops, op.supported)
    (h : Hoists c (e :: es) ss (e' :: es') c₁) :
    Hoists c [.compare sp e ops es] ss [.compare sp e' ops es'] c₁ :=
  h.build ⟨hops, h.exps.1, h.exps.2⟩ fun
    | .cons he hes => by simp only [Exp.eval, he, SameValues.evalChain_eq hes]

theorem ifElse {sp : Span} {t t' a a' b b' : Exp} (h : Hoists c [t, a, b] ss [t', a', b'] c₁) :
    Hoists c [.ifElse sp t a b] ss [.ifElse sp t' a' b'] c₁ :=
  h.build ⟨h.exps.1, h.exps.2.1, h.exps.2.2.1⟩ fun
    | .cons ht (.cons ha (.cons hb .nil)) => by simp only [Exp.eval, ht, ha, hb]

theorem call {sp : Span} {f : Exp} (hf : f.isName) (h : Hoists c es ss es' c₁) :
    Hoists c [.call sp f es []] ss [.call sp f es' []] c₁ := by
  cases f with
  | name nsp id => exact h.build ⟨hf, rfl, h.exps⟩ fun hes => by simp only [Exp.eval, hes.evalL_eq]
  | _ => cases hf

end Hoists

/-! ## statements in the place of others -/

/-- From the `c`-th temporary on, `ts` do what `ss` do, as far as it shows in names older than
`b`. -/
structure Replaces (b c : Nat) (ss ts : List Stmt) (c' : Nat) : Prop where
  le : c ≤ c'
  within : Stmt.WithinL (Old c') ts
  alike : ∀ z I n, (Stmt.execL z I n ss).Alike (Old b) (Stmt.execL z I n ts)

/-- `wrap e` takes the value of `e` and goes on with `k`, which uses only names older than `b`. -/
structure Wraps (b : Nat) (wrap : Exp → Stmt) (k : (Int → Int) → Value → Effect) : Prop where
  exec : ∀ {V : Set String} {z I n e}, e.Within V → (wrap e).exec z I n = Effect.onValue z I e (k z)
  alike : ∀ {c}, b ≤ c → ∀ z v, (k z v).Alike (Old c) (k z v)
  within : ∀ {c e}, b ≤ c → e.Within (Old c) → (wrap e).Within (Old c)

namespace Hoists

variable {b c c₁ c₂ : Nat} {e e' : Exp} {ss : List Stmt}

/-- The moved statements, and then the new expression: this is what the old one does. -/
theorem alike (h : Hoists c [e] ss [e'] c₁) (hbc : b ≤ c) (he : e.Within (Old b)) {z : Int → Int}
    {I : Callees} {n : Nat} {k k' : Value → Effect} (hk : ∀ v, (k v).Alike (Old b) (k' v)) :
    (Effect.onValue z I e k).Alike (Old b) ((Stmt.execL z I n ss).andThen (Effect.onValue z I e' k')) := by
  intro s s' hs
  obtain ⟨s₁, hrun, hs₁, hsame⟩ := h.run z I n s'
  -- the moved statements run in any case, so the old expression has to have a value
  obtain ⟨v, hv⟩ := he.exists_eval (z := z) (I := I) (s := s) e
  have hv₁ : e'.eval z I s₁ = some v := by
    cases hsame with
    | cons h _ => rw [h, he.eval_congr hs e, hv]
  have hs' : Set.EqOn s s₁ (Old b) := hs.trans (hs₁.mono (old_mono hbc))
  simp only [Effect.onValue, Effect.andThen, hv, hrun, hv₁, Option.bind_eq_bind, Option.bind_some]
  exact hk v s s₁ hs'

theorem wrap (h : Hoists c [e] ss [e'] c₁) (hbc : b ≤ c) (he : e.Within (Old b)) {wrap : Exp → Stmt}
    {k : (Int → Int) → Value → Effect} (hw : Wraps b wrap k) :
    Replaces b c [wrap e] (ss ++ [wrap e']) c₁ where
  le := h.le
  within := by
    rw [Stmt.withinL_append, Stmt.withinL_singleton]
    exact ⟨h.stmts, hw.within (hbc.trans h.le) h.exps.1⟩
  alike z I n := by
    rw [execL_append, execL_singleton, execL_singleton, hw.exec he, hw.exec h.exps.1]
    exact h.alike hbc he fun v => hw.alike le_rfl z v

/-- A conditional statement with a relieved test, and new branches behind it. -/
theorem cond (h : Hoists c [e] ss [e'] c₁) (hbc : b ≤ c) (he : e.Within (Old b)) {sp : Span}
    {body body' orElse orElse' : List Stmt} {c₃ : Nat} (hbody : Replaces b c₁ body body' c₂)
    (hother : Replaces b c₂ orElse orElse' c₃) :
    Replaces b c [.cond sp e body orElse] (ss ++ [.cond sp e' body' orElse']) c₃ where
  le := h.le.trans (hbody.le.trans hother.le)
  within := by
    have hle := hbody.le.trans hother.le
    rw [Stmt.withinL_append, Stmt.withinL_singleton]
    exact ⟨h.stmts.mono (old_mono hle) ss, h.exps.1.mono (old_mono hle) e',
      hbody.within.mono (old_mono hother.le) body', hother.within⟩
  alike z I n := by
    rw [execL_append, execL_singleton, execL_singleton, exec_cond, exec_cond]
    refine h.alike hbc he fun v => ?_
    cases v.toBool with
    | true => exact hbody.alike z I n
    | false => exact hother.alike z I n

/-- The value goes through the next temporary. -/
theorem toTemporary {sp nsp : Span} (h : Hoists c [e] ss [e'] c₁) :
    Hoists c [e] (ss ++ [Hoist.assignTo (temporary c₁) sp e']) [.name nsp (temporary c₁)] (c₁ + 1) where
  le := h.le.trans (Nat.le_succ c₁)
  stmts := by
    rw [Stmt.withinL_append, Stmt.withinL_singleton]
    exact ⟨h.stmts.mono (old_mono (Nat.le_succ c₁)) ss, ⟨_, temporary_mem_old.2 (Nat.lt_succ_self c₁), rfl⟩,
      h.exps.1.mono (old_mono (Nat.le_succ c₁)) e'⟩
  exps := ⟨temporary_mem_old.2 (Nat.lt_succ_self c₁), trivial⟩
  run z I n s := by
    obtain ⟨s₁, hrun, hs₁, hsame⟩ := h.run z I n s
    obtain ⟨v, hv⟩ := h.exps.1.exists_eval (z := z) (I := I) (s := s₁) e'
    refine ⟨s₁.set (temporary c₁) v, ?_, ?_, ?_⟩
    · simp only [execL_append, execL_singleton, exec_assignTo, Effect.andThen, Effect.onValue,
        Effect.keep, hrun, hv, Option.bind_eq_bind, Option.bind_some]
    · exact hs₁.trans (eqOn_set (temporary_notMem_old h.le) s₁ v)
    · cases hsame with
      | cons he _ =>
        have hx : (Exp.name nsp (temporary c₁)).eval z I (s₁.set (temporary c₁) v) = some v :=
          congrArg some (Store.set_same s₁ _ v)
        exact .cons (hx.trans (hv.symm.trans he)) .nil

end Hoists

namespace Replaces

variable {b c c₁ c₂ : Nat} {ss ss' ts ts' : List Stmt}

theorem nil (b c : Nat) : Replaces b c [] [] c := ⟨le_rfl, trivial, fun _ _ _ => Effect.alike_skip⟩

theorem congr (h : Replaces b c ss ts c₁)
    (hss : ∀ z I n, Stmt.execL z I n ss = Stmt.execL z I n ss') :
    Replaces b c ss' ts c₁ :=
  ⟨h.le, h.within, fun z I n => hss z I n ▸ h.alike z I n⟩

theorem append (h : Replaces b c ss ss' c₁) (h' : Replaces b c₁ ts ts' c₂) :
    Replaces b c (ss ++ ts) (ss' ++ ts') c₂ where
  le := h.le.trans h'.le
  within := (Stmt.withinL_append ss' ts').2 ⟨h.within.mono (old_mono h'.le) ss', h'.within⟩
  alike z I n := by
    rw [execL_append, execL_append]
    exact (h.alike z I n).andThen (h'.alike z I n)

theorem loop {sp : Span} {t : Exp} (hbc : b ≤ c) (ht : t.Within (Old b))
    (h : Replaces b c ss ss' c₁) :
    Replaces b c [.loop sp t ss []] [.loop sp t ss' []] c₁ where
  le := h.le
  within := (Stmt.withinL_singleton _).2 ⟨ht.mono (old_mono (hbc.trans h.le)) t, h.within, rfl⟩
  alike z I n := by
    simp only [execL_singleton, Stmt.exec]
    exact .rounds (fun _ _ hs => ht.truth?_congr hs) (h.alike z I n) Effect.alike_skip n

/-- What is assigned to the temporary `c` stands behind in its place. -/
theorem hoists {e : Exp} {sp nsp : Span}
    (h : Replaces (c + 1) (c + 1) [Hoist.assignTo (temporary c) sp e] ss c₁)
    (he : e.Within (Old c)) : Hoists c [e] ss [.name nsp (temporary c)] c₁ where
  le := (Nat.le_succ c).trans h.le
  stmts := h.within
  exps := ⟨temporary_mem_old.2 h.le, trivial⟩
  run z I n s := by
    obtain ⟨v, hv⟩ := he.exists_eval (z := z) (I := I) (s := s) e
    have hend := h.alike z I n s s fun _ _ => rfl
    simp only [execL_singleton, exec_assignTo, Effect.onValue, Effect.keep, hv,
      Option.bind_some] at hend
    obtain ⟨s', hrun, hs'⟩ := hend.exists_some
    refine ⟨s', hrun, (eqOn_set (temporary_notMem_old le_rfl) s v).trans (hs'.mono (old_mono (Nat.le_succ c))), ?_⟩
    have hx : s' (temporary c) = v :=
      (hs' (temporary_mem_old.2 (Nat.lt_succ_self c))).symm.trans (Store.set_same s _ v)
    exact .cons ((congrArg some hx).trans hv.symm) .nil

end Replaces

/-! ## statements around an expression -/

section

variable {b : Nat} {sp : Span} {x : String}

theorem Effect.alike_keep {V : Set String} (x : String) (v : Value) : (keep x v).Alike V (keep x v) := by
  intro s s' hs
  refine .some ⟨rfl, fun y hy => ?_⟩
  simp only [Store.set, hs hy]

theorem wraps_assign {ts : List Exp} (h : target? ts = some x) (hx : x ∈ Old b) :
    Wraps b (.assign sp ts) fun _ => Effect.keep x where
  exec _ := exec_assign h _
  alike _ _ v := Effect.alike_keep x v
  within hc he := ⟨⟨x, old_mono hc hx, h⟩, he⟩

theorem wraps_declare {t u : Exp} (h : t.name? = some x) (hu : u.isName) (hx : x ∈ Old b) :
    Wraps b (fun e => .declare sp t u (some e)) fun _ => Effect.keep x where
  exec _ := by
    funext s
    simp only [Stmt.exec, Effect.store, h]
    rfl
  alike _ _ v := Effect.alike_keep x v
  within hc he := by
    refine ⟨⟨x, old_mono hc hx, h⟩, hu, ?_⟩
    rintro _ ⟨⟩
    exact he

theorem wraps_augment {t : Exp} {op : Arith} (h : t.name? = some x) (hop : op.supported)
    (hx : x ∈ Old b) :
    Wraps b (.augment sp t op) fun z v s => (op.result? z (s x) v).map fun w => (.next, s.set x w) where
  exec {V z I n e} _ := by
    funext s
    simp only [Stmt.exec, Effect.onValue, h, Option.bind_eq_bind, Option.bind_some]
    cases e.eval z I s with
    | none => rfl
    | some v => simp [Option.map_eq_bind]
  alike hc z v s s' hs := by
    obtain ⟨w, hw⟩ := Arith.exists_result? hop z (s x) v
    have hw' : op.result? z (s' x) v = some w := by rw [← hs (old_mono hc hx), hw]
    simp only [hw, hw']
    exact Effect.alike_keep x w s s' hs
  within hc he := ⟨⟨x, old_mono hc hx, h⟩, hop, he⟩

theorem wraps_ret : Wraps b (fun e => .ret sp (some e)) fun _ v s => some (.ret (some v), s) where
  exec _ := rfl
  alike _ _ _ _ _ hs := .some ⟨rfl, hs⟩
  within _ he := by
    rintro _ ⟨⟩
    exact he

theorem wraps_exp : Wraps b (.exp sp) fun _ _ => Effect.skip where
  exec {V z I n e} he := by
    funext s
    obtain ⟨v, hv⟩ := he.exists_eval (z := z) (I := I) (s := s) e
    simp [Stmt.exec, Effect.onValue, Effect.skip, hv]
  alike _ _ _ := Effect.alike_skip
  within _ he := .inr he

end

/-! ## statements that stay as they are -/

theorem Replaces.of_alike {b c : Nat} {s : Stmt} (hbc : b ≤ c) (h : s.Within (Old b))
    (hs : ∀ z I n, (s.exec z I n).Alike (Old b) (s.exec z I n)) : Replaces b c [s] [s] c :=
  ⟨le_rfl, (Stmt.withinL_singleton s).2 (h.mono (old_mono hbc) s), fun z I n => by
    simpa only [execL_singleton] using hs z I n⟩

theorem Replaces.of_wraps {b c : Nat} {wrap : Exp → Stmt} {k : (Int → Int) → Value → Effect}
    (hw : Wraps b wrap k) (hbc : b ≤ c) {e : Exp} (he : e.Within (Old b)) :
    Replaces b c [wrap e] [wrap e] c :=
  (Hoists.self (he.mono (old_mono hbc) e)).wrap hbc he hw

mutual

theorem replaces_self {b c : Nat} (hbc : b ≤ c) (s : Stmt) (h : s.Within (Old b)) : Replaces b c [s] [s] c := by
  cases s with
  | assign sp ts v =>
    obtain ⟨⟨x, hx, hts⟩, hv⟩ := h
    exact .of_wraps (wraps_assign hts hx) hbc hv
  | declare sp t u v =>
    cases v with
    | none => exact .of_alike hbc h fun _ _ _ => Effect.alike_skip
    | some v =>
      obtain ⟨⟨x, hx, ht⟩, hu, hv⟩ := h
      exact .of_wraps (wraps_declare ht hu hx) hbc (hv v rfl)
  | augment sp t op v =>
    obtain ⟨⟨x, hx, ht⟩, hop, hv⟩ := h
    exact .of_wraps (wraps_augment ht hop hx) hbc hv
  | exp sp v =>
    rcases h with h | hv
    · refine .of_alike hbc (.inl h) fun z I n => ?_
      rw [exec_of_isNote h]
      exact Effect.alike_skip
    · exact .of_wraps wraps_exp hbc hv
  | cond sp t body orElse =>
    obtain ⟨ht, hbody, hother⟩ := h
    exact (Hoists.self (ht.mono (old_mono hbc) t)).cond hbc ht (replacesL_self hbc body hbody)
      (replacesL_self hbc orElse hother)
  | loop sp t body orElse =>
    obtain ⟨ht, hbody, rfl⟩ := h
    exact (replacesL_self hbc body hbody).loop hbc ht
  | ret sp v =>
    cases v with
    | none => exact .of_alike hbc h fun _ _ _ _ _ hs => .some ⟨rfl, hs⟩
    | some v => exact .of_wraps wraps_ret hbc (h v rfl)
  | pass sp => exact .of_alike hbc h fun _ _ _ => Effect.alike_skip
  | brk sp => exact .of_alike hbc h fun _ _ _ _ _ hs => .some ⟨rfl, hs⟩
  | cont sp => exact .of_alike hbc h fun _ _ _ _ _ hs => .some ⟨rfl, hs⟩
  | function => exact h.elim
  | other => exact h.elim

theorem replacesL_self {b c : Nat} (hbc : b ≤ c) (ss : List Stmt) (h : Stmt.WithinL (Old b) ss) :
    Replaces b c ss ss c := by
  cases ss with
  | nil => exact .nil b c
  | cons s ss => exact (replaces_self hbc s h.1).append (replacesL_self hbc ss h.2)

end

/-! ## computations that hoist -/

namespace Hoist

variable {α β : Type} {c : Nat}

/-- From the `c`-th temporary on, the computation adds statements to those that wait, whatever they
are. -/
def Adds (c : Nat) (m : HoistM α) (post : List Stmt → α → Nat → Prop) : Prop :=
  ∀ waiting, ∃ ss a c', m ⟨c, waiting⟩ = (a, ⟨c', waiting ++ ss⟩) ∧ post ss a c'

/-- The computation stands for a statement: what is left pending comes in front of what it gives
back. -/
def Emits (c : Nat) (m : HoistM (List Stmt)) (post : List Stmt → Nat → Prop) : Prop :=
  ∃ before ss c', m ⟨c, []⟩ = (ss, ⟨c', before⟩) ∧ post (before ++ ss) c'

/-- The computation stands for a list of statements, and nothing is left pending. -/
def Gives (c : Nat) (m : HoistM (List Stmt)) (post : List Stmt → Nat → Prop) : Prop :=
  ∃ ss c', m ⟨c, []⟩ = (ss, ⟨c', []⟩) ∧ post ss c'

theorem run_bind (m : HoistM α) (f : α → HoistM β) (st : Hoist) : (m >>= f) st = f (m st).1 (m st).2 := rfl

theorem run_pure (a : α) (st : Hoist) : (pure a : HoistM α) st = (a, st) := rfl

theorem run_push (ss : List Stmt) (c : Nat) (waiting : List Stmt) : push ss ⟨c, waiting⟩ = ((), ⟨c, waiting ++ ss⟩) := rfl

theorem run_takeAll (c : Nat) (waiting : List Stmt) : takeAll ⟨c, waiting⟩ = (waiting, ⟨c, []⟩) :=
  rfl

section

variable {post : List Stmt → β → Nat → Prop} {pre : List Stmt → α → Nat → Prop} {m : HoistM α} {f : α → HoistM β}

theorem Adds.pure {a : β} (h : post [] a c) : Adds c (pure a) post := fun waiting =>
  ⟨[], a, c, by rw [run_pure, List.append_nil], h⟩

theorem Adds.bind (hm : Adds c m pre)
    (hf : ∀ ss a c', pre ss a c' → Adds c' (f a) fun ts b c'' => post (ss ++ ts) b c'') :
    Adds c (m >>= f) post := by
  intro waiting
  obtain ⟨ss, a, c', hrun, ha⟩ := hm waiting
  obtain ⟨ts, b, c'', hrun', hb⟩ := hf ss a c' ha (waiting ++ ss)
  exact ⟨ss ++ ts, b, c'', by rw [run_bind, hrun, hrun', List.append_assoc], hb⟩

theorem Adds.map {g : α → β} (hm : Adds c m pre) (h : ∀ ss a c', pre ss a c' → post ss (g a) c') :
    Adds c (m >>= fun a => Pure.pure (g a)) post := by
  intro waiting
  obtain ⟨ss, a, c', hrun, ha⟩ := hm waiting
  exact ⟨ss, g a, c', by rw [run_bind, hrun, run_pure], h ss a c' ha⟩

theorem Adds.push {ss : List Stmt} {a : β} (h : post ss a c) :
    Adds c (push ss >>= fun _ => Pure.pure a) post :=
  fun _ => ⟨ss, a, c, rfl, h⟩

/-- The temporary that is next, if the computation goes on with the one behind it. -/
theorem Adds.fresh {f : String → HoistM β} (h : Adds (c + 1) (f (temporary c)) post) : Adds c (fresh >>= f) post := h

end

section

variable {pre : List Stmt → α → Nat → Prop} {post : List Stmt → Nat → Prop} {m : HoistM α}

theorem Adds.emits {g : α → List Stmt} (hm : Adds c m pre)
    (h : ∀ ss a c', pre ss a c' → post (ss ++ g a) c') :
    Emits c (m >>= fun a => Pure.pure (g a)) post := by
  obtain ⟨ss, a, c', hrun, ha⟩ := hm []
  exact ⟨ss, g a, c', by rw [run_bind, hrun, run_pure, List.nil_append], h ss a c' ha⟩

theorem Emits.pure {ss : List Stmt} (h : post ss c) : Emits c (pure ss) post := ⟨[], ss, c, rfl, h⟩

end

/-! ## computations for statements -/

section

variable {b : Nat} {sp : Span} {ms : HoistM (List Stmt)}

/-- A statement around an expression. -/
theorem Emits.wrap {m : HoistM Exp} {e : Exp} {wrap : Exp → Stmt} {k : (Int → Int) → Value → Effect}
    (hw : Wraps b wrap k) (hbc : b ≤ c) (he : e.Within (Old b))
    (hm : Adds c m fun ss e' => Hoists c [e] ss [e']) :
    Emits c (m >>= fun e' => Pure.pure [wrap e']) (Replaces b c [wrap e]) :=
  hm.emits fun _ _ _ hH => hH.wrap hbc he hw

theorem Emits.cond {mt : HoistM Exp} {mb mo : HoistM (List Stmt)} {t : Exp}
    {body orElse : List Stmt} (hbc : b ≤ c) (ht : t.Within (Old b))
    (hmt : Adds c mt fun ss t' => Hoists c [t] ss [t'])
    (hmb : ∀ c', b ≤ c' → Gives c' mb (Replaces b c' body))
    (hmo : ∀ c', b ≤ c' → Gives c' mo (Replaces b c' orElse)) :
    Emits c (do
      let t ← mt
      let before ← takeAll
      let body ← mb
      let orElse ← mo
      return before ++ [.cond sp t body orElse]) (Replaces b c [.cond sp t body orElse]) := by
  obtain ⟨ss, t', c₁, hrun, hT⟩ := hmt []
  have hc₁ := hbc.trans hT.le
  obtain ⟨body', c₂, hrun₁, hB⟩ := hmb c₁ hc₁
  obtain ⟨orElse', c₃, hrun₂, hO⟩ := hmo c₂ (hc₁.trans hB.le)
  refine ⟨[], ss ++ [.cond sp t' body' orElse'], c₃, ?_, hT.cond hbc ht hB hO⟩
  simp only [run_bind, run_pure, hrun, List.nil_append, run_takeAll, hrun₁, hrun₂]

theorem Emits.loop {t : Exp} {body : List Stmt} (hbc : b ≤ c) (ht : t.Within (Old b))
    (hm : Gives c ms (Replaces b c body)) :
    Emits c (do
      let body ← ms
      return [.loop sp t body []]) (Replaces b c [.loop sp t body []]) := by
  obtain ⟨body', c', hrun, hB⟩ := hm
  refine ⟨[], [.loop sp t body' []], c', ?_, hB.loop hbc ht⟩
  simp only [run_bind, run_pure, hrun]

theorem Gives.cons {s : Stmt} {ss : List Stmt} {mss : HoistM (List Stmt)} (hbc : b ≤ c)
    (hm : Emits c ms (Replaces b c [s])) (hms : ∀ c', b ≤ c' → Gives c' mss (Replaces b c' ss)) :
    Gives c (do
      let s ← ms
      let before ← takeAll
      let ss ← mss
      return before ++ s ++ ss) (Replaces b c (s :: ss)) := by
  obtain ⟨before, s', c₁, hrun, hS⟩ := hm
  obtain ⟨ss', c₂, hrun', hSS⟩ := hms c₁ (hbc.trans hS.le)
  refine ⟨before ++ s' ++ ss', c₂, ?_, hS.append hSS⟩
  simp only [run_bind, run_pure, hrun, run_takeAll, hrun']

/-- A statement that is left as it is. -/
theorem emits_self {s : Stmt} (hbc : b ≤ c) (h : s.Within (Old b)) :
    Emits c (pure [s]) (Replaces b c [s]) :=
  .pure (replaces_self hbc s h)

end

end Hoist

end ContractVerifier.Source
