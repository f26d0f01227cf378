import ContractVerifier.Proofs.Source.Form
import ContractVerifier.Proofs.Source.Preprocess

/-!
# The normal form

Each pass takes its construct out of a body, keeps the rest of the form, and leaves the invariants
at the start of loops where they are (`form_expandAugmentsL`, `form_liftIfL`, `form_liftCallL`).
One after the other the passes give the normal form (`Function.preprocess_normal`).

* `HasForm`, `HasLoopForm` : what is known of statements that take the place of others.
-/

namespace ContractVerifier.Source

/-! ## computations that hoist, step by step -/

namespace Hoist

variable {α : Type} {c : Nat} {sp : Span}

theorem Adds.mono {m : HoistM α} {pre post : List Stmt → α → Nat → Prop} (h : Adds c m pre)
    (hp : ∀ ss a c', pre ss a c' → post ss a c') : Adds c m post := by
  intro waiting
  obtain ⟨ss, a, c', hrun, ha⟩ := h waiting
  exact ⟨ss, a, c', hrun, hp ss a c' ha⟩

theorem Gives.mono {m : HoistM (List Stmt)} {pre post : List Stmt → Nat → Prop} (h : Gives c m pre)
    (hp : ∀ ss c', pre ss c' → post ss c') : Gives c m post := by
  obtain ⟨ss, c', hrun, hss⟩ := h
  exact ⟨ss, c', hrun, hp ss c' hss⟩

theorem Emits.mono {m : HoistM (List Stmt)} {pre post : List Stmt → Nat → Prop} (h : Emits c m pre)
    (hp : ∀ ss c', pre ss c' → post ss c') : Emits c m post := by
  obtain ⟨before, ss, c', hrun, hss⟩ := h
  exact ⟨before, ss, c', hrun, hp _ c' hss⟩

section

variable {post : List Stmt → Nat → Prop}

/-- A test, and then two branches with nothing pending between them. -/
theorem Emits.branch {mt : HoistM Exp} {mb mo : HoistM (List Stmt)}
    (h : Adds c mt fun ss t c₁ => Gives c₁ mb fun body c₂ => Gives c₂ mo fun orElse c₃ =>
      post (ss ++ [.cond sp t body orElse]) c₃) :
    Emits c (do
      let t ← mt
      let before ← takeAll
      let body ← mb
      let orElse ← mo
      return before ++ [.cond sp t body orElse]) post := by
  obtain ⟨ss, t, c₁, hrun, body, c₂, hrun₁, orElse, c₃, hrun₂, hpost⟩ := h []
  refine ⟨[], ss ++ [.cond sp t body orElse], c₃, ?_, hpost⟩
  simp only [run_bind, run_pure, hrun, List.nil_append, run_takeAll, hrun₁, hrun₂]

theorem Emits.around {ms : HoistM (List Stmt)} {wrap : List Stmt → Stmt}
    (h : Gives c ms fun body c' => post [wrap body] c') :
    Emits c (ms >>= fun body => Pure.pure [wrap body]) post := by
  obtain ⟨body, c', hrun, hpost⟩ := h
  exact ⟨[], [wrap body], c', by simp only [run_bind, run_pure, hrun], hpost⟩

/-- A statement, and then those behind it. -/
theorem Gives.next {ms mss : HoistM (List Stmt)}
    (h : Emits c ms fun ss c₁ => Gives c₁ mss fun ts c₂ => post (ss ++ ts) c₂) :
    Gives c (do
      let s ← ms
      let before ← takeAll
      let ss ← mss
      return before ++ s ++ ss) post := by
  obtain ⟨before, ss, c₁, hrun, ts, c₂, hrun', hpost⟩ := h
  refine ⟨before ++ ss ++ ts, c₂, ?_, hpost⟩
  simp only [run_bind, run_pure, hrun, run_takeAll, hrun']

end

/-- A test and two arms, each of which leaves statements. -/
theorem Adds.choose {mt ma mb : HoistM Exp} {post : List Stmt → Stmt → Nat → Prop}
    (h : Adds c mt fun ss t c₁ => Adds c₁ ma fun body _ c₂ => Adds c₂ mb fun orElse _ c₃ =>
      post ss (.cond sp t body orElse) c₃) : Adds c (choose sp mt ma mb) post := by
  intro waiting
  obtain ⟨ss, t, c₁, hrun, h⟩ := h waiting
  obtain ⟨body, a, c₂, hrun₁, h⟩ := h []
  obtain ⟨orElse, b, c₃, hrun₂, hpost⟩ := h []
  refine ⟨ss, .cond sp t body orElse, c₃, ?_, hpost⟩
  simp only [Source.choose, run_bind, run_pure, hrun, run_takeAll, hrun₁, List.nil_append, hrun₂,
    run_push]

end Hoist

open Hoist

/-! ## statements of a form -/

/-- The statements are of the form, and `ms` are the invariants at the start of their loops. -/
structure HasForm (φ : BodyForm) (inLoop : Bool) (ms : List (List Stmt)) (ss : List Stmt) :
    Prop where
  form : Stmt.InFormL φ inLoop ss
  markers : Stmt.markersL ss = ms

/-- `ts` is of the form of a loop body, with the invariants of `ss`. -/
structure HasLoopForm (φ : BodyForm) (ss ts : List Stmt) : Prop where
  form : Stmt.InLoopForm φ ts
  leading : ts.takeWhile Stmt.isInvariant = ss.takeWhile Stmt.isInvariant
  markers : Stmt.markersL ts = Stmt.markersL ss

section

variable {φ : BodyForm} {inLoop : Bool} {ms ms' : List (List Stmt)} {ss ts : List Stmt} {s : Stmt} {sp : Span} {t : Exp}

theorem HasForm.nil : HasForm φ inLoop [] [] := ⟨trivial, rfl⟩

theorem HasForm.single (h : s.InForm φ inLoop) : HasForm φ inLoop s.markers [s] :=
  ⟨Stmt.inFormL_singleton.2 h, Stmt.markersL_singleton s⟩

theorem HasForm.append (h : HasForm φ inLoop ms ss) (h' : HasForm φ inLoop ms' ts) :
    HasForm φ inLoop (ms ++ ms') (ss ++ ts) :=
  ⟨Stmt.inFormL_append.2 ⟨h.form, h'.form⟩, by rw [Stmt.markersL_append, h.markers, h'.markers]⟩

theorem HasForm.cond (ht : t.InForm φ.toForm) (hne : φ.shaped → ss ≠ [])
    (h : HasForm φ inLoop ms ss) (h' : HasForm φ inLoop ms' ts) :
    HasForm φ inLoop (ms ++ ms') [.cond sp t ss ts] where
  form := Stmt.inFormL_singleton.2 ⟨ht, hne, h.form, h'.form⟩
  markers := by rw [Stmt.markersL_singleton, Stmt.markers, h.markers, h'.markers]

theorem HasForm.loop (ht : t.InForm φ.flat) (h : HasLoopForm φ ss ts) :
    HasForm φ inLoop (Stmt.loop sp t ss []).markers [.loop sp t ts []] where
  form := Stmt.inFormL_singleton.2 ⟨ht, rfl, h.form⟩
  markers := by simp only [Stmt.markersL_singleton, Stmt.markers, h.leading, h.markers]

/-- A statement behind those that were moved out of it. -/
theorem HasForm.behind (h : HasForm φ inLoop [] ss) (hs : HasForm φ inLoop ms [s]) :
    HasForm φ inLoop ms (ss ++ [s]) ∧ ss ++ [s] ≠ [] :=
  ⟨h.append hs, List.append_ne_nil_of_right_ne_nil ss (List.cons_ne_nil _ _)⟩

theorem HasLoopForm.nil : HasLoopForm φ [] [] := ⟨trivial, rfl, rfl⟩

/-- An invariant stays at the start. -/
theorem HasLoopForm.cons (hs : s.isInvariant) (h : HasLoopForm φ ss ts) :
    HasLoopForm φ (s :: ss) (s :: ts) where
  form := .inl ⟨hs, h.form⟩
  leading := by simp only [List.takeWhile_cons, hs, if_true, h.leading]
  markers := by simp only [Stmt.markersL, h.markers]

/-- Behind the invariants there are statements of the form, before and after. -/
theorem HasLoopForm.of_hasForm {φ' : BodyForm} (hss : Stmt.InFormL φ' inLoop ss)
    (h : HasForm φ true (Stmt.markersL ss) ts) :
    HasLoopForm φ ss ts where
  form := by
    cases ts with
    | nil => trivial
    | cons t ts => exact .inr h.form
  leading := h.form.takeWhile_isInvariant.trans hss.takeWhile_isInvariant.symm
  markers := h.markers

end

section

variable {φ : BodyForm} {inLoop : Bool} {c : Nat} {mss : HoistM (List Stmt)}

/-- The statements in the place of a branch. -/
theorem emits_hasForm_cond {sp : Span} {t : Exp} {body orElse : List Stmt} {mt : HoistM Exp}
    {mb mo : HoistM (List Stmt)} (hne : φ.shaped → body ≠ [])
    (ht : Adds c mt fun ss t' _ => HasForm φ inLoop [] ss ∧ t'.InForm φ.toForm)
    (hb : ∀ c', Gives c' mb fun ts _ => HasForm φ inLoop (Stmt.markersL body) ts ∧ (body ≠ [] → ts ≠ []))
    (ho : ∀ c', Gives c' mo fun ts _ => HasForm φ inLoop (Stmt.markersL orElse) ts ∧ (orElse ≠ [] → ts ≠ [])) :
    Emits c (do
      let t ← mt
      let before ← takeAll
      let body ← mb
      let orElse ← mo
      return before ++ [.cond sp t body orElse]) fun ss _ =>
        HasForm φ inLoop (Stmt.cond sp t body orElse).markers ss ∧ ss ≠ [] := by
  refine .branch (ht.mono fun ss t' c₁ hT => (hb c₁).mono fun body' c₂ hB => (ho c₂).mono fun orElse' c₃ hO => ?_)
  exact hT.1.behind (.cond hT.2 (fun hs => hB.2 (hne hs)) hB.1 hO.1)

/-- The statements in the place of a list. -/
theorem gives_hasForm_cons {s : Stmt} {ss : List Stmt} {ms : HoistM (List Stmt)}
    (hs : Emits c ms fun ts _ => HasForm φ inLoop s.markers ts ∧ ts ≠ [])
    (hss : ∀ c', Gives c' mss fun ts _ => HasForm φ inLoop (Stmt.markersL ss) ts ∧ (ss ≠ [] → ts ≠ [])) :
    Gives c (do
      let s ← ms
      let before ← takeAll
      let ss ← mss
      return before ++ s ++ ss) fun ts _ =>
        HasForm φ inLoop (Stmt.markersL (s :: ss)) ts ∧ (s :: ss ≠ [] → ts ≠ []) := by
  refine .next (hs.mono fun s' c₁ hs' => (hss c₁).mono fun ss' c₂ hss' => ⟨hs'.1.append hss'.1, fun _ => ?_⟩)
  exact List.append_ne_nil_of_left_ne_nil hs'.2 ss'

end

theorem ne_nil_of_length_eq {α : Type} {l l' : List α} (h : l'.length = l.length) (hl : l ≠ []) : l' ≠ [] := by
  rintro rfl
  exact hl (List.length_eq_zero_iff.1 h.symm)

/-! ## augmented assignments -/

/-- The form behind the first pass. -/
def BodyForm.withoutAugments (φ : BodyForm) : BodyForm := { φ with augments := false }

section

variable {φ : BodyForm}

mutual

theorem form_expandAugments {inLoop : Bool} (s : Stmt) (h : s.InForm φ inLoop) :
    ∃ s', s.expandAugments = .ok s' ∧ s'.InForm φ.withoutAugments inLoop ∧ s'.markers = s.markers := by
  cases s with
  | augment sp t op v =>
    obtain ⟨-, ⟨x, ht⟩, hop, hv⟩ := h
    cases t with
    | name nsp y => exact ⟨_, rfl, ⟨⟨y, rfl⟩, hop, trivial, hv⟩, rfl⟩
    | _ => cases ht
  | cond sp t body orElse =>
    obtain ⟨ht, hne, hbody, hother⟩ := h
    obtain ⟨body', hb, hbody', hmb, hlen⟩ := form_expandAugmentsL body hbody
    obtain ⟨orElse', ho, hother', hmo, -⟩ := form_expandAugmentsL orElse hother
    refine ⟨.cond sp t body' orElse', ?_, ⟨ht, fun hs => ?_, hbody', hother'⟩, ?_⟩
    · simp only [Stmt.expandAugments, hb, ho]
      rfl
    · exact ne_nil_of_length_eq hlen (hne hs)
    · simp only [Stmt.markers, hmb, hmo]
  | loop sp t body orElse =>
    obtain ⟨ht, rfl, hbody⟩ := h
    obtain ⟨body', hb, hbody'⟩ := form_expandAugments_loop body hbody
    refine ⟨.loop sp t body' [], ?_, ⟨ht, rfl, hbody'.form⟩, ?_⟩
    · simp only [Stmt.expandAugments, hb, Stmt.expandAugmentsL]
      rfl
    · simp only [Stmt.markers, hbody'.leading, hbody'.markers]
  | function | other => exact h.elim
  | assign | declare | exp | ret | pass | brk | cont => exact ⟨_, rfl, h, rfl⟩

theorem form_expandAugmentsL {inLoop : Bool} (ss : List Stmt) (h : Stmt.InFormL φ inLoop ss) :
    ∃ ss', Stmt.expandAugmentsL ss = .ok ss' ∧ Stmt.InFormL φ.withoutAugments inLoop ss' ∧
      Stmt.markersL ss' = Stmt.markersL ss ∧ ss'.length = ss.length := by
  cases ss with
  | nil => exact ⟨[], rfl, trivial, rfl, rfl⟩
  | cons s ss =>
    obtain ⟨s', hs, hs', hm⟩ := form_expandAugments s h.1
    obtain ⟨ss', hss, hss', hms, hlen⟩ := form_expandAugmentsL ss h.2
    refine ⟨s' :: ss', ?_, ⟨hs', hss'⟩, ?_, congrArg (· + 1) hlen⟩
    · simp only [Stmt.expandAugmentsL, hs, hss]
      rfl
    · simp only [Stmt.markersL, hm, hms]

theorem form_expandAugments_loop (ss : List Stmt) (h : Stmt.InLoopForm φ ss) :
    ∃ ss', Stmt.expandAugmentsL ss = .ok ss' ∧ HasLoopForm φ.withoutAugments ss ss' := by
  cases ss with
  | nil => exact ⟨[], rfl, .nil⟩
  | cons s ss =>
    rcases h with ⟨hs, h⟩ | ⟨hs, hss⟩
    · obtain ⟨sp, v, rfl⟩ := Stmt.eq_exp_of_isNote (Stmt.isNote_of_isInvariant hs)
      obtain ⟨ss', hrun, hss'⟩ := form_expandAugments_loop ss h
      refine ⟨.exp sp v :: ss', ?_, hss'.cons hs⟩
      simp only [Stmt.expandAugmentsL, Stmt.expandAugments, hrun]
      rfl
    · obtain ⟨s', hrun, hs', hm⟩ := form_expandAugments s hs
      obtain ⟨ss', hrun', hss', hms, -⟩ := form_expandAugmentsL ss hss
      refine ⟨s' :: ss', ?_, .of_hasForm (show Stmt.InFormL φ true (s :: ss) from ⟨hs, hss⟩) ⟨⟨hs', hss'⟩, ?_⟩⟩
      · simp only [Stmt.expandAugmentsL, hrun, hrun']
        rfl
      · simp only [Stmt.markersL, hm, hms]

end

end

/-! ## conditional expressions -/

/-- The form behind the second pass. -/
def BodyForm.withoutConditionals (φ : BodyForm) : BodyForm := { φ with conditionals := false }

section

variable {φ : BodyForm} {inLoop : Bool}

/-- The two ways in which a conditional expression is expanded. -/
structure FormLiftsIf (φ : BodyForm) (inLoop : Bool) (e : Exp) : Prop where
  value : ∀ c, e.InForm φ.toForm → Adds c (e.liftIf none) fun ss e' _ =>
    HasForm φ.withoutConditionals inLoop [] ss ∧ e'.InForm φ.withoutConditionals.toForm
  wrapped : ∀ c wrap, e.InForm φ.toForm →
    (∀ e', e'.InForm φ.withoutConditionals.toForm → HasForm φ.withoutConditionals inLoop [] [wrap e']) →
    Adds c (e.liftIf (some wrap)) fun ss _ _ => HasForm φ.withoutConditionals inLoop [] ss ∧ ss ≠ []

theorem FormLiftsIf.of_value {e : Exp} (hif : e.isIfElse = false)
    (h : ∀ c, e.InForm φ.toForm → Adds c (e.liftIf none) fun ss e' _ =>
      HasForm φ.withoutConditionals inLoop [] ss ∧ e'.InForm φ.withoutConditionals.toForm) : FormLiftsIf φ inLoop e where
  value := h
  wrapped c wrap he hw := by
    rw [liftIf_some hif]
    exact (h c he).bind fun ss e' c' hH => Adds.push (hH.1.behind (hw e' hH.2))

/-- What the test and the arms of a conditional expression leave. -/
theorem FormLiftsIf.choose {sp : Span} {t a b : Exp} (ht : FormLiftsIf φ inLoop t)
    (ha : FormLiftsIf φ inLoop a)
    (hb : FormLiftsIf φ inLoop b) (h : (Exp.ifElse sp t a b).InForm φ.toForm) (c : Nat)
    {wrap₁ wrap₂ : Exp → Stmt}
    (hw₁ : ∀ e', e'.InForm φ.withoutConditionals.toForm → HasForm φ.withoutConditionals inLoop [] [wrap₁ e'])
    (hw₂ : ∀ e', e'.InForm φ.withoutConditionals.toForm → HasForm φ.withoutConditionals inLoop [] [wrap₂ e']) :
    Adds c (Source.choose sp (t.liftIf none) (a.liftIf (some wrap₁)) (b.liftIf (some wrap₂))) fun ss st _ =>
      HasForm φ.withoutConditionals inLoop [] (ss ++ [st]) ∧ ss ++ [st] ≠ [] := by
  refine Adds.choose ((ht.value c h.2.1).mono fun ss t' c₁ hT => ?_)
  refine (ha.wrapped c₁ wrap₁ h.2.2.1 hw₁).mono fun body _ c₂ hA => ?_
  refine (hb.wrapped c₂ wrap₂ h.2.2.2 hw₂).mono fun orElse _ c₃ hB => ?_
  exact hT.1.behind (.cond hT.2 (fun _ => hA.2) hA.1 hB.1)

theorem FormLiftsIf.ifElse {sp : Span} {t a b : Exp} (ht : FormLiftsIf φ inLoop t)
    (ha : FormLiftsIf φ inLoop a) (hb : FormLiftsIf φ inLoop b) :
    FormLiftsIf φ inLoop (.ifElse sp t a b) where
  value c h := by
    simp only [Exp.liftIf]
    refine Adds.fresh ?_
    have hw (sp : Span) (e' : Exp) (he : e'.InForm φ.withoutConditionals.toForm) :
        HasForm φ.withoutConditionals inLoop [] [assignTo (temporary c) sp e'] :=
      .single (s := assignTo (temporary c) sp e') ⟨⟨_, rfl⟩, he.whole⟩
    exact (ht.choose ha hb h (c + 1) (hw a.span) (hw b.span)).bind fun ss st c' hS => Adds.push ⟨hS.1, trivial⟩
  wrapped c wrap h hw := by
    simp only [Exp.liftIf]
    exact (ht.choose ha hb h c hw hw).bind fun ss st c' hS => Adds.push hS

mutual

theorem formLiftsIf (e : Exp) : FormLiftsIf φ inLoop e := by
  cases e with
  | ifElse sp t a b => exact .ifElse (formLiftsIf t) (formLiftsIf a) (formLiftsIf b)
  | constant sp k =>
    refine .of_value rfl fun c h => ?_
    simp only [Exp.liftIf, finish]
    exact .pure ⟨.nil, h⟩
  | name sp x =>
    refine .of_value rfl fun c h => ?_
    simp only [Exp.liftIf, finish]
    exact .pure ⟨.nil, h⟩
  | unary sp op e =>
    refine .of_value rfl fun c h => ?_
    simp only [Exp.liftIf, finish]
    exact ((formLiftsIf e).value c h.2).map fun ss e' c' he => ⟨he.1, h.1, he.2⟩
  | binary sp l op r =>
    refine .of_value rfl fun c h => ?_
    simp only [Exp.liftIf, finish]
    refine ((formLiftsIf l).value c h.2.1).bind fun ss l' c₁ hl => ?_
    exact ((formLiftsIf r).value c₁ h.2.2).map fun ts r' c₂ hr => ⟨hl.1.append hr.1, h.1, hl.2, hr.2⟩
  | logic sp op es =>
    refine .of_value rfl fun c h => ?_
    simp only [Exp.liftIf, finish]
    refine (form_liftIf_exps es c h.2).map fun ss es' c' hes => ?_
    exact ⟨hes.1, fun hs => ne_nil_of_length_eq hes.2.2 (h.1 hs), hes.2.1⟩
  | compare sp l ops rs =>
    refine .of_value rfl fun c h => ?_
    simp only [Exp.liftIf, finish]
    refine ((formLiftsIf l).value c h.2.2.1).bind fun ss l' c₁ hl => ?_
    refine (form_liftIf_exps rs c₁ h.2.2.2).map fun ts rs' c₂ hrs => ?_
    exact ⟨hl.1.append hrs.1, h.1, fun hs => (h.2.1 hs).trans hrs.2.2.symm, hl.2, hrs.2.1⟩
  | call sp f args keywords =>
    refine .of_value rfl fun c h => ?_
    obtain ⟨hcalls, hf, rfl, hargs⟩ := h
    cases f with
    | name nsp id =>
      simp only [Exp.liftIf, Part.liftIfL, finish, pure_bind]
      exact (form_liftIf_exps args c hargs).map fun ss args' c' hes => ⟨hes.1, hcalls, hf, rfl, hes.2.1⟩
    | _ => exact hf.elim
  | other sp k ps => exact .of_value rfl fun _ h => h.elim

theorem form_liftIf_exps (es : List Exp) (c : Nat) (h : Exp.InFormL φ.toForm es) :
    Adds c (Exp.liftIfL es) fun ss es' _ => HasForm φ.withoutConditionals inLoop [] ss ∧
      Exp.InFormL φ.withoutConditionals.toForm es' ∧ es'.length = es.length := by
  cases es with
  | nil =>
    simp only [Exp.liftIfL]
    exact .pure ⟨.nil, trivial, rfl⟩
  | cons e es =>
    simp only [Exp.liftIfL]
    refine ((formLiftsIf e).value c h.1).bind fun ss e' c₁ he => ?_
    refine (form_liftIf_exps es c₁ h.2).map fun ts es' c₂ hes => ?_
    exact ⟨he.1.append hes.1, ⟨he.2, hes.2.1⟩, congrArg (· + 1) hes.2.2⟩

end

/-- A statement around an expression. -/
theorem form_liftIf_wrap {e : Exp} {wrap : Exp → Stmt} (he : e.InForm φ.toForm)
    (hw : ∀ e', e'.InForm φ.withoutConditionals.toForm → HasForm φ.withoutConditionals inLoop [] [wrap e']) (c : Nat) :
    Emits c (e.liftIf none >>= fun e' => pure [wrap e']) fun ss _ => HasForm φ.withoutConditionals inLoop [] ss ∧ ss ≠ [] := by
  exact ((formLiftsIf e).value c he).emits fun ss e' c' hH => hH.1.behind (hw e' hH.2)

/-- A statement whose whole value is a conditional expression. -/
theorem form_liftIf_spread {e : Exp} {wrap : Exp → Stmt} (he : e.InForm φ.toForm)
    (hw : ∀ e', e'.InForm φ.withoutConditionals.toForm → HasForm φ.withoutConditionals inLoop [] [wrap e']) (c : Nat) :
    Emits c (e.liftIf (some wrap) >>= fun _ => pure []) fun ss _ => HasForm φ.withoutConditionals inLoop [] ss ∧ ss ≠ [] := by
  refine ((formLiftsIf e).wrapped c wrap he hw).emits fun ss _ c' hS => ?_
  rwa [List.append_nil]

/-- A statement that stays as it is. -/
theorem form_emits_self {φ : BodyForm} {s : Stmt} (h : s.InForm φ inLoop) (c : Nat) :
    Emits c (pure [s]) fun ss _ => HasForm φ inLoop s.markers ss ∧ ss ≠ [] :=
  .pure ⟨.single h, List.cons_ne_nil _ _⟩

end

section

variable {φ : BodyForm}

mutual

theorem form_liftIf (hcalls : φ.calls) (htypes : ∀ u, φ.types u → u.liftIf none = pure u)
    {inLoop : Bool} (s : Stmt) (h : s.InForm φ inLoop) (c : Nat) :
    Emits c s.liftIf fun ss _ => HasForm φ.withoutConditionals inLoop s.markers ss ∧ ss ≠ [] := by
  cases s with
  | assign sp ts v =>
    obtain ⟨hts, hv⟩ := h
    have hw (v' : Exp) (hv' : v'.InForm φ.withoutConditionals.toForm) :
        HasForm φ.withoutConditionals inLoop [] [.assign sp ts v'] := .single (s := .assign sp ts v') ⟨hts, hv'.whole⟩
    simp only [Stmt.liftIf]
    split
    · exact form_liftIf_spread (hv.inForm hcalls) hw c
    · exact form_liftIf_wrap (hv.inForm hcalls) hw c
  | declare sp t u v =>
    obtain ⟨⟨x, ht⟩, hu, hv⟩ := h
    cases v with
    | none =>
      simp only [Stmt.liftIf, liftIf_of_name? ht, htypes u hu, pure_bind]
      exact .pure ⟨.single ⟨⟨x, ht⟩, hu, nofun⟩, List.cons_ne_nil _ _⟩
    | some v =>
      simp only [Stmt.liftIf, liftIf_of_name? ht, htypes u hu, pure_bind]
      refine form_liftIf_wrap ((hv v rfl).inForm hcalls) (fun v' hv' => ?_) c
      refine .single (s := .declare sp t u (some v')) ⟨⟨x, ht⟩, hu, ?_⟩
      rintro _ ⟨⟩
      exact hv'.whole
  | augment sp t op v =>
    obtain ⟨haug, ⟨x, ht⟩, hop, hv⟩ := h
    simp only [Stmt.liftIf, liftIf_of_name? ht, pure_bind]
    exact form_liftIf_wrap hv (fun v' hv' => .single (s := .augment sp t op v') ⟨haug, ⟨x, ht⟩, hop, hv'⟩) c
  | exp sp v =>
    obtain ⟨hcall, hv⟩ := h
    cases v with
    | call csp f args keywords =>
      obtain ⟨hf, rfl, hargs⟩ := hv
      cases f with
      | name nsp id =>
        simp only [Stmt.liftIf, Exp.liftIf, Part.liftIfL, finish, pure_bind, bind_assoc]
        exact (form_liftIf_exps args c hargs).emits fun ss args' c' hes =>
          hes.1.behind (.single (s := .exp sp (.call csp (.name nsp id) args' [])) ⟨rfl, hf, rfl, hes.2.1⟩)
      | _ => exact hf.elim
    | _ => cases hcall
  | cond sp t body orElse =>
    obtain ⟨ht, hne, hbody, hother⟩ := h
    simp only [Stmt.liftIf]
    exact emits_hasForm_cond hne ((formLiftsIf t).value c ht) (form_liftIfL hcalls htypes body hbody)
      (form_liftIfL hcalls htypes orElse hother)
  | loop sp t body orElse =>
    obtain ⟨ht, rfl, hbody⟩ := h
    simp only [Stmt.liftIf]
    refine .around ((form_liftIf_loop hcalls htypes body hbody c).mono fun body' c' hB => ⟨?_, List.cons_ne_nil _ _⟩)
    exact .loop ht hB
  | ret sp v =>
    cases v with
    | none =>
      simp only [Stmt.liftIf]
      exact .pure ⟨.single nofun, List.cons_ne_nil _ _⟩
    | some v =>
      have hw (v' : Exp) (hv' : v'.InForm φ.withoutConditionals.toForm) :
          HasForm φ.withoutConditionals inLoop [] [.ret sp (some v')] := by
        refine .single (s := .ret sp (some v')) ?_
        rintro _ ⟨⟩
        exact hv'
      simp only [Stmt.liftIf]
      split
      · exact form_liftIf_spread (h v rfl) hw c
      · exact form_liftIf_wrap (h v rfl) hw c
  | pass sp =>
    simp only [Stmt.liftIf]
    exact form_emits_self (s := .pass sp) trivial c
  | brk sp =>
    simp only [Stmt.liftIf]
    exact form_emits_self (φ := φ.withoutConditionals) (s := .brk sp) h c
  | cont sp =>
    simp only [Stmt.liftIf]
    exact form_emits_self (φ := φ.withoutConditionals) (s := .cont sp) h c
  | function | other => exact h.elim

theorem form_liftIfL (hcalls : φ.calls) (htypes : ∀ u, φ.types u → u.liftIf none = pure u)
    {inLoop : Bool} (ss : List Stmt) (h : Stmt.InFormL φ inLoop ss) (c : Nat) :
    Gives c (Stmt.liftIfL ss) fun ts _ =>
      HasForm φ.withoutConditionals inLoop (Stmt.markersL ss) ts ∧ (ss ≠ [] → ts ≠ []) := by
  cases ss with
  | nil =>
    simp only [Stmt.liftIfL]
    exact ⟨[], c, rfl, .nil, id⟩
  | cons s ss =>
    simp only [Stmt.liftIfL]
    exact gives_hasForm_cons (form_liftIf hcalls htypes s h.1 c) (form_liftIfL hcalls htypes ss h.2)

theorem form_liftIf_loop (hcalls : φ.calls) (htypes : ∀ u, φ.types u → u.liftIf none = pure u)
    (ss : List Stmt) (h : Stmt.InLoopForm φ ss) (c : Nat) :
    Gives c (Stmt.liftIfL ss) fun ts _ => HasLoopForm φ.withoutConditionals ss ts := by
  cases ss with
  | nil =>
    simp only [Stmt.liftIfL]
    exact ⟨[], c, rfl, .nil⟩
  | cons s ss =>
    rcases h with ⟨hs, h⟩ | ⟨hs, hss⟩
    · obtain ⟨sp, v, rfl⟩ := Stmt.eq_exp_of_isNote (Stmt.isNote_of_isInvariant hs)
      simp only [Stmt.liftIfL, Stmt.liftIf, liftIf_of_isNote (Stmt.isNote_of_isInvariant hs),
        pure_bind]
      exact .next (.pure ((form_liftIf_loop hcalls htypes ss h c).mono fun ss' c' hss' => hss'.cons hs))
    · simp only [Stmt.liftIfL]
      have hform :=
        gives_hasForm_cons (form_liftIf hcalls htypes s hs c) (form_liftIfL hcalls htypes ss hss)
      refine hform.mono fun ts c' hts => ?_
      exact .of_hasForm (show Stmt.InFormL φ true (s :: ss) from ⟨hs, hss⟩) hts.1

end

end

/-! ## nested calls -/

/-- The form behind the third pass. -/
def BodyForm.withoutCalls (φ : BodyForm) : BodyForm := { φ with calls := false }

section

variable {φ : BodyForm} {inLoop : Bool}

mutual

theorem form_liftCall_exp (e : Exp) (c : Nat) (h : e.InForm φ.toForm) :
    Adds c (e.liftCall false) fun ss e' _ => HasForm φ.withoutCalls inLoop [] ss ∧ e'.InForm φ.withoutCalls.toForm := by
  cases e with
  | constant sp k =>
    simp only [Exp.liftCall]
    exact .pure ⟨.nil, h⟩
  | name sp x =>
    simp only [Exp.liftCall]
    exact .pure ⟨.nil, h⟩
  | unary sp op e =>
    simp only [Exp.liftCall]
    exact (form_liftCall_exp e c h.2).map fun ss e' c' he => ⟨he.1, h.1, he.2⟩
  | binary sp l op r =>
    simp only [Exp.liftCall]
    refine (form_liftCall_exp l c h.2.1).bind fun ss l' c₁ hl => ?_
    exact (form_liftCall_exp r c₁ h.2.2).map fun ts r' c₂ hr => ⟨hl.1.append hr.1, h.1, hl.2, hr.2⟩
  | logic sp op es =>
    simp only [Exp.liftCall]
    refine (form_liftCall_exps es c h.2).map fun ss es' c' hes => ?_
    exact ⟨hes.1, fun hs => ne_nil_of_length_eq hes.2.2 (h.1 hs), hes.2.1⟩
  | compare sp l ops rs =>
    simp only [Exp.liftCall]
    refine (form_liftCall_exp l c h.2.2.1).bind fun ss l' c₁ hl => ?_
    refine (form_liftCall_exps rs c₁ h.2.2.2).map fun ts rs' c₂ hrs => ?_
    exact ⟨hl.1.append hrs.1, h.1, fun hs => (h.2.1 hs).trans hrs.2.2.symm, hl.2, hrs.2.1⟩
  | ifElse sp t a b =>
    simp only [Exp.liftCall]
    refine (form_liftCall_exp t c h.2.1).bind fun ss t' c₁ hT => ?_
    refine (form_liftCall_exp a c₁ h.2.2.1).bind fun ts a' c₂ hA => ?_
    refine (form_liftCall_exp b c₂ h.2.2.2).map fun us b' c₃ hB => ?_
    exact ⟨hT.1.append (hA.1.append hB.1), h.1, hT.2, hA.2, hB.2⟩
  | call sp f args keywords =>
    obtain ⟨-, hf, rfl, hargs⟩ := h
    simp only [Exp.liftCall]
    refine (form_liftCall_exps args c hargs).bind fun ss args' c' hes => Adds.fresh (Adds.push ⟨hes.1.append ?_, trivial⟩)
    exact .single (s := assignTo (temporary c') sp (.call sp f args' []))
      ⟨⟨_, rfl⟩, hf, rfl, hes.2.1⟩
  | other sp k ps => exact h.elim

theorem form_liftCall_exps (es : List Exp) (c : Nat) (h : Exp.InFormL φ.toForm es) :
    Adds c (Exp.liftCallL es) fun ss es' _ => HasForm φ.withoutCalls inLoop [] ss ∧
      Exp.InFormL φ.withoutCalls.toForm es' ∧ es'.length = es.length := by
  cases es with
  | nil =>
    simp only [Exp.liftCallL]
    exact .pure ⟨.nil, trivial, rfl⟩
  | cons e es =>
    simp only [Exp.liftCallL]
    refine (form_liftCall_exp e c h.1).bind fun ss e' c₁ he => ?_
    refine (form_liftCall_exps es c₁ h.2).map fun ts es' c₂ hes => ?_
    exact ⟨he.1.append hes.1, ⟨he.2, hes.2.1⟩, congrArg (· + 1) hes.2.2⟩

end

/-- It matters to calls only whether they are the whole value. -/
theorem liftCall_true {e : Exp} (h : e.isCall = false) : e.liftCall true = e.liftCall false := by
  cases e with
  | call => cases h
  | _ => simp only [Exp.liftCall]

theorem form_liftCall_whole {e : Exp} (c : Nat) (h : e.Whole φ.toForm) :
    Adds c (e.liftCall true) fun ss e' _ =>
      HasForm φ.withoutCalls inLoop [] ss ∧ e'.Whole φ.withoutCalls.toForm ∧ (e.isCall → e'.isCall) := by
  cases e with
  | call sp f args keywords =>
    obtain ⟨hf, rfl, hargs⟩ := h
    simp only [Exp.liftCall, if_true]
    exact (form_liftCall_exps args c hargs).map fun ss args' c' hes => ⟨hes.1, ⟨hf, rfl, hes.2.1⟩, fun _ => rfl⟩
  | _ =>
    rw [liftCall_true rfl]
    exact (form_liftCall_exp _ c h).mono fun ss e' c' he => ⟨he.1, he.2.whole, nofun⟩

/-- A statement around a value. -/
theorem form_liftCall_wrap {e : Exp} {wrap : Exp → Stmt} (he : e.Whole φ.toForm) (c : Nat)
    (hw : ∀ e', e'.Whole φ.withoutCalls.toForm → (e.isCall → e'.isCall) → HasForm φ.withoutCalls inLoop [] [wrap e']) :
    Emits c (e.liftCall true >>= fun e' => pure [wrap e']) fun ss _ => HasForm φ.withoutCalls inLoop [] ss ∧ ss ≠ [] := by
  have hadds : Adds c (e.liftCall true) fun ss e' _ => HasForm φ.withoutCalls inLoop [] ss ∧ _ :=
    form_liftCall_whole c he
  exact hadds.emits fun ss e' c' hH => hH.1.behind (hw e' hH.2.1 hH.2.2)

mutual

theorem form_liftCall {inLoop : Bool} (s : Stmt) (h : s.InForm φ inLoop) (c : Nat) :
    Emits c s.liftCall fun ss _ => HasForm φ.withoutCalls inLoop s.markers ss ∧ ss ≠ [] := by
  cases s with
  | assign sp ts v =>
    simp only [Stmt.liftCall]
    exact form_liftCall_wrap h.2 c fun v' hv' _ => .single (s := .assign sp ts v') ⟨h.1, hv'⟩
  | declare sp t u v =>
    obtain ⟨ht, hu, hv⟩ := h
    cases v with
    | none =>
      simp only [Stmt.liftCall]
      exact form_emits_self (φ := φ.withoutCalls) (s := .declare sp t u none) ⟨ht, hu, nofun⟩ c
    | some v =>
      simp only [Stmt.liftCall]
      refine form_liftCall_wrap (hv v rfl)
        c fun v' hv' _ => .single (s := .declare sp t u (some v')) ⟨ht, hu, ?_⟩
      rintro _ ⟨⟩
      exact hv'
  | augment sp t op v =>
    obtain ⟨haug, ⟨x, ht⟩, hop, hv⟩ := h
    simp only [Stmt.liftCall, liftCall_of_name? ht, pure_bind]
    exact (form_liftCall_exp v c hv).emits fun ss v' c' hv' =>
      hv'.1.behind (.single (s := .augment sp t op v') ⟨haug, ⟨x, ht⟩, hop, hv'.2⟩)
  | exp sp v =>
    simp only [Stmt.liftCall, h.1, if_true]
    exact form_liftCall_wrap h.2 c fun v' hv' hcall => .single (s := .exp sp v') ⟨hcall h.1, hv'⟩
  | cond sp t body orElse =>
    obtain ⟨ht, hne, hbody, hother⟩ := h
    simp only [Stmt.liftCall]
    exact emits_hasForm_cond hne (form_liftCall_exp t c ht) (form_liftCallL body hbody)
      (form_liftCallL orElse hother)
  | loop sp t body orElse =>
    obtain ⟨ht, rfl, hbody⟩ := h
    simp only [Stmt.liftCall]
    refine .around ((form_liftCall_loop body hbody c).mono fun body' c' hB => ⟨?_, List.cons_ne_nil _ _⟩)
    exact .loop ht hB
  | ret sp v =>
    cases v with
    | none =>
      simp only [Stmt.liftCall]
      exact form_emits_self (φ := φ.withoutCalls) (s := .ret sp none) nofun c
    | some v =>
      simp only [Stmt.liftCall]
      refine (form_liftCall_exp v c (h v rfl)).emits fun ss v' c' hv' => hv'.1.behind (.single (s := .ret sp (some v')) ?_)
      rintro _ ⟨⟩
      exact hv'.2
  | pass sp =>
    simp only [Stmt.liftCall]
    exact form_emits_self (s := .pass sp) trivial c
  | brk sp =>
    simp only [Stmt.liftCall]
    exact form_emits_self (φ := φ.withoutCalls) (s := .brk sp) h c
  | cont sp =>
    simp only [Stmt.liftCall]
    exact form_emits_self (φ := φ.withoutCalls) (s := .cont sp) h c
  | function | other => exact h.elim

theorem form_liftCallL {inLoop : Bool} (ss : List Stmt) (h : Stmt.InFormL φ inLoop ss) (c : Nat) :
    Gives c (Stmt.liftCallL ss) fun ts _ =>
      HasForm φ.withoutCalls inLoop (Stmt.markersL ss) ts ∧ (ss ≠ [] → ts ≠ []) := by
  cases ss with
  | nil =>
    simp only [Stmt.liftCallL]
    exact ⟨[], c, rfl, .nil, id⟩
  | cons s ss =>
    simp only [Stmt.liftCallL]
    exact gives_hasForm_cons (form_liftCall s h.1 c) (form_liftCallL ss h.2)

theorem form_liftCall_loop (ss : List Stmt) (h : Stmt.InLoopForm φ ss) (c : Nat) :
    Gives c (Stmt.liftCallL ss) fun ts _ => HasLoopForm φ.withoutCalls ss ts := by
  cases ss with
  | nil =>
    simp only [Stmt.liftCallL]
    exact ⟨[], c, rfl, .nil⟩
  | cons s ss =>
    rcases h with ⟨hs, h⟩ | ⟨hs, hss⟩
    · obtain ⟨sp, v, rfl⟩ := Stmt.eq_exp_of_isNote (Stmt.isNote_of_isInvariant hs)
      simp only [Stmt.liftCallL, liftCall_of_isNote (Stmt.isNote_of_isInvariant hs)]
      exact .next (.pure ((form_liftCall_loop ss h c).mono fun ss' c' hss' => hss'.cons hs))
    · simp only [Stmt.liftCallL]
      refine (gives_hasForm_cons (form_liftCall s hs c) (form_liftCallL ss hss)).mono fun ts c' hts => ?_
      exact .of_hasForm (show Stmt.InFormL φ true (s :: ss) from ⟨hs, hss⟩) hts.1

end

end

/-! ## bodies -/

/-- `ts` is of the form of a function body, with the invariants of `ss`. -/
structure HasBodyForm (φ : BodyForm) (ss ts : List Stmt) : Prop where
  form : Stmt.InBodyForm φ ts
  markers : Stmt.markersL ts = Stmt.markersL ss

section

variable {φ φ' : BodyForm} {s : Stmt} {ss ts : List Stmt}

theorem HasForm.body (h : HasForm φ false (Stmt.markersL ss) ts) : HasBodyForm φ ss ts where
  form := by
    cases ts with
    | nil => trivial
    | cons t ts => exact ⟨.inr h.form.1, h.form.2⟩
  markers := h.markers

/-- A description stays at the start. -/
theorem HasForm.bodyCons (hs : s.isDocstring) (h : HasForm φ false (Stmt.markersL ss) ts) :
    HasBodyForm φ (s :: ss) (s :: ts) where
  form := ⟨.inl hs, h.form⟩
  markers := by simp only [Stmt.markersL, h.markers]

theorem form_augments (h : Stmt.InBodyForm φ ss) :
    ∃ ts, Stmt.expandAugmentsL ss = .ok ts ∧ HasBodyForm φ.withoutAugments ss ts := by
  cases ss with
  | nil => exact ⟨[], rfl, trivial, rfl⟩
  | cons s ss =>
    obtain ⟨hs | hs, hss⟩ := h
    · obtain ⟨sp, v, rfl⟩ := Stmt.eq_exp_of_isNote (Stmt.isNote_of_isDocstring hs)
      obtain ⟨ts, hrun, hts, hm, -⟩ := form_expandAugmentsL ss hss
      refine ⟨.exp sp v :: ts, ?_, HasForm.bodyCons hs ⟨hts, hm⟩⟩
      simp only [Stmt.expandAugmentsL, Stmt.expandAugments, hrun]
      rfl
    · obtain ⟨ts, hrun, hts, hm, -⟩ := form_expandAugmentsL (φ := φ) (s :: ss) ⟨hs, hss⟩
      exact ⟨ts, hrun, HasForm.body ⟨hts, hm⟩⟩

theorem form_conditionals (hcalls : φ.calls) (htypes : ∀ u, φ.types u → u.liftIf none = pure u)
    (h : Stmt.InBodyForm φ ss) (c : Nat) :
    Gives c (Stmt.liftIfL ss) fun ts _ => HasBodyForm φ.withoutConditionals ss ts := by
  cases ss with
  | nil =>
    simp only [Stmt.liftIfL]
    exact ⟨[], c, rfl, trivial, rfl⟩
  | cons s ss =>
    obtain ⟨hs | hs, hss⟩ := h
    · obtain ⟨sp, v, rfl⟩ := Stmt.eq_exp_of_isNote (Stmt.isNote_of_isDocstring hs)
      simp only [Stmt.liftIfL, Stmt.liftIf, liftIf_of_isNote (Stmt.isNote_of_isDocstring hs),
        pure_bind]
      exact .next (.pure ((form_liftIfL hcalls htypes ss hss c).mono fun ts c' hts => hts.1.bodyCons hs))
    · exact (form_liftIfL hcalls htypes (s :: ss) ⟨hs, hss⟩ c).mono fun ts c' hts => hts.1.body

theorem form_calls (h : Stmt.InBodyForm φ ss) (c : Nat) :
    Gives c (Stmt.liftCallL ss) fun ts _ => HasBodyForm φ.withoutCalls ss ts := by
  cases ss with
  | nil =>
    simp only [Stmt.liftCallL]
    exact ⟨[], c, rfl, trivial, rfl⟩
  | cons s ss =>
    obtain ⟨hs | hs, hss⟩ := h
    · obtain ⟨sp, v, rfl⟩ := Stmt.eq_exp_of_isNote (Stmt.isNote_of_isDocstring hs)
      simp only [Stmt.liftCallL, liftCall_of_isNote (Stmt.isNote_of_isDocstring hs)]
      exact .next (.pure ((form_liftCallL ss hss c).mono fun ts c' hts => hts.1.bodyCons hs))
    · exact (form_liftCallL (φ := φ) (s :: ss) ⟨hs, hss⟩ c).mono fun ts c' hts => hts.1.body

end

theorem preprocess_eq {f : Function} {body₁ body₂ body₃ : List Stmt} {c₂ c₃ : Nat}
    (h₁ : Stmt.expandAugmentsL f.body = .ok body₁)
    (h₂ : Stmt.liftIfL body₁ ⟨0, []⟩ = (body₂, ⟨c₂, []⟩))
    (h₃ : Stmt.liftCallL body₂ ⟨c₂, []⟩ = (body₃, ⟨c₃, []⟩)) :
    f.preprocess = .ok { f with body := body₃ } := by
  have hrun : runPasses [.augments, .conditionals, .calls] 0 f.body = .ok (body₃, c₃) := by
    simp only [runPasses, Pass.run, h₁, hoisted_eq h₂, hoisted_eq h₃, bind, Except.bind]
  simp only [Function.preprocess, Function.runPasses, hrun]
  rfl

section

variable {shaped : Bool} {types : Exp → Prop}

/-- **The normal form.**  All passes run over a body of the form of source code, and what they leave
is normal. -/
theorem Function.preprocess_form {short : Bool} {f : Function}
    (h : Stmt.InBodyForm (.source shaped types short) f.body)
    (htypes : ∀ u, types u → u.liftIf none = pure u) :
    ∃ body, f.preprocess = .ok { f with body := body } ∧ HasBodyForm (.normal shaped types short) f.body body := by
  obtain ⟨body₁, hrun₁, h₁⟩ := form_augments h
  obtain ⟨body₂, c₂, hrun₂, h₂⟩ := form_conditionals rfl htypes h₁.form 0
  obtain ⟨body₃, c₃, hrun₃, h₃⟩ := form_calls h₂.form c₂
  exact ⟨body₃, preprocess_eq hrun₁ hrun₂ hrun₃, h₃.form, h₃.markers.trans (h₂.markers.trans h₁.markers)⟩

theorem Function.preprocess_normal {f : Function} (hc : f.toStmt.check false false = .ok ())
    (hf : shaped → Stmt.FormedL f.body) (ht : ∀ u ∈ Stmt.annotationsL f.body, types u)
    (htypes : ∀ u, types u → u.liftIf none = pure u) :
    ∃ body, f.preprocess = .ok { f with body := body } ∧ HasBodyForm (.normal shaped types) f.body body :=
  Function.preprocess_form (Function.inForm_of_check hc hf ht) htypes

end

end ContractVerifier.Source
