import ContractVerifier.Proofs.Lower.Loops
import ContractVerifier.Proofs.Program.Contracts
import ContractVerifier.Proofs.Source.Normal

/-!
# Types of declarations

A variable can only be declared as an `int` or a `bool`: lowering refuses any other annotation, also
one that a pass has put in the place of what was written.

* `Stmt.Typed` : each declaration that is lowered has a known type;
* `Function.namesType_of_lower` : so has each annotation of a lowered function.
-/

namespace ContractVerifier.Source

open ContractVerifier.Flow

/-- An annotation for a type that is known. -/
def Exp.NamesType (u : Exp) : Prop := typeOfNote (some u) ≠ .unknown

mutual

/-- Each declaration names a known type.  The `else` part of a loop does not count, as it is not
lowered. -/
def Stmt.Typed : Stmt → Prop
  | .declare _ _ u _ => u.NamesType
  | .cond _ _ body orElse => Stmt.TypedL body ∧ Stmt.TypedL orElse
  | .loop _ _ body _ => Stmt.TypedL body
  | .assign .. | .augment .. | .exp .. | .ret .. | .pass _ | .brk _ | .cont _ | .function .. | .other .. => True

def Stmt.TypedL : List Stmt → Prop
  | [] => True
  | s :: ss => s.Typed ∧ Stmt.TypedL ss

end

theorem Stmt.typedL_append {ss ts : List Stmt} : Stmt.TypedL (ss ++ ts) ↔ Stmt.TypedL ss ∧ Stmt.TypedL ts := by
  induction ss with
  | nil => simp [Stmt.TypedL]
  | cons s ss ih => simp [Stmt.TypedL, ih, and_assoc]

theorem Stmt.typedL_singleton {s : Stmt} : Stmt.TypedL [s] ↔ s.Typed := by simp [Stmt.TypedL]

/-! ## lowering -/

namespace Build

variable {α β : Type} {P Q : Prop}

/-- `x` fails, at any time, unless `P`. -/
def OnlyIf (x : Build α) (P : Prop) : Prop := ∀ b, Spec x b fun _ _ => P

theorem onlyIf_trivial (x : Build α) : OnlyIf x True := fun _ _ _ _ => trivial

theorem OnlyIf.and {x : Build α} (h : OnlyIf x P) (h' : OnlyIf x Q) : OnlyIf x (P ∧ Q) :=
  fun b => (h b).and (h' b)

theorem OnlyIf.first {x : Build β} (h : OnlyIf x P) (f : β → Build α) : OnlyIf (x >>= f) P :=
  fun b => spec_bind.2 ((h b).mono fun _ _ hp _ _ _ => hp)

theorem OnlyIf.later {x : Build β} {f : β → Build α} (h : ∀ a, OnlyIf (f a) P) :
    OnlyIf (x >>= f) P :=
  fun _ => spec_bind.2 fun a b' _ => h a b'

/-- A declaration agrees with what is known of the variable. -/
theorem spec_checkDeclared_agrees {x : String} {u : Ty} {line : Int} {b : Builder} :
    Spec (checkDeclared x u line) b fun _ b' => b' = b ∧ ∀ w ∈ b.table.lookup x, w = u := by
  unfold checkDeclared
  simp only [spec_bind, spec_get]
  cases hl : b.table.lookup x with
  | none => simp
  | some w =>
    by_cases hw : w = u
    · simp [hw]
    · simp [hw]

theorem spec_declareVar_known {x : String} {u : Ty} {line : Int} {b : Builder}
    (h : ∀ w ∈ b.table.lookup x, w = u) :
    Spec (declareVar x u line) b fun _ _ => u ≠ .unknown := by
  unfold declareVar
  by_cases hr : x = resultName
  · simp [hr]
  · simp only [hr, if_false, spec_bind, spec_get]
    cases hl : b.table.lookup x with
    | some w =>
      have hc : b.table.contains x = true := by simp [Table.contains, hl]
      simp only [hc, Bool.not_true, Bool.false_eq_true, if_false, spec_bind, spec_get, spec_typed]
      intro v hv
      obtain ⟨hhas, rfl, hu⟩ := Table.var_ok hv
      exact h _ hhas ▸ hu
    | none =>
      have hc : b.table.contains x = false := by simp [Table.contains, hl]
      simp only [hc, Bool.not_false, if_true, spec_bind, spec_get, spec_typed, spec_modify]
      intro v hv
      obtain ⟨hhas, rfl, hu⟩ := Table.var_ok hv
      have hnew := Table.lookup_declare u hr hl v.name
      rw [if_pos rfl] at hnew
      have hty : some v.type = some u := by
        refine (Eq.symm hhas).trans ?_
        split
        · exact hnew.2
        · exact hnew.1
      exact Option.some.inj hty ▸ hu

end Build

open Build

theorem typed_declare (sp : Span) (t u : Exp) (v : Option Exp) : OnlyIf (Stmt.declare sp t u v).lower u.NamesType := by
  intro b
  unfold Stmt.lower
  split
  · rw [spec_bind]
    refine spec_checkDeclared_agrees.mono fun _ b' hb => ?_
    obtain ⟨rfl, hagrees⟩ := hb
    exact spec_bind.2 ((spec_declareVar_known hagrees).mono fun _ _ hu _ _ _ => hu)
  · exact spec_fault

theorem typed_cond (sp : Span) (t : Exp) {body orElse : List Stmt}
    (hbody : OnlyIf (Stmt.lowerL body) (Stmt.TypedL body))
    (hother : OnlyIf (Stmt.lowerL orElse) (Stmt.TypedL orElse)) :
    OnlyIf (Stmt.cond sp t body orElse).lower (Stmt.TypedL body ∧ Stmt.TypedL orElse) := by
  unfold Stmt.lower
  refine .later fun g => .later fun branch => .later fun l => .later fun onTrue => .later fun _ => ?_
  refine .and (hbody.first _) (.later fun _ => .later fun trueEnd => ?_)
  split
  · rename_i hempty
    rw [List.isEmpty_iff.1 hempty]
    exact onlyIf_trivial _
  · exact .later fun l => .later fun onFalse => .later fun _ => hother.first _

theorem typed_loop (sp : Span) (t : Exp) {body : List Stmt} (orElse : List Stmt)
    (hbody : OnlyIf (Stmt.lowerLoopBody body) (Stmt.TypedL body)) :
    OnlyIf (Stmt.loop sp t body orElse).lower (Stmt.TypedL body) := by
  unfold Stmt.lower
  exact .later fun invs => .later fun header => .later fun i => .later fun _ => .later fun _ => .later fun g =>
    .later fun start => .later fun exit => .later fun _ => .later fun _ => .later fun _ => hbody.first _

theorem typed_of_isNote {s : Stmt} (h : s.isNote) : s.Typed := by
  obtain ⟨sp, v, rfl⟩ := Stmt.eq_exp_of_isNote h
  trivial

mutual

theorem typed_lower (s : Stmt) : OnlyIf s.lower s.Typed := by
  cases s with
  | declare sp t u v => exact typed_declare sp t u v
  | cond sp t body orElse => exact typed_cond sp t (typed_lowerL body) (typed_lowerL orElse)
  | loop sp t body orElse => exact typed_loop sp t orElse (typed_lowerLoopBody body)
  | _ => exact onlyIf_trivial _

theorem typed_lowerL (ss : List Stmt) : OnlyIf (Stmt.lowerL ss) (Stmt.TypedL ss) := by
  cases ss with
  | nil => exact onlyIf_trivial _
  | cons s ss =>
    unfold Stmt.lowerL
    exact .and ((typed_lower s).first _) (.later fun _ => typed_lowerL ss)

theorem typed_lowerLoopBody (ss : List Stmt) : OnlyIf (Stmt.lowerLoopBody ss) (Stmt.TypedL ss) := by
  cases ss with
  | nil => exact onlyIf_trivial _
  | cons s ss =>
    unfold Stmt.lowerLoopBody
    split
    · rename_i hinv
      exact fun b => (typed_lowerLoopBody ss b).mono fun _ _ hss => ⟨typed_of_isNote (Stmt.isNote_of_isInvariant hinv), hss⟩
    · exact .and ((typed_lower s).first _) (.later fun _ => typed_lowerL ss)

end

theorem typed_lowerBody (body : List Stmt) : OnlyIf (lowerBody body) (Stmt.TypedL body) := by
  unfold lowerBody
  cases body with
  | nil => exact onlyIf_trivial _
  | cons s ss =>
    simp only
    split
    · rename_i hdoc
      refine fun b => ((typed_lowerL ss).first _ b).mono fun _ _ hss => ?_
      exact ⟨typed_of_isNote (Stmt.isNote_of_isDocstring hdoc), hss⟩
    · exact (typed_lowerL (s :: ss)).first _

theorem typed_of_buildGraph {t : Table} {sigs : Signatures} {line : Int} {body : List Stmt}
    {t' : Table} {g : Graph} (h : buildGraph t sigs line body = .ok (t', g)) :
    Stmt.TypedL body := by
  obtain ⟨⟨⟨⟩, b⟩, hrun, -⟩ := exists_of_bind_ok h
  exact typed_lowerBody body _ () b hrun

/-! ## passes -/

theorem namesType_name {sp : Span} {x : String} : (Exp.name sp x).NamesType ↔ x = "int" ∨ x = "bool" := by
  unfold Exp.NamesType
  by_cases hint : x = "int"
  · simp [hint, typeOfNote]
  · by_cases hbool : x = "bool"
    · simp [hbool, typeOfNote]
    · simp [hint, hbool, typeOfNote]

theorem Exp.NamesType.unconditional {u : Exp} (h : u.NamesType) : u.Unconditional := by
  cases u with
  | name sp x => trivial
  | _ => exact absurd rfl h

/-- A temporary is no type. -/
theorem not_namesType_temporary (sp : Span) (n : Nat) : ¬ (Exp.name sp (temporary n)).NamesType := by
  have htemp : IsTemporary (temporary n) := ⟨_, (toList_temporary n).symm⟩
  rw [namesType_name]
  rintro (h | h)
  · exact absurd (h ▸ htemp) (by decide)
  · exact absurd (h ▸ htemp) (by decide)

/-- What takes the place of an annotation names a type only if the annotation does. -/
theorem namesType_of_liftIf (u : Exp) (st : Hoist) (h : (u.liftIf none st).1.NamesType) : u.NamesType := by
  cases u with
  | name sp x =>
    simp only [Exp.liftIf, finish] at h
    exact h
  | ifElse sp t a b =>
    simp only [Exp.liftIf, Hoist.run_bind, Hoist.run_pure] at h
    exact (not_namesType_temporary sp st.counter h).elim
  | _ =>
    simp only [Exp.liftIf, finish, Hoist.run_bind, Hoist.run_pure] at h
    exact absurd rfl h

mutual

theorem typed_of_expandAugments (s s' : Stmt) (hrun : s.expandAugments = .ok s') (h : s'.Typed) : s.Typed := by
  cases s with
  | declare sp t u v =>
    cases hrun
    exact h
  | cond sp t body orElse =>
    obtain ⟨body', hbody, hrun⟩ := exists_of_bind_ok hrun
    obtain ⟨orElse', hother, hrun⟩ := exists_of_bind_ok hrun
    cases hrun
    exact ⟨typedL_of_expandAugmentsL body body' hbody h.1, typedL_of_expandAugmentsL orElse orElse' hother h.2⟩
  | loop sp t body orElse =>
    obtain ⟨body', hbody, hrun⟩ := exists_of_bind_ok hrun
    obtain ⟨orElse', -, hrun⟩ := exists_of_bind_ok hrun
    cases hrun
    exact typedL_of_expandAugmentsL body body' hbody h
  | _ => trivial

theorem typedL_of_expandAugmentsL (ss ss' : List Stmt) (hrun : Stmt.expandAugmentsL ss = .ok ss')
    (h : Stmt.TypedL ss') :
    Stmt.TypedL ss := by
  cases ss with
  | nil => trivial
  | cons s ss =>
    obtain ⟨s', hs, hrun⟩ := exists_of_bind_ok hrun
    obtain ⟨ss', hss, hrun⟩ := exists_of_bind_ok hrun
    cases hrun
    exact ⟨typed_of_expandAugments s s' hs h.1, typedL_of_expandAugmentsL ss ss' hss h.2⟩

end

mutual

theorem typed_of_liftIf (s : Stmt) (st : Hoist) (h : Stmt.TypedL (s.liftIf st).1) : s.Typed := by
  cases s with
  | declare sp t u v =>
    cases v with
    | none | some v =>
      simp only [Stmt.liftIf, Hoist.run_bind, Hoist.run_pure, Stmt.typedL_singleton,
        Stmt.Typed] at h
      exact namesType_of_liftIf u _ h
  | cond sp t body orElse =>
    simp only [Stmt.liftIf, Hoist.run_bind, Hoist.run_pure, Stmt.typedL_append,
      Stmt.typedL_singleton, Stmt.Typed] at h
    exact ⟨typedL_of_liftIfL body _ h.2.1, typedL_of_liftIfL orElse _ h.2.2⟩
  | loop sp t body orElse =>
    simp only [Stmt.liftIf, Hoist.run_bind, Hoist.run_pure, Stmt.typedL_singleton, Stmt.Typed] at h
    exact typedL_of_liftIfL body _ h
  | _ => trivial

theorem typedL_of_liftIfL (ss : List Stmt) (st : Hoist) (h : Stmt.TypedL (Stmt.liftIfL ss st).1) : Stmt.TypedL ss := by
  cases ss with
  | nil => trivial
  | cons s ss =>
    simp only [Stmt.liftIfL, Hoist.run_bind, Hoist.run_pure, Stmt.typedL_append] at h
    exact ⟨typed_of_liftIf s _ h.1.2, typedL_of_liftIfL ss _ h.2⟩

end

mutual

theorem typed_of_liftCall (s : Stmt) (st : Hoist) (h : Stmt.TypedL (s.liftCall st).1) : s.Typed := by
  cases s with
  | declare sp t u v =>
    cases v with
    | none | some v =>
      simp only [Stmt.liftCall, Hoist.run_bind, Hoist.run_pure, Stmt.typedL_singleton,
        Stmt.Typed] at h
      exact h
  | cond sp t body orElse =>
    simp only [Stmt.liftCall, Hoist.run_bind, Hoist.run_pure, Stmt.typedL_append,
      Stmt.typedL_singleton, Stmt.Typed] at h
    exact ⟨typedL_of_liftCallL body _ h.2.1, typedL_of_liftCallL orElse _ h.2.2⟩
  | loop sp t body orElse =>
    simp only [Stmt.liftCall, Hoist.run_bind, Hoist.run_pure, Stmt.typedL_singleton,
      Stmt.Typed] at h
    exact typedL_of_liftCallL body _ h
  | _ => trivial

theorem typedL_of_liftCallL (ss : List Stmt) (st : Hoist)
    (h : Stmt.TypedL (Stmt.liftCallL ss st).1) :
    Stmt.TypedL ss := by
  cases ss with
  | nil => trivial
  | cons s ss =>
    simp only [Stmt.liftCallL, Hoist.run_bind, Hoist.run_pure, Stmt.typedL_append] at h
    exact ⟨typed_of_liftCall s _ h.1.2, typedL_of_liftCallL ss _ h.2⟩

end

theorem typedL_of_preprocess {f f' : Function} (hrun : f.preprocess = .ok f')
    (h : Stmt.TypedL f'.body) :
    Stmt.TypedL f.body := by
  obtain ⟨⟨f₁, n⟩, hf₁, hrun⟩ := exists_of_bind_ok hrun
  cases hrun
  obtain ⟨⟨body, m⟩, hpasses, hf₁⟩ := exists_of_bind_ok hf₁
  cases hf₁
  obtain ⟨⟨body₁, c⟩, hfirst, hpasses⟩ := exists_of_bind_ok hpasses
  obtain ⟨body₁, haugments, hfirst⟩ := exists_of_bind_ok hfirst
  cases hfirst
  cases hpasses
  exact typedL_of_expandAugmentsL _ _ haugments (typedL_of_liftIfL _ _ (typedL_of_liftCallL _ _ h))

/-! ## annotations -/

section

variable {φ : BodyForm}

mutual

theorem Stmt.Typed.namesType {inLoop : Bool} (s : Stmt) (h : s.Typed) (hf : s.InForm φ inLoop) :
    ∀ u ∈ s.annotations, u.NamesType := by
  cases s with
  | declare sp t u v => exact List.forall_mem_singleton.2 h
  | cond sp t body orElse =>
    exact List.forall_mem_append.2
      ⟨Stmt.TypedL.namesType body h.1 hf.2.2.1, Stmt.TypedL.namesType orElse h.2 hf.2.2.2⟩
  | loop sp t body orElse =>
    obtain ⟨-, rfl, hbody⟩ := hf
    exact List.forall_mem_append.2 ⟨Stmt.TypedL.namesType_loopBody body h hbody, nofun⟩
  | function | other => exact hf.elim
  | _ => exact nofun

theorem Stmt.TypedL.namesType {inLoop : Bool} (ss : List Stmt) (h : Stmt.TypedL ss)
    (hf : Stmt.InFormL φ inLoop ss) :
    ∀ u ∈ Stmt.annotationsL ss, u.NamesType := by
  cases ss with
  | nil => exact nofun
  | cons s ss =>
    exact List.forall_mem_append.2 ⟨Stmt.Typed.namesType s h.1 hf.1, Stmt.TypedL.namesType ss h.2 hf.2⟩

theorem Stmt.TypedL.namesType_loopBody (ss : List Stmt) (h : Stmt.TypedL ss)
    (hf : Stmt.InLoopForm φ ss) :
    ∀ u ∈ Stmt.annotationsL ss, u.NamesType := by
  cases ss with
  | nil => exact nofun
  | cons s ss =>
    rcases hf with ⟨hinv, hss⟩ | ⟨hs, hss⟩
    · obtain ⟨sp, v, rfl⟩ := Stmt.eq_exp_of_isNote (Stmt.isNote_of_isInvariant hinv)
      exact Stmt.TypedL.namesType_loopBody ss h.2 hss
    · exact List.forall_mem_append.2 ⟨Stmt.Typed.namesType s h.1 hs, Stmt.TypedL.namesType ss h.2 hss⟩

end

theorem Stmt.TypedL.namesType_body {ss : List Stmt} (h : Stmt.TypedL ss)
    (hf : Stmt.InBodyForm φ ss) :
    ∀ u ∈ Stmt.annotationsL ss, u.NamesType := by
  cases ss with
  | nil => exact nofun
  | cons s ss =>
    obtain ⟨hs | hs, hss⟩ := hf
    · obtain ⟨sp, v, rfl⟩ := Stmt.eq_exp_of_isNote (Stmt.isNote_of_isDocstring hs)
      exact Stmt.TypedL.namesType ss h.2 hss
    · exact List.forall_mem_append.2 ⟨Stmt.Typed.namesType s h.1 hs, Stmt.TypedL.namesType ss h.2 hss⟩

end

namespace Function

variable {f : Function} {sigs : Signatures} {t : Table} {g : Graph}

/-- **Declarations.**  A function that is lowered declares its variables as `int` or `bool` only. -/
theorem namesType_of_lower (h : f.lower sigs = .ok (t, g)) : ∀ u ∈ Stmt.annotationsL f.body, u.NamesType := by
  obtain ⟨⟨fn, s⟩, hnorm, hbuild⟩ := exists_of_bind_ok h
  obtain ⟨⟨⟩, hcheck, hnorm⟩ := exists_of_bind_ok hnorm
  have hform : Stmt.InBodyForm (.source false fun _ => True) f.body :=
    Function.inForm_of_check hcheck (by simp) fun _ _ => trivial
  refine Stmt.TypedL.namesType_body ?_ hform
  split at hnorm
  · cases hnorm
  · obtain ⟨⟨⟩, -, hnorm⟩ := exists_of_bind_ok hnorm
    obtain ⟨fn, hpre, hnorm⟩ := exists_of_bind_ok hnorm
    cases hnorm
    exact typedL_of_preprocess (mapError_eq_ok.1 hpre) (typed_of_buildGraph hbuild)

end Function

end ContractVerifier.Source
