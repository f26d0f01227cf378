import ContractVerifier.Proofs.Source.Run
import ContractVerifier.Source.Fragment
import Mathlib.Data.Set.Function

/-!
# Inside the fragment

`Within V` says of an expression or a statement that it belongs to the fragment that is understood
and that it uses no variable outside of `V`.

* `Exp.Within.exists_eval` : such an expression has a value in every store;
* `Exp.Within.eval_congr` : the value depends on the variables of `V` only;
* `within_of_check` : what the checker accepts is inside the fragment.
-/

namespace ContractVerifier.Source

/-! ## variables -/

mutual

/-- The variables that are read; the name of a callee is none. -/
def Exp.variables : Exp → List String
  | .constant .. | .other .. => []
  | .name _ x => [x]
  | .unary _ _ e => e.variables
  | .binary _ l _ r => l.variables ++ r.variables
  | .logic _ _ es => Exp.variablesL es
  | .compare _ l _ rs => l.variables ++ Exp.variablesL rs
  | .ifElse _ t a b => t.variables ++ a.variables ++ b.variables
  | .call _ _ args _ => Exp.variablesL args

def Exp.variablesL : List Exp → List String
  | [] => []
  | e :: es => e.variables ++ Exp.variablesL es

end

def Exp.variables? (e : Option Exp) : List String := (e.map Exp.variables).getD []

mutual

/-- The variables that are read or assigned. -/
def Stmt.variables : Stmt → List String
  | .assign _ ts v => Exp.variablesL ts ++ v.variables
  | .declare _ t _ v => t.variables ++ Exp.variables? v
  | .augment _ t _ v => t.variables ++ v.variables
  | .exp _ v => v.variables
  | .cond _ t body orElse | .loop _ t body orElse => t.variables ++ Stmt.variablesL body ++ Stmt.variablesL orElse
  | .ret _ v => Exp.variables? v
  | .function _ _ _ _ body _ _ => Stmt.variablesL body
  | .pass _ | .brk _ | .cont _ | .other .. => []

def Stmt.variablesL : List Stmt → List String
  | [] => []
  | s :: ss => s.variables ++ Stmt.variablesL ss

end

mutual

/-- The types that variables are declared with. -/
def Stmt.annotations : Stmt → List Exp
  | .declare _ _ u _ => [u]
  | .cond _ _ body orElse | .loop _ _ body orElse => Stmt.annotationsL body ++ Stmt.annotationsL orElse
  | .function _ _ _ _ body _ _ => Stmt.annotationsL body
  | .assign .. | .augment .. | .exp .. | .ret .. | .pass _ | .brk _ | .cont _ | .other .. => []

def Stmt.annotationsL : List Stmt → List Exp
  | [] => []
  | s :: ss => s.annotations ++ Stmt.annotationsL ss

end

/-! ## the fragment -/

mutual

def Exp.Within (V : Set String) : Exp → Prop
  | .constant _ c => c.supported
  | .name _ x => x ∈ V
  | .unary _ op e => op.supported ∧ e.Within V
  | .binary _ l op r => op.supported ∧ l.Within V ∧ r.Within V
  | .logic _ _ es => Exp.WithinL V es
  | .compare _ l ops rs => (∀ op ∈ ops, op.supported) ∧ l.Within V ∧ Exp.WithinL V rs
  | .ifElse _ t a b => t.Within V ∧ a.Within V ∧ b.Within V
  | .call _ f args keywords => f.isName ∧ keywords = [] ∧ Exp.WithinL V args
  | .other .. => False

def Exp.WithinL (V : Set String) : List Exp → Prop
  | [] => True
  | e :: es => e.Within V ∧ Exp.WithinL V es

end

theorem Stmt.isNote_cases {sp : Span} {v : Exp} (h : (Stmt.exp sp v).isNote) :
    (∃ csp text, v = .constant csp (.text text)) ∨
      ∃ csp nsp ksp text, v = .call csp (.name nsp "invariant") [.constant ksp (.text text)] [] := by
  simp only [Stmt.isNote, Stmt.isInvariant, Stmt.invariantText, Stmt.isDocstring,
    Bool.or_eq_true] at h
  rcases h with h | h
  · split at h
    · rename_i heq
      cases heq
      exact .inr ⟨_, _, _, _, rfl⟩
    · cases h
  · split at h
    · rename_i heq
      cases heq
      exact .inl ⟨_, _, rfl⟩
    · cases h

mutual

def Stmt.Within (V : Set String) : Stmt → Prop
  | .assign _ ts v => (∃ x ∈ V, target? ts = some x) ∧ v.Within V
  | .declare _ t u v => (∃ x ∈ V, t.name? = some x) ∧ u.isName ∧ ∀ e ∈ v, e.Within V
  | .augment _ t op v => (∃ x ∈ V, t.name? = some x) ∧ op.supported ∧ v.Within V
  | .exp sp v => (Stmt.exp sp v).isNote ∨ v.Within V
  | .cond _ t body orElse => t.Within V ∧ Stmt.WithinL V body ∧ Stmt.WithinL V orElse
  | .loop _ t body orElse => t.Within V ∧ Stmt.WithinL V body ∧ orElse = []
  | .ret _ v => ∀ e ∈ v, e.Within V
  | .pass _ | .brk _ | .cont _ => True
  | .function .. | .other .. => False

def Stmt.WithinL (V : Set String) : List Stmt → Prop
  | [] => True
  | s :: ss => s.Within V ∧ Stmt.WithinL V ss

end

theorem Stmt.within_of_isNote {V : Set String} {s : Stmt} (h : s.isNote) : s.Within V := by
  obtain ⟨sp, v, rfl⟩ := Stmt.eq_exp_of_isNote h
  exact .inl h

theorem Exp.withinL_append {V : Set String} (es ds : List Exp) :
    Exp.WithinL V (es ++ ds) ↔ Exp.WithinL V es ∧ Exp.WithinL V ds := by
  induction es with
  | nil => simp [Exp.WithinL]
  | cons e es ih => simp [Exp.WithinL, ih, and_assoc]

theorem Stmt.withinL_append {V : Set String} (ss ts : List Stmt) :
    Stmt.WithinL V (ss ++ ts) ↔ Stmt.WithinL V ss ∧ Stmt.WithinL V ts := by
  induction ss with
  | nil => simp [Stmt.WithinL]
  | cons s ss ih => simp [Stmt.WithinL, ih, and_assoc]

theorem Stmt.withinL_singleton {V : Set String} (s : Stmt) : Stmt.WithinL V [s] ↔ s.Within V := by
  simp [Stmt.WithinL]

section

variable {V W : Set String}

mutual

theorem Exp.Within.mono (h : V ⊆ W) (e : Exp) (he : e.Within V) : e.Within W := by
  cases e with
  | constant sp c => exact he
  | name sp x => exact h he
  | unary sp op e => exact ⟨he.1, Exp.Within.mono h e he.2⟩
  | binary sp l op r => exact ⟨he.1, Exp.Within.mono h l he.2.1, Exp.Within.mono h r he.2.2⟩
  | logic sp op es => exact Exp.WithinL.mono h es he
  | compare sp l ops rs => exact ⟨he.1, Exp.Within.mono h l he.2.1, Exp.WithinL.mono h rs he.2.2⟩
  | ifElse sp t a b =>
    exact ⟨Exp.Within.mono h t he.1, Exp.Within.mono h a he.2.1, Exp.Within.mono h b he.2.2⟩
  | call sp f args keywords => exact ⟨he.1, he.2.1, Exp.WithinL.mono h args he.2.2⟩
  | other sp k ps => exact he

theorem Exp.WithinL.mono (h : V ⊆ W) (es : List Exp) (hes : Exp.WithinL V es) : Exp.WithinL W es := by
  cases es with
  | nil => trivial
  | cons e es => exact ⟨Exp.Within.mono h e hes.1, Exp.WithinL.mono h es hes.2⟩

end

theorem exists_mem_mono (h : V ⊆ W) {p : String → Prop} : (∃ x ∈ V, p x) → ∃ x ∈ W, p x
  | ⟨x, hx, hp⟩ => ⟨x, h hx, hp⟩

mutual

theorem Stmt.Within.mono (h : V ⊆ W) (s : Stmt) (hs : s.Within V) : s.Within W := by
  cases s with
  | assign sp ts v => exact ⟨exists_mem_mono h hs.1, hs.2.mono h v⟩
  | declare sp t u v => exact ⟨exists_mem_mono h hs.1, hs.2.1, fun e he => (hs.2.2 e he).mono h e⟩
  | augment sp t op v => exact ⟨exists_mem_mono h hs.1, hs.2.1, hs.2.2.mono h v⟩
  | exp sp v => exact hs.imp_right fun hv => hv.mono h v
  | cond sp t body orElse =>
    exact ⟨hs.1.mono h t, Stmt.WithinL.mono h body hs.2.1, Stmt.WithinL.mono h orElse hs.2.2⟩
  | loop sp t body orElse => exact ⟨hs.1.mono h t, Stmt.WithinL.mono h body hs.2.1, hs.2.2⟩
  | ret sp v => exact fun e he => (hs e he).mono h e
  | pass | brk | cont => trivial
  | function | other => exact hs

theorem Stmt.WithinL.mono (h : V ⊆ W) (ss : List Stmt) (hss : Stmt.WithinL V ss) : Stmt.WithinL W ss := by
  cases ss with
  | nil => trivial
  | cons s ss => exact ⟨Stmt.Within.mono h s hss.1, Stmt.WithinL.mono h ss hss.2⟩

end

end

/-! ## values -/

theorem Arith.exists_result? {op : Arith} (h : op.supported) (z : Int → Int) (v w : Value) :
    ∃ u, op.result? z v w = some u := by
  cases op with
  | add | sub | mult | floorDiv | mod => exact ⟨_, rfl⟩
  | _ => cases h

theorem Sign.exists_result? {op : Sign} (h : op.supported) (v : Value) : ∃ u, op.result? v = some u := by
  cases op with
  | not | plus | minus => exact ⟨_, rfl⟩
  | invert => cases h

theorem Comparison.exists_holds? {op : Comparison} (h : op.supported) (v w : Value) : ∃ b, op.holds? v w = some b := by
  cases op with
  | eq | notEq | lt | ltE | gt | gtE => exact ⟨_, rfl⟩
  | _ => cases h

/-- In `s'` the expressions `es'` have the values that `es` have in `s`. -/
def SameValues (z : Int → Int) (I : Callees) (s s' : Store) : List Exp → List Exp → Prop :=
  List.Forall₂ fun e e' => e'.eval z I s' = e.eval z I s

section

variable {z : Int → Int} {I : Callees} {s s' : Store} {es es' : List Exp}

theorem SameValues.trans {s'' : Store} {es'' : List Exp} (h : SameValues z I s s' es es')
    (h' : SameValues z I s' s'' es' es'') : SameValues z I s s'' es es'' := by
  induction h generalizing es'' with
  | nil =>
    cases h'
    exact .nil
  | cons he _ ih =>
    cases h' with
    | cons he' hes' => exact .cons (he'.trans he) (ih hes')

theorem SameValues.evalL_eq (h : SameValues z I s s' es es') : Exp.evalL z I s' es' = Exp.evalL z I s es := by
  induction h with
  | nil => rfl
  | cons he _ ih => simp only [Exp.evalL, he, ih]

theorem SameValues.evalLogic_eq (h : SameValues z I s s' es es') (op : Logic) :
    Exp.evalLogic z I s' op es' = Exp.evalLogic z I s op es := by
  induction h with
  | nil => rfl
  | @cons e e' es es' he hes ih =>
    have hempty : es'.isEmpty = es.isEmpty := by cases hes <;> rfl
    simp only [Exp.evalLogic, he, ih, hempty]

theorem SameValues.evalChain_eq (h : SameValues z I s s' es es') (l : Value)
    (ops : List Comparison) :
    Exp.evalChain z I s' l es' ops = Exp.evalChain z I s l es ops := by
  induction h generalizing l ops with
  | nil => rfl
  | cons he _ ih =>
    cases ops with
    | nil => rfl
    | cons op ops => simp only [Exp.evalChain, he, ih]

end

section

variable {V : Set String} {z : Int → Int} {I : Callees} {s : Store}

mutual

theorem Exp.Within.exists_eval (e : Exp) (h : e.Within V) : ∃ v, e.eval z I s = some v := by
  cases e with
  | constant sp c =>
    cases c with
    | bool b => exact ⟨.bool b, rfl⟩
    | int n => exact ⟨.int n, rfl⟩
    | _ => cases h
  | name sp x => exact ⟨s x, rfl⟩
  | unary sp op e =>
    obtain ⟨v, hv⟩ := Exp.Within.exists_eval e h.2
    simpa [Exp.eval, hv] using Sign.exists_result? h.1 v
  | binary sp l op r =>
    obtain ⟨v, hv⟩ := Exp.Within.exists_eval l h.2.1
    obtain ⟨w, hw⟩ := Exp.Within.exists_eval r h.2.2
    simpa [Exp.eval, hv, hw] using Arith.exists_result? h.1 z v w
  | logic sp op es => exact Exp.WithinL.exists_evalLogic op es h
  | compare sp l ops rs =>
    obtain ⟨v, hv⟩ := Exp.Within.exists_eval l h.2.1
    simpa [Exp.eval, hv] using Exp.WithinL.exists_evalChain rs h.2.2 v ops h.1
  | ifElse sp t a b =>
    obtain ⟨v, hv⟩ := Exp.Within.exists_eval t h.1
    simp only [Exp.eval, hv]
    cases hb : v.toBool with
    | true => simpa [hb] using Exp.Within.exists_eval a h.2.1
    | false => simpa [hb] using Exp.Within.exists_eval b h.2.2
  | call sp f args keywords =>
    obtain ⟨hf, rfl, hargs⟩ := h
    obtain ⟨vs, hvs⟩ := Exp.WithinL.exists_evalL args hargs
    cases f with
    | name nsp id => exact ⟨I id vs, by simp [Exp.eval, hvs]⟩
    | _ => cases hf
  | other sp k ps => cases h

theorem Exp.WithinL.exists_evalL (es : List Exp) (h : Exp.WithinL V es) : ∃ vs, Exp.evalL z I s es = some vs := by
  cases es with
  | nil => exact ⟨[], rfl⟩
  | cons e es =>
    obtain ⟨v, hv⟩ := Exp.Within.exists_eval e h.1
    obtain ⟨vs, hvs⟩ := Exp.WithinL.exists_evalL es h.2
    exact ⟨v :: vs, by simp [Exp.evalL, hv, hvs]⟩

theorem Exp.WithinL.exists_evalLogic (op : Logic) (es : List Exp) (h : Exp.WithinL V es) :
    ∃ v, Exp.evalLogic z I s op es = some v := by
  cases es with
  | nil => exact ⟨_, rfl⟩
  | cons e es =>
    obtain ⟨v, hv⟩ := Exp.Within.exists_eval e h.1
    simp only [Exp.evalLogic, hv, Option.bind_eq_bind, Option.bind_some]
    split
    · exact ⟨v, rfl⟩
    · exact Exp.WithinL.exists_evalLogic op es h.2

theorem Exp.WithinL.exists_evalChain (rs : List Exp) (h : Exp.WithinL V rs) (l : Value)
    (ops : List Comparison) (hops : ∀ op ∈ ops, op.supported) :
    ∃ v, Exp.evalChain z I s l rs ops = some v := by
  cases rs with
  | nil => exact ⟨_, rfl⟩
  | cons r rs =>
    cases ops with
    | nil => exact ⟨_, rfl⟩
    | cons op ops =>
      obtain ⟨v, hv⟩ := Exp.Within.exists_eval r h.1
      obtain ⟨b, hb⟩ := Comparison.exists_holds? (hops op (List.mem_cons_self ..)) l v
      simp only [Exp.evalChain, hv, hb, Option.bind_eq_bind, Option.bind_some]
      split
      · exact Exp.WithinL.exists_evalChain rs h.2 v ops fun o ho => hops o (List.mem_cons_of_mem _ ho)
      · exact ⟨_, rfl⟩

end

end

section

variable {V : Set String} {z : Int → Int} {I : Callees} {s s' : Store}

mutual

theorem Exp.Within.eval_congr (hs : Set.EqOn s s' V) (e : Exp) (h : e.Within V) : e.eval z I s' = e.eval z I s := by
  cases e with
  | constant sp c => rfl
  | name sp x => exact congrArg some (hs h).symm
  | unary sp op e => simp only [Exp.eval, Exp.Within.eval_congr hs e h.2]
  | binary sp l op r => simp only [Exp.eval, Exp.Within.eval_congr hs l h.2.1, Exp.Within.eval_congr hs r h.2.2]
  | logic sp op es => exact (Exp.WithinL.sameValues hs es h).evalLogic_eq op
  | compare sp l ops rs =>
    simp only [Exp.eval, Exp.Within.eval_congr hs l h.2.1,
      (Exp.WithinL.sameValues hs rs h.2.2).evalChain_eq]
  | ifElse sp t a b =>
    simp only [Exp.eval, Exp.Within.eval_congr hs t h.1, Exp.Within.eval_congr hs a h.2.1,
      Exp.Within.eval_congr hs b h.2.2]
  | call sp f args keywords =>
    obtain ⟨hf, rfl, hargs⟩ := h
    cases f with
    | name nsp id => simp only [Exp.eval, (Exp.WithinL.sameValues hs args hargs).evalL_eq]
    | _ => cases hf
  | other sp k ps => cases h

theorem Exp.WithinL.sameValues (hs : Set.EqOn s s' V) (es : List Exp) (h : Exp.WithinL V es) :
    SameValues z I s s' es es := by
  cases es with
  | nil => exact .nil
  | cons e es => exact .cons (Exp.Within.eval_congr hs e h.1) (Exp.WithinL.sameValues hs es h.2)

end

theorem Exp.Within.truth?_congr (hs : Set.EqOn s s' V) {e : Exp} (h : e.Within V) :
    e.truth? z I s' = e.truth? z I s :=
  congrArg (Option.map Value.toBool) (h.eval_congr hs e)

end

/-! ## what the checker accepts -/

/-- A guard is passed. -/
theorem of_guard_ok {p : Prop} [Decidable p] {what : Construct} {line : Option Int}
    {k k' : Except Failure Unit}
    (h : (if p then reject what line >>= fun _ => k' else k) = .ok ()) : ¬ p ∧ k = .ok () := by
  split at h
  · cases h
  · exact ⟨‹_›, h⟩

theorem rejectShown_bind_ne_ok {w : Bool} {what : Construct} {line : Option Int}
    {k : Unit → Except Failure Unit} :
    rejectShown w what line >>= k ≠ .ok () := by
  cases w <;> exact nofun

theorem of_shown_ok {p : Prop} [Decidable p] {w : Bool} {what : Construct} {line : Option Int}
    {k k' : Except Failure Unit} (h : (if p then rejectShown w what line >>= fun _ => k' else k) = .ok ()) :
    ¬ p ∧ k = .ok () := by
  split at h
  · exact absurd h rejectShown_bind_ne_ok
  · exact ⟨‹_›, h⟩

theorem of_accept_ok {p : Prop} [Decidable p] {what : Construct} {line : Option Int}
    (h : (if p then .ok () else reject what line) = .ok ()) : p := by
  split at h
  · assumption
  · cases h

theorem of_forM_ok {ops : List Comparison} (h : ops.forM Comparison.check = .ok ()) : ∀ op ∈ ops, op.supported := by
  induction ops with
  | nil => nofun
  | cons op ops ih =>
    obtain ⟨⟨⟩, hop, h⟩ := exists_of_bind_ok h
    exact List.forall_mem_cons.2 ⟨of_accept_ok hop, ih h⟩

section

variable {V : Set String}

mutual

theorem Exp.within_of_check (e : Exp) (h : e.check = .ok ()) (hv : ∀ x ∈ e.variables, x ∈ V) : e.Within V := by
  cases e with
  | constant sp c => exact (of_accept_ok h : c.supported = true)
  | name sp x => exact hv x (List.mem_singleton_self x)
  | unary sp op e =>
    obtain ⟨⟨⟩, hop, he⟩ := exists_of_bind_ok h
    exact ⟨of_accept_ok hop, Exp.within_of_check e he hv⟩
  | binary sp l op r =>
    obtain ⟨-, h⟩ := of_guard_ok h
    obtain ⟨⟨⟩, hl, h⟩ := exists_of_bind_ok h
    obtain ⟨⟨⟩, hop, hr⟩ := exists_of_bind_ok h
    obtain ⟨hvl, hvr⟩ := List.forall_mem_append.1 hv
    exact ⟨of_accept_ok hop, Exp.within_of_check l hl hvl, Exp.within_of_check r hr hvr⟩
  | logic sp op es => exact Exp.withinL_of_checkL es h hv
  | compare sp l ops rs =>
    obtain ⟨⟨⟩, hl, h⟩ := exists_of_bind_ok h
    obtain ⟨⟨⟩, hops, hrs⟩ := exists_of_bind_ok h
    obtain ⟨hvl, hvr⟩ := List.forall_mem_append.1 hv
    exact ⟨of_forM_ok hops, Exp.within_of_check l hl hvl, Exp.withinL_of_checkL rs hrs hvr⟩
  | ifElse sp t a b =>
    obtain ⟨⟨⟩, ht, h⟩ := exists_of_bind_ok h
    obtain ⟨⟨⟩, ha, hb⟩ := exists_of_bind_ok h
    obtain ⟨hvt, hvb⟩ := List.forall_mem_append.1 hv
    obtain ⟨hvt, hva⟩ := List.forall_mem_append.1 hvt
    exact ⟨Exp.within_of_check t ht hvt, Exp.within_of_check a ha hva, Exp.within_of_check b hb hvb⟩
  | call sp f args keywords =>
    cases f with
    | name nsp id =>
      obtain ⟨-, h⟩ := of_guard_ok h
      obtain ⟨hk, h⟩ := of_guard_ok h
      exact ⟨rfl, by simpa using hk, Exp.withinL_of_checkArgs args h hv⟩
    | _ => exact absurd h rejectShown_bind_ne_ok
  | other sp k ps => cases h

theorem Exp.withinL_of_checkL (es : List Exp) (h : Exp.checkL es = .ok ())
    (hv : ∀ x ∈ Exp.variablesL es, x ∈ V) :
    Exp.WithinL V es := by
  cases es with
  | nil => trivial
  | cons e es =>
    obtain ⟨⟨⟩, he, hes⟩ := exists_of_bind_ok h
    obtain ⟨hve, hves⟩ := List.forall_mem_append.1 hv
    exact ⟨Exp.within_of_check e he hve, Exp.withinL_of_checkL es hes hves⟩

theorem Exp.withinL_of_checkArgs (es : List Exp) (h : Exp.checkArgs es = .ok ())
    (hv : ∀ x ∈ Exp.variablesL es, x ∈ V) : Exp.WithinL V es := by
  cases es with
  | nil => trivial
  | cons e es =>
    obtain ⟨-, h⟩ := of_guard_ok h
    obtain ⟨⟨⟩, he, hes⟩ := exists_of_bind_ok h
    obtain ⟨hve, hves⟩ := List.forall_mem_append.1 hv
    exact ⟨Exp.within_of_check e he hve, Exp.withinL_of_checkArgs es hes hves⟩

end

theorem Exp.within_of_check? {v : Option Exp} (h : Exp.check? v = .ok ())
    (hv : ∀ x ∈ Exp.variables? v, x ∈ V) :
    ∀ e ∈ v, e.Within V := by
  rintro e ⟨⟩
  exact Exp.within_of_check e h hv

/-- A target that is checked to be a name. -/
theorem Exp.exists_name? {t : Exp} (h : ¬ (!t.isName) = true) (hv : ∀ x ∈ t.variables, x ∈ V) :
    ∃ x ∈ V, t.name? = some x := by
  cases t with
  | name sp x => exact ⟨x, hv x (List.mem_singleton_self x), rfl⟩
  | _ => exact absurd rfl h

mutual

theorem Stmt.within_of_check {inLoop : Bool} (s : Stmt) (h : s.check true inLoop = .ok ())
    (hv : ∀ x ∈ s.variables, x ∈ V) (ha : ∀ u ∈ s.annotations, u.isName) : s.Within V := by
  cases s with
  | assign sp ts v =>
    obtain ⟨hvt, hvv⟩ := List.forall_mem_append.1 hv
    match ts with
    | [t] =>
      obtain ⟨ht, h⟩ := of_shown_ok h
      exact ⟨Exp.exists_name? ht (by simpa [Exp.variablesL] using hvt), Exp.within_of_check v h hvv⟩
    | [] | _ :: _ :: _ => exact absurd h rejectShown_bind_ne_ok
  | declare sp t u v =>
    obtain ⟨hvt, hvv⟩ := List.forall_mem_append.1 hv
    obtain ⟨ht, h⟩ := of_shown_ok h
    exact ⟨Exp.exists_name? ht hvt, ha u (List.mem_singleton_self u), Exp.within_of_check? h hvv⟩
  | augment sp t op v =>
    obtain ⟨hvt, hvv⟩ := List.forall_mem_append.1 hv
    obtain ⟨ht, h⟩ := of_shown_ok h
    obtain ⟨⟨⟩, hop, h⟩ := exists_of_bind_ok h
    exact ⟨Exp.exists_name? ht hvt, of_accept_ok hop, Exp.within_of_check v h hvv⟩
  | exp sp v => exact .inr (Exp.within_of_check v (of_guard_ok h).2 hv)
  | cond sp t body orElse =>
    obtain ⟨⟨⟩, ht, h⟩ := exists_of_bind_ok h
    obtain ⟨⟨⟩, hb, ho⟩ := exists_of_bind_ok h
    obtain ⟨hvb, hvo⟩ := List.forall_mem_append.1 hv
    obtain ⟨hvt, hvb⟩ := List.forall_mem_append.1 hvb
    obtain ⟨hab, hao⟩ := List.forall_mem_append.1 ha
    exact ⟨Exp.within_of_check t ht hvt, Stmt.withinL_of_checkL body hb hvb hab,
      Stmt.withinL_of_checkL orElse ho hvo hao⟩
  | loop sp t body orElse =>
    obtain ⟨hempty, h⟩ := of_guard_ok h
    obtain ⟨⟨⟩, -, h⟩ := exists_of_bind_ok h
    obtain ⟨⟨⟩, ht, hb⟩ := exists_of_bind_ok h
    obtain ⟨hvb, -⟩ := List.forall_mem_append.1 hv
    obtain ⟨hvt, hvb⟩ := List.forall_mem_append.1 hvb
    exact ⟨Exp.within_of_check t ht hvt,
      Stmt.withinL_of_checkLoopBody body hb hvb (List.forall_mem_append.1 ha).1, by simpa using hempty⟩
  | ret sp v => exact Exp.within_of_check? h hv
  | pass | brk | cont => trivial
  | function sp x ps more body ds r => cases body <;> cases h
  | other sp k ps => cases h

theorem Stmt.withinL_of_checkL {inLoop : Bool} (ss : List Stmt)
    (h : Stmt.checkL true inLoop ss = .ok ()) (hv : ∀ x ∈ Stmt.variablesL ss, x ∈ V)
    (ha : ∀ u ∈ Stmt.annotationsL ss, u.isName) : Stmt.WithinL V ss := by
  cases ss with
  | nil => trivial
  | cons s ss =>
    obtain ⟨⟨⟩, hs, hss⟩ := exists_of_bind_ok h
    obtain ⟨hvs, hvss⟩ := List.forall_mem_append.1 hv
    obtain ⟨has, hass⟩ := List.forall_mem_append.1 ha
    exact ⟨Stmt.within_of_check s hs hvs has, Stmt.withinL_of_checkL ss hss hvss hass⟩

theorem Stmt.withinL_of_checkLoopBody (ss : List Stmt) (h : Stmt.checkLoopBody true ss = .ok ())
    (hv : ∀ x ∈ Stmt.variablesL ss, x ∈ V) (ha : ∀ u ∈ Stmt.annotationsL ss, u.isName) : Stmt.WithinL V ss := by
  cases ss with
  | nil => trivial
  | cons s ss =>
    obtain ⟨hvs, hvss⟩ := List.forall_mem_append.1 hv
    obtain ⟨has, hass⟩ := List.forall_mem_append.1 ha
    rw [Stmt.checkLoopBody] at h
    split at h
    · rename_i hinv
      exact ⟨Stmt.within_of_isNote (Stmt.isNote_of_isInvariant hinv), Stmt.withinL_of_checkLoopBody ss h hvss hass⟩
    · obtain ⟨⟨⟩, hs, hss⟩ := exists_of_bind_ok h
      exact ⟨Stmt.within_of_check s hs hvs has, Stmt.withinL_of_checkL ss hss hvss hass⟩

end

/-- The body of a function that is accepted. -/
theorem Function.within_of_check {f : Function} (h : f.toStmt.check false false = .ok ())
    (hv : ∀ x ∈ Stmt.variablesL f.body, x ∈ V) (ha : ∀ u ∈ Stmt.annotationsL f.body, u.isName) :
    Stmt.WithinL V f.body := by
  obtain ⟨sp, x, ps, more, body, ds, r⟩ := f
  cases body with
  | nil => trivial
  | cons s ss =>
    obtain ⟨hvs, hvss⟩ := List.forall_mem_append.1 hv
    obtain ⟨has, hass⟩ := List.forall_mem_append.1 ha
    simp only [Function.toStmt, Stmt.check] at h
    obtain ⟨-, h⟩ := of_guard_ok h
    obtain ⟨-, h⟩ := of_guard_ok h
    split at h
    · obtain ⟨⟨⟩, hs, hss⟩ := exists_of_bind_ok h
      exact ⟨Stmt.within_of_check s hs hvs has, Stmt.withinL_of_checkL ss hss hvss hass⟩
    · have hdoc : s.isDocstring = true := by simp_all
      exact ⟨Stmt.within_of_isNote (Stmt.isNote_of_isDocstring hdoc), Stmt.withinL_of_checkL ss h hvss hass⟩

end

end ContractVerifier.Source
