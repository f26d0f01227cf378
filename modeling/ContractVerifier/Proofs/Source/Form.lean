import ContractVerifier.Proofs.Source.Fragment

/-!
# Forms of a body

What may stand in a body on its way to the normal form.  Each pass takes one construct away and
leaves the rest of the form as it is.

* `Formed` : trees are put together as a reader of source text does it;
* `Form`, `Exp.InForm` : the constructs that an expression may hold;
* `BodyForm`, `Stmt.InForm` : and those that a statement may hold;
* `Stmt.markers` : the invariants at the start of each loop;
* `Function.inForm_of_check` : what the checker accepts has the form of source code.
-/

namespace ContractVerifier.Source

/-! ## shape -/

mutual

/-- `and` and `or` have operands, and a comparison has an operator for each operand behind the
first. -/
def Exp.Formed : Exp → Prop
  | .constant .. | .name .. | .other .. => True
  | .unary _ _ e => e.Formed
  | .binary _ l _ r => l.Formed ∧ r.Formed
  | .logic _ _ es => es ≠ [] ∧ Exp.FormedL es
  | .compare _ l ops rs => ops.length = rs.length ∧ l.Formed ∧ Exp.FormedL rs
  | .ifElse _ t a b => t.Formed ∧ a.Formed ∧ b.Formed
  | .call _ _ args _ => Exp.FormedL args

def Exp.FormedL : List Exp → Prop
  | [] => True
  | e :: es => e.Formed ∧ Exp.FormedL es

end

mutual

/-- A branch that is taken when a condition holds is not empty. -/
def Stmt.Formed : Stmt → Prop
  | .assign _ _ v | .augment _ _ _ v | .exp _ v => v.Formed
  | .declare _ _ _ v | .ret _ v => ∀ e ∈ v, e.Formed
  | .cond _ t body orElse => t.Formed ∧ body ≠ [] ∧ Stmt.FormedL body ∧ Stmt.FormedL orElse
  | .loop _ t body orElse => t.Formed ∧ Stmt.FormedL body ∧ Stmt.FormedL orElse
  | .function _ _ _ _ body _ _ => Stmt.FormedL body
  | .pass _ | .brk _ | .cont _ | .other .. => True

def Stmt.FormedL : List Stmt → Prop
  | [] => True
  | s :: ss => s.Formed ∧ Stmt.FormedL ss

end

/-! ## expressions -/

/-- Which constructs an expression may hold.  `shaped` says that it is to be `Formed`, and `short`
that each of its integers can be written. -/
structure Form where
  shaped : Bool
  conditionals : Bool
  calls : Bool
  short : Bool

/-- Without conditional expressions and calls. -/
def Form.flat (φ : Form) : Form := ⟨φ.shaped, false, false, φ.short⟩

/-- The name of a callee; loop invariants are no calls. -/
def Exp.IsCallee : Exp → Prop
  | .name _ id => id ≠ "invariant"
  | _ => False

mutual

def Exp.InForm (φ : Form) : Exp → Prop
  | .constant _ c => c.supported ∧ (φ.short → c.isWritable)
  | .name .. => True
  | .unary _ op e => op.supported ∧ e.InForm φ
  | .binary _ l op r => op.supported ∧ l.InForm φ ∧ r.InForm φ
  | .logic _ _ es => (φ.shaped → es ≠ []) ∧ Exp.InFormL φ es
  | .compare _ l ops rs =>
    (∀ op ∈ ops, op.supported) ∧ (φ.shaped → ops.length = rs.length) ∧ l.InForm φ ∧ Exp.InFormL φ rs
  | .ifElse _ t a b => φ.conditionals ∧ t.InForm φ ∧ a.InForm φ ∧ b.InForm φ
  | .call _ f args keywords => φ.calls ∧ f.IsCallee ∧ keywords = [] ∧ Exp.InFormL φ args
  | .other .. => False

def Exp.InFormL (φ : Form) : List Exp → Prop
  | [] => True
  | e :: es => e.InForm φ ∧ Exp.InFormL φ es

end

/-- A value that may be a call as a whole. -/
def Exp.Whole (φ : Form) : Exp → Prop
  | .call _ f args keywords => f.IsCallee ∧ keywords = [] ∧ Exp.InFormL φ args
  | e => e.InForm φ

section

variable {φ : Form}

theorem Exp.InForm.whole {e : Exp} (h : e.InForm φ) : e.Whole φ := by
  cases e with
  | call sp f args keywords => exact h.2
  | _ => exact h

/-- Where calls may stand anywhere. -/
theorem Exp.Whole.inForm (hc : φ.calls) {e : Exp} (h : e.Whole φ) : e.InForm φ := by
  cases e with
  | call sp f args keywords => exact ⟨hc, h⟩
  | _ => exact h

end

/-! ## statements -/

/-- Which constructs a body may hold.  `types` is what is known of the types of declarations. -/
structure BodyForm extends Form where
  augments : Bool
  types : Exp → Prop

mutual

/-- The condition of a loop is flat.  A call has a place of its own only as a whole value or as a
statement. -/
def Stmt.InForm (φ : BodyForm) (inLoop : Bool) : Stmt → Prop
  | .assign _ ts v => (∃ x, target? ts = some x) ∧ v.Whole φ.toForm
  | .declare _ t u v => (∃ x, t.name? = some x) ∧ φ.types u ∧ ∀ e ∈ v, e.Whole φ.toForm
  | .augment _ t op v => φ.augments ∧ (∃ x, t.name? = some x) ∧ op.supported ∧ v.InForm φ.toForm
  | .exp _ v => v.isCall ∧ v.Whole φ.toForm
  | .cond _ t body orElse =>
    t.InForm φ.toForm ∧ (φ.shaped → body ≠ []) ∧ Stmt.InFormL φ inLoop body ∧ Stmt.InFormL φ inLoop orElse
  | .loop _ t body orElse => t.InForm φ.flat ∧ orElse = [] ∧ Stmt.InLoopForm φ body
  | .ret _ v => ∀ e ∈ v, e.InForm φ.toForm
  | .pass _ => True
  | .brk _ | .cont _ => inLoop
  | .function .. | .other .. => False

def Stmt.InFormL (φ : BodyForm) (inLoop : Bool) : List Stmt → Prop
  | [] => True
  | s :: ss => s.InForm φ inLoop ∧ Stmt.InFormL φ inLoop ss

/-- The body of a loop; only at its start there may be invariants. -/
def Stmt.InLoopForm (φ : BodyForm) : List Stmt → Prop
  | [] => True
  | s :: ss => s.isInvariant ∧ Stmt.InLoopForm φ ss ∨ s.InForm φ true ∧ Stmt.InFormL φ true ss

end

/-- The body of a function; a description may stand at its start. -/
def Stmt.InBodyForm (φ : BodyForm) : List Stmt → Prop
  | [] => True
  | s :: ss => (s.isDocstring ∨ s.InForm φ false) ∧ Stmt.InFormL φ false ss

/-- All that the checker lets through. -/
def BodyForm.source (shaped : Bool) (types : Exp → Prop) (short : Bool := false) : BodyForm :=
  ⟨⟨shaped, true, true, short⟩, true, types⟩

/-- Neither augmented assignments nor conditional expressions, and no call inside another
expression. -/
def BodyForm.normal (shaped : Bool) (types : Exp → Prop) (short : Bool := false) : BodyForm :=
  ⟨⟨shaped, false, false, short⟩, false, types⟩

section

variable {φ : BodyForm} {inLoop : Bool}

theorem Stmt.inFormL_append {ss ts : List Stmt} :
    Stmt.InFormL φ inLoop (ss ++ ts) ↔ Stmt.InFormL φ inLoop ss ∧ Stmt.InFormL φ inLoop ts := by
  induction ss with
  | nil => simp [Stmt.InFormL]
  | cons s ss ih => simp [Stmt.InFormL, ih, and_assoc]

theorem Stmt.inFormL_singleton {s : Stmt} : Stmt.InFormL φ inLoop [s] ↔ s.InForm φ inLoop := by
  simp [Stmt.InFormL]

/-- A statement that has its form is no invariant, so that it ends the invariants at the start of a
loop. -/
theorem Stmt.InForm.not_isInvariant {s : Stmt} (h : s.InForm φ inLoop) : s.isInvariant = false := by
  by_contra hinv
  have hnote := Stmt.isNote_of_isInvariant (Bool.eq_true_of_not_eq_false hinv)
  obtain ⟨sp, v, rfl⟩ := Stmt.eq_exp_of_isNote hnote
  obtain ⟨hcall, hv⟩ := h
  rcases Stmt.isNote_cases hnote with ⟨csp, k, rfl⟩ | ⟨csp, nsp, ksp, text, rfl⟩
  · cases hcall
  · exact hv.1 rfl

theorem Stmt.InFormL.takeWhile_isInvariant {ss : List Stmt} (h : Stmt.InFormL φ inLoop ss) :
    ss.takeWhile Stmt.isInvariant = [] := by
  cases ss with
  | nil => rfl
  | cons s ss => simp [h.1.not_isInvariant]

end

/-! ## invariants at the start of loops -/

mutual

/-- For each loop, in order, the invariants at the start of its body. -/
def Stmt.markers : Stmt → List (List Stmt)
  | .loop _ _ body orElse => body.takeWhile Stmt.isInvariant :: (Stmt.markersL body ++ Stmt.markersL orElse)
  | .cond _ _ body orElse => Stmt.markersL body ++ Stmt.markersL orElse
  | .assign .. | .declare .. | .augment .. | .exp .. | .ret .. | .pass _ | .brk _ | .cont _ | .function .. | .other .. => []

def Stmt.markersL : List Stmt → List (List Stmt)
  | [] => []
  | s :: ss => s.markers ++ Stmt.markersL ss

end

theorem Stmt.markersL_append (ss ts : List Stmt) :
    Stmt.markersL (ss ++ ts) = Stmt.markersL ss ++ Stmt.markersL ts := by
  induction ss with
  | nil => rfl
  | cons s ss ih => simp only [List.cons_append, Stmt.markersL, ih, List.append_assoc]

theorem Stmt.markersL_singleton (s : Stmt) : Stmt.markersL [s] = s.markers := List.append_nil _

/-! ## what the checker accepts -/

namespace Nested

@[simp] theorem below_eq_none {x : Option Nested} : below x = none ↔ x = none := Option.map_eq_none_iff

@[simp] theorem shallower_eq_none {x y : Option Nested} : shallower x y = none ↔ x = none ∧ y = none := by
  cases x with
  | none => simp [shallower]
  | some a =>
    cases y with
    | none => simp [shallower]
    | some b =>
      simp only [shallower]
      split <;> simp

end Nested

section

variable {φ : Form}

mutual

/-- An expression in which nothing is found to be moved out is flat. -/
theorem Exp.InForm.flat (e : Exp) (h : e.InForm φ) (hn : e.nested = none) : e.InForm φ.flat := by
  cases e with
  | constant sp c => exact h
  | name sp x => trivial
  | unary sp op e => exact ⟨h.1, Exp.InForm.flat e h.2 (by simpa [Exp.nested] using hn)⟩
  | binary sp l op r =>
    obtain ⟨hl, hr⟩ : l.nested = none ∧ r.nested = none := by simpa [Exp.nested] using hn
    exact ⟨h.1, Exp.InForm.flat l h.2.1 hl, Exp.InForm.flat r h.2.2 hr⟩
  | logic sp op es => exact ⟨h.1, Exp.InFormL.flat es h.2 (by simpa [Exp.nested] using hn)⟩
  | compare sp l ops rs =>
    obtain ⟨hl, hrs⟩ : l.nested = none ∧ Exp.nestedL rs = none := by simpa [Exp.nested] using hn
    exact ⟨h.1, h.2.1, Exp.InForm.flat l h.2.2.1 hl, Exp.InFormL.flat rs h.2.2.2 hrs⟩
  | ifElse sp t a b => simp [Exp.nested] at hn
  | call sp f args keywords => simp [Exp.nested] at hn
  | other sp k ps => exact h.elim

theorem Exp.InFormL.flat (es : List Exp) (h : Exp.InFormL φ es) (hn : Exp.nestedL es = none) : Exp.InFormL φ.flat es := by
  cases es with
  | nil => trivial
  | cons e es =>
    obtain ⟨he, hes⟩ : e.nested = none ∧ Exp.nestedL es = none := by simpa [Exp.nestedL] using hn
    exact ⟨Exp.InForm.flat e h.1 he, Exp.InFormL.flat es h.2 hes⟩

end

theorem of_checkLoopTest_ok {e : Exp} (h : e.checkLoopTest = .ok ()) : e.nested = none := by
  unfold Exp.checkLoopTest at h
  split at h
  · cases h
  · assumption

variable {shaped : Bool}

mutual

theorem Exp.inForm_of_check (e : Exp) (h : e.check = .ok ()) (hf : shaped → e.Formed) :
    e.InForm ⟨shaped, true, true, false⟩ := by
  cases e with
  | constant sp c => exact ⟨(of_accept_ok h : c.supported = true), nofun⟩
  | name sp x => trivial
  | unary sp op e =>
    obtain ⟨⟨⟩, hop, he⟩ := exists_of_bind_ok h
    exact ⟨of_accept_ok hop, Exp.inForm_of_check e he hf⟩
  | binary sp l op r =>
    obtain ⟨-, h⟩ := of_guard_ok h
    obtain ⟨⟨⟩, hl, h⟩ := exists_of_bind_ok h
    obtain ⟨⟨⟩, hop, hr⟩ := exists_of_bind_ok h
    exact ⟨of_accept_ok hop, Exp.inForm_of_check l hl fun hs => (hf hs).1, Exp.inForm_of_check r hr fun hs => (hf hs).2⟩
  | logic sp op es => exact ⟨fun hs => (hf hs).1, Exp.inFormL_of_checkL es h fun hs => (hf hs).2⟩
  | compare sp l ops rs =>
    obtain ⟨⟨⟩, hl, h⟩ := exists_of_bind_ok h
    obtain ⟨⟨⟩, hops, hrs⟩ := exists_of_bind_ok h
    exact ⟨of_forM_ok hops, fun hs => (hf hs).1, Exp.inForm_of_check l hl fun hs => (hf hs).2.1,
      Exp.inFormL_of_checkL rs hrs fun hs => (hf hs).2.2⟩
  | ifElse sp t a b =>
    obtain ⟨⟨⟩, ht, h⟩ := exists_of_bind_ok h
    obtain ⟨⟨⟩, ha, hb⟩ := exists_of_bind_ok h
    exact ⟨rfl, Exp.inForm_of_check t ht fun hs => (hf hs).1, Exp.inForm_of_check a ha fun hs => (hf hs).2.1,
      Exp.inForm_of_check b hb fun hs => (hf hs).2.2⟩
  | call sp f args keywords =>
    cases f with
    | name nsp id =>
      obtain ⟨hid, h⟩ := of_guard_ok h
      obtain ⟨hk, h⟩ := of_guard_ok h
      exact ⟨rfl, hid, by simpa using hk, Exp.inFormL_of_checkArgs args h hf⟩
    | _ => exact absurd h rejectShown_bind_ne_ok
  | other sp k ps => cases h

theorem Exp.inFormL_of_checkL (es : List Exp) (h : Exp.checkL es = .ok ())
    (hf : shaped → Exp.FormedL es) :
    Exp.InFormL ⟨shaped, true, true, false⟩ es := by
  cases es with
  | nil => trivial
  | cons e es =>
    obtain ⟨⟨⟩, he, hes⟩ := exists_of_bind_ok h
    exact ⟨Exp.inForm_of_check e he fun hs => (hf hs).1, Exp.inFormL_of_checkL es hes fun hs => (hf hs).2⟩

theorem Exp.inFormL_of_checkArgs (es : List Exp) (h : Exp.checkArgs es = .ok ())
    (hf : shaped → Exp.FormedL es) :
    Exp.InFormL ⟨shaped, true, true, false⟩ es := by
  cases es with
  | nil => trivial
  | cons e es =>
    obtain ⟨-, h⟩ := of_guard_ok h
    obtain ⟨⟨⟩, he, hes⟩ := exists_of_bind_ok h
    exact ⟨Exp.inForm_of_check e he fun hs => (hf hs).1, Exp.inFormL_of_checkArgs es hes fun hs => (hf hs).2⟩

end

theorem Exp.inForm_of_check? {v : Option Exp} (h : Exp.check? v = .ok ())
    (hf : shaped → ∀ e ∈ v, e.Formed) :
    ∀ e ∈ v, e.InForm ⟨shaped, true, true, false⟩ := by
  rintro e ⟨⟩
  exact Exp.inForm_of_check e h fun hs => hf hs e rfl

end

section

variable {shaped : Bool} {types : Exp → Prop}

mutual

theorem Stmt.inForm_of_check {inLoop : Bool} (s : Stmt) (h : s.check true inLoop = .ok ())
    (hf : shaped → s.Formed) (ht : ∀ u ∈ s.annotations, types u) :
    s.InForm (.source shaped types) inLoop := by
  cases s with
  | assign sp ts v =>
    match ts with
    | [t] =>
      obtain ⟨hname, h⟩ := of_shown_ok h
      obtain ⟨x, -, hx⟩ := Exp.exists_name? (V := Set.univ) hname fun _ _ => trivial
      exact ⟨⟨x, hx⟩, (Exp.inForm_of_check v h hf).whole⟩
    | [] | _ :: _ :: _ => exact absurd h rejectShown_bind_ne_ok
  | declare sp t u v =>
    obtain ⟨hname, h⟩ := of_shown_ok h
    obtain ⟨x, -, hx⟩ := Exp.exists_name? (V := Set.univ) hname fun _ _ => trivial
    exact ⟨⟨x, hx⟩, ht u (List.mem_singleton_self u), fun e he => (Exp.inForm_of_check? h hf e he).whole⟩
  | augment sp t op v =>
    obtain ⟨hname, h⟩ := of_shown_ok h
    obtain ⟨⟨⟩, hop, h⟩ := exists_of_bind_ok h
    obtain ⟨x, -, hx⟩ := Exp.exists_name? (V := Set.univ) hname fun _ _ => trivial
    exact ⟨rfl, ⟨x, hx⟩, of_accept_ok hop, Exp.inForm_of_check v h hf⟩
  | exp sp v =>
    obtain ⟨hv, h⟩ := of_guard_ok h
    exact ⟨by simpa using hv, (Exp.inForm_of_check v h hf).whole⟩
  | cond sp t body orElse =>
    obtain ⟨⟨⟩, htest, h⟩ := exists_of_bind_ok h
    obtain ⟨⟨⟩, hb, ho⟩ := exists_of_bind_ok h
    obtain ⟨htb, hto⟩ := List.forall_mem_append.1 ht
    exact ⟨Exp.inForm_of_check t htest fun hs => (hf hs).1, fun hs => (hf hs).2.1,
      Stmt.inFormL_of_checkL body hb (fun hs => (hf hs).2.2.1) htb,
      Stmt.inFormL_of_checkL orElse ho (fun hs => (hf hs).2.2.2) hto⟩
  | loop sp t body orElse =>
    obtain ⟨hempty, h⟩ := of_guard_ok h
    obtain ⟨⟨⟩, hflat, h⟩ := exists_of_bind_ok h
    obtain ⟨⟨⟩, htest, hb⟩ := exists_of_bind_ok h
    have hform : t.InForm ⟨shaped, true, true, false⟩ :=
      Exp.inForm_of_check t htest fun hs => (hf hs).1
    exact ⟨hform.flat t (of_checkLoopTest_ok hflat), by simpa using hempty,
      Stmt.inLoopForm_of_check body hb (fun hs => (hf hs).2.1) (List.forall_mem_append.1 ht).1⟩
  | ret sp v => exact Exp.inForm_of_check? h hf
  | pass => trivial
  | brk sp => exact (of_accept_ok h : inLoop = true)
  | cont sp => exact (of_accept_ok h : inLoop = true)
  | function sp x ps more body ds r => cases body <;> cases h
  | other sp k ps => cases h

theorem Stmt.inFormL_of_checkL {inLoop : Bool} (ss : List Stmt)
    (h : Stmt.checkL true inLoop ss = .ok ()) (hf : shaped → Stmt.FormedL ss)
    (ht : ∀ u ∈ Stmt.annotationsL ss, types u) :
    Stmt.InFormL (.source shaped types) inLoop ss := by
  cases ss with
  | nil => trivial
  | cons s ss =>
    obtain ⟨⟨⟩, hs, hss⟩ := exists_of_bind_ok h
    obtain ⟨hts, htss⟩ := List.forall_mem_append.1 ht
    exact ⟨Stmt.inForm_of_check s hs (fun h => (hf h).1) hts, Stmt.inFormL_of_checkL ss hss (fun h => (hf h).2) htss⟩

theorem Stmt.inLoopForm_of_check (ss : List Stmt) (h : Stmt.checkLoopBody true ss = .ok ())
    (hf : shaped → Stmt.FormedL ss) (ht : ∀ u ∈ Stmt.annotationsL ss, types u) :
    Stmt.InLoopForm (.source shaped types) ss := by
  cases ss with
  | nil => trivial
  | cons s ss =>
    obtain ⟨hts, htss⟩ := List.forall_mem_append.1 ht
    rw [Stmt.checkLoopBody] at h
    split at h
    · exact .inl ⟨‹_›, Stmt.inLoopForm_of_check ss h (fun h => (hf h).2) htss⟩
    · obtain ⟨⟨⟩, hs, hss⟩ := exists_of_bind_ok h
      exact .inr ⟨Stmt.inForm_of_check s hs (fun h => (hf h).1) hts,
        Stmt.inFormL_of_checkL ss hss (fun h => (hf h).2) htss⟩

end

/-- The body of a function that is accepted. -/
theorem Function.inForm_of_check {f : Function} (h : f.toStmt.check false false = .ok ())
    (hf : shaped → Stmt.FormedL f.body) (ht : ∀ u ∈ Stmt.annotationsL f.body, types u) :
    Stmt.InBodyForm (.source shaped types) f.body := by
  obtain ⟨sp, x, ps, more, body, ds, r⟩ := f
  cases body with
  | nil => trivial
  | cons s ss =>
    obtain ⟨hts, htss⟩ := List.forall_mem_append.1 ht
    simp only [Function.toStmt, Stmt.check] at h
    obtain ⟨-, h⟩ := of_guard_ok h
    obtain ⟨-, h⟩ := of_guard_ok h
    split at h
    · obtain ⟨⟨⟩, hs, hss⟩ := exists_of_bind_ok h
      exact ⟨.inr (Stmt.inForm_of_check s hs (fun h => (hf h).1) hts),
        Stmt.inFormL_of_checkL ss hss (fun h => (hf h).2) htss⟩
    · have hdoc : s.isDocstring = true := by simp_all
      exact ⟨.inl hdoc, Stmt.inFormL_of_checkL ss h (fun h => (hf h).2) htss⟩

end

end ContractVerifier.Source
