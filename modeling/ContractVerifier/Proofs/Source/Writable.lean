import ContractVerifier.Proofs.Source.Normal

/-!
# Code that has a text

A message of the checker may show code, and the normal form of a function is written down.  Where
all that is printed of a function has a text, so has all that is printed of its normal form, since
the passes neither make an integer nor change a type.

* `Orderly` : an outcome other than a fault;
* `Stmt.orderly_check` : the checker never stops at code that has a text;
* `Stmt.inForm_written` : code of a form has a text if its integers and types have;
* `Function.preprocess_writable` : the normal form of a function has a text if the function has.
-/

namespace ContractVerifier.Source

/-! ## the checker -/

/-- There may be an error, but no fault. -/
def Orderly {α : Type} (x : Except Failure α) : Prop := ∀ f, x ≠ .error (.fault f)

section

variable {α β : Type}

theorem orderly_ok (a : α) : Orderly (.ok a : Except Failure α) := nofun

theorem orderly_reject (what : Construct) (line : Option Int) : Orderly (reject what line) := nofun

theorem Orderly.bind {x : Except Failure α} {g : α → Except Failure β} (hx : Orderly x)
    (hg : ∀ a, Orderly (g a)) :
    Orderly (x >>= g) := by
  cases x with
  | error e =>
    intro f hf
    cases hf
    exact hx f rfl
  | ok a => exact hg a

theorem orderly_rejectShown {w : Bool} (h : w = true) (what : Construct) (line : Option Int) :
    Orderly (rejectShown w what line) := by
  rw [h]
  exact orderly_reject what line

theorem orderly_accept (p : Prop) [Decidable p] (what : Construct) (line : Option Int) :
    Orderly (if p then .ok () else reject what line) := by
  split
  · exact orderly_ok ()
  · exact orderly_reject what line

/-- What is behind a guard counts only if the guard is passed. -/
theorem Orderly.guard {p : Prop} [Decidable p] {x k k' : Except Failure Unit} (hx : Orderly x)
    (hk : Orderly k) (hk' : Orderly k') : Orderly (if p then x >>= fun _ => k' else k) := by
  split
  · exact hx.bind fun _ => hk'
  · exact hk

end

mutual

theorem Exp.orderly_check (e : Exp) (h : e.isWritable = true) : Orderly e.check := by
  cases e with
  | constant sp c => exact orderly_accept _ _ _
  | name sp x => exact orderly_ok ()
  | unary sp op e => exact (orderly_accept _ _ _).bind fun _ => Exp.orderly_check e h
  | binary sp l op r =>
    obtain ⟨hl, hr⟩ := Bool.and_eq_true_iff.1 h
    have hparts : Orderly (do l.check; op.check; r.check) :=
      (Exp.orderly_check l hl).bind fun _ => (orderly_accept _ _ _).bind fun _ => Exp.orderly_check r hr
    exact (orderly_reject _ _).guard hparts hparts
  | logic sp op es => exact Exp.orderly_checkL es h
  | compare sp l ops rs =>
    obtain ⟨hl, hrs⟩ := Bool.and_eq_true_iff.1 h
    have hops : Orderly (ops.forM Comparison.check) := by
      clear h
      induction ops with
      | nil => exact orderly_ok ()
      | cons op ops ih => exact (orderly_accept _ _ _).bind fun _ => ih
    exact (Exp.orderly_check l hl).bind fun _ => hops.bind fun _ => Exp.orderly_checkL rs hrs
  | ifElse sp t a b =>
    obtain ⟨hta, hb⟩ := Bool.and_eq_true_iff.1 h
    obtain ⟨ht, ha⟩ := Bool.and_eq_true_iff.1 hta
    exact (Exp.orderly_check t ht).bind fun _ => (Exp.orderly_check a ha).bind fun _ => Exp.orderly_check b hb
  | call sp f args keywords =>
    obtain ⟨hfa, -⟩ := Bool.and_eq_true_iff.1 h
    obtain ⟨hf, ha⟩ := Bool.and_eq_true_iff.1 hfa
    have hargs := Exp.orderly_checkArgs args ha
    have hrest :=
      (orderly_reject .keywordArgument (some sp.line)).guard (p := !keywords.isEmpty) hargs hargs
    cases f with
    | name nsp id => exact (orderly_reject _ _).guard hrest hrest
    | _ => exact (orderly_rejectShown hf _ _).bind fun _ => hrest
  | other sp k ps => exact orderly_reject _ _

theorem Exp.orderly_checkL (es : List Exp) (h : Exp.isWritableL es = true) : Orderly (Exp.checkL es) := by
  cases es with
  | nil => exact orderly_ok ()
  | cons e es =>
    obtain ⟨he, hes⟩ := Bool.and_eq_true_iff.1 h
    exact (Exp.orderly_check e he).bind fun _ => Exp.orderly_checkL es hes

theorem Exp.orderly_checkArgs (es : List Exp) (h : Exp.isWritableL es = true) : Orderly (Exp.checkArgs es) := by
  cases es with
  | nil => exact orderly_ok ()
  | cons e es =>
    obtain ⟨he, hes⟩ := Bool.and_eq_true_iff.1 h
    have hrest : Orderly (do e.check; Exp.checkArgs es) :=
      (Exp.orderly_check e he).bind fun _ => Exp.orderly_checkArgs es hes
    exact (orderly_reject _ _).guard hrest hrest

end

theorem Exp.orderly_check? {v : Option Exp} (h : v.all Exp.isWritable = true) : Orderly (Exp.check? v) := by
  cases v with
  | none => exact orderly_ok ()
  | some e => exact Exp.orderly_check e h

theorem Exp.orderly_checkLoopTest (e : Exp) : Orderly e.checkLoopTest := by
  unfold Exp.checkLoopTest
  split
  · exact orderly_reject _ _
  · exact orderly_ok ()

mutual

/-- **The checker shows what it refuses.**  It ends in no fault where the code has a text. -/
theorem Stmt.orderly_check {inFunction inLoop : Bool} (s : Stmt) (h : s.isWritable = true) :
    Orderly (s.check inFunction inLoop) := by
  cases s with
  | function sp x ps more body decorators result =>
    obtain ⟨-, hbody⟩ := Bool.and_eq_true_iff.1 h
    cases body with
    | nil =>
      have hempty := (orderly_reject .parameterKind (some sp.line)).guard (p := !more.isEmpty)
        (orderly_ok ()) (orderly_ok ())
      exact (orderly_reject _ _).guard hempty hempty
    | cons s ss =>
      obtain ⟨hs, hss⟩ := Bool.and_eq_true_iff.1 hbody
      have hfirst : Orderly (s.check true inLoop) := Stmt.orderly_check s hs
      have htail : Orderly (Stmt.checkL true inLoop ss) := Stmt.orderly_checkL ss hss
      have hstmts := hfirst.guard (p := !s.isDocstring) htail htail
      have hrest :=
        (orderly_reject .parameterKind (some sp.line)).guard (p := !more.isEmpty) hstmts hstmts
      exact (orderly_reject _ _).guard hrest hrest
  | assign sp ts v =>
    obtain ⟨hts, hv⟩ := Bool.and_eq_true_iff.1 h
    have hvalue := Exp.orderly_check v hv
    match ts with
    | [t] =>
      have ht : t.isWritable = true := by simpa using hts
      exact (orderly_rejectShown ht _ _).guard hvalue hvalue
    | [] | _ :: _ :: _ => exact (orderly_rejectShown h _ _).bind fun _ => hvalue
  | declare sp t u v =>
    obtain ⟨htu, hv⟩ := Bool.and_eq_true_iff.1 h
    have hvalue := Exp.orderly_check? hv
    exact (orderly_rejectShown (Bool.and_eq_true_iff.1 htu).1 _ _).guard hvalue hvalue
  | augment sp t op v =>
    obtain ⟨ht, hv⟩ := Bool.and_eq_true_iff.1 h
    have hvalue : Orderly (do op.check; v.check) :=
      (orderly_accept _ _ _).bind fun _ => Exp.orderly_check v hv
    exact (orderly_rejectShown ht _ _).guard hvalue hvalue
  | exp sp v =>
    have hvalue := Exp.orderly_check v h
    exact (orderly_reject _ _).guard hvalue hvalue
  | cond sp t body orElse =>
    obtain ⟨htb, ho⟩ := Bool.and_eq_true_iff.1 h
    obtain ⟨ht, hb⟩ := Bool.and_eq_true_iff.1 htb
    exact (Exp.orderly_check t ht).bind fun _ => (Stmt.orderly_checkL body hb).bind fun _ => Stmt.orderly_checkL orElse ho
  | loop sp t body orElse =>
    obtain ⟨htb, -⟩ := Bool.and_eq_true_iff.1 h
    obtain ⟨ht, hb⟩ := Bool.and_eq_true_iff.1 htb
    have hrest : Orderly (do t.checkLoopTest; t.check; Stmt.checkLoopBody inFunction body) :=
      t.orderly_checkLoopTest.bind fun _ => (Exp.orderly_check t ht).bind fun _ => Stmt.orderly_checkLoopBody body hb
    exact (orderly_reject _ _).guard hrest hrest
  | ret sp v => exact Exp.orderly_check? h
  | pass sp => exact orderly_ok ()
  | brk sp => exact orderly_accept _ _ _
  | cont sp => exact orderly_accept _ _ _
  | other sp k ps => exact orderly_reject _ _

theorem Stmt.orderly_checkL {inFunction inLoop : Bool} (ss : List Stmt)
    (h : Stmt.isWritableL ss = true) :
    Orderly (Stmt.checkL inFunction inLoop ss) := by
  cases ss with
  | nil => exact orderly_ok ()
  | cons s ss =>
    obtain ⟨hs, hss⟩ := Bool.and_eq_true_iff.1 h
    exact (Stmt.orderly_check s hs).bind fun _ => Stmt.orderly_checkL ss hss

theorem Stmt.orderly_checkLoopBody {inFunction : Bool} (ss : List Stmt)
    (h : Stmt.isWritableL ss = true) :
    Orderly (Stmt.checkLoopBody inFunction ss) := by
  cases ss with
  | nil => exact orderly_ok ()
  | cons s ss =>
    obtain ⟨hs, hss⟩ := Bool.and_eq_true_iff.1 h
    rw [Stmt.checkLoopBody]
    split
    · exact Stmt.orderly_checkLoopBody ss hss
    · exact (Stmt.orderly_check s hs).bind fun _ => Stmt.orderly_checkL ss hss

end

/-! ## forms -/

/-- The form with integers that can be written. -/
def Form.written (φ : Form) : Form := { φ with short := true }

def BodyForm.written (φ : BodyForm) : BodyForm := { φ with short := true }

@[simp] theorem Form.shaped_written (φ : Form) : φ.written.shaped = φ.shaped := rfl

@[simp] theorem Form.conditionals_written (φ : Form) : φ.written.conditionals = φ.conditionals := rfl

@[simp] theorem Form.calls_written (φ : Form) : φ.written.calls = φ.calls := rfl

@[simp] theorem BodyForm.toForm_written (φ : BodyForm) : φ.written.toForm = φ.toForm.written := rfl

@[simp] theorem Form.flat_written (φ : Form) : φ.written.flat = φ.flat.written := rfl

theorem Exp.IsCallee.isWritable {f : Exp} (h : f.IsCallee) : f.isWritable = true := by
  cases f with
  | name sp x => rfl
  | _ => exact h.elim

theorem Exp.isWritable_of_name? {t : Exp} {x : String} (h : t.name? = some x) : t.isWritable = true := by
  cases t with
  | name sp y => rfl
  | _ => cases h

theorem isWritable_of_target? {ts : List Exp} {x : String} (h : target? ts = some x) : ts.all Exp.isWritable = true := by
  unfold target? at h
  split at h
  · simpa using Exp.isWritable_of_name? h
  · cases h

section

variable {φ : Form}

theorem call_written {sp : Span} {f : Exp} {args : List Exp} {keywords : List Part}
    (h : Exp.InFormL φ.written args ↔ Exp.InFormL φ args ∧ Exp.isWritableL args) :
    (f.IsCallee ∧ keywords = [] ∧ Exp.InFormL φ.written args) ↔
      (f.IsCallee ∧ keywords = [] ∧ Exp.InFormL φ args) ∧ (Exp.call sp f args keywords).isWritable := by
  simp only [Exp.isWritable, h, Bool.and_eq_true]
  constructor
  · rintro ⟨hf, rfl, hargs, hw⟩
    exact ⟨⟨hf, rfl, hargs⟩, ⟨hf.isWritable, hw⟩, rfl⟩
  · rintro ⟨⟨hf, hk, hargs⟩, ⟨-, hw⟩, -⟩
    exact ⟨hf, hk, hargs, hw⟩

mutual

theorem Exp.inForm_written (e : Exp) : e.InForm φ.written ↔ e.InForm φ ∧ e.isWritable := by
  cases e with
  | constant sp c =>
    simp only [Exp.InForm, Exp.isWritable, Form.written]
    tauto
  | name sp x => simp only [Exp.InForm, Exp.isWritable, and_self]
  | unary sp op e => simp only [Exp.InForm, Exp.isWritable, Exp.inForm_written e, and_assoc]
  | binary sp l op r =>
    simp only [Exp.InForm, Exp.isWritable, Exp.inForm_written l, Exp.inForm_written r,
      Bool.and_eq_true]
    tauto
  | logic sp op es =>
    simp only [Exp.InForm, Exp.isWritable, Exp.inFormL_written es, Form.shaped_written, and_assoc]
  | compare sp l ops rs =>
    simp only [Exp.InForm, Exp.isWritable, Exp.inForm_written l, Exp.inFormL_written rs,
      Form.shaped_written, Bool.and_eq_true]
    tauto
  | ifElse sp t a b =>
    simp only [Exp.InForm, Exp.isWritable, Exp.inForm_written t, Exp.inForm_written a,
      Exp.inForm_written b, Form.conditionals_written, Bool.and_eq_true]
    tauto
  | call sp f args keywords =>
    exact (and_congr_right' (call_written (Exp.inFormL_written args))).trans and_assoc.symm
  | other sp k ps => simp only [Exp.InForm, false_and]

theorem Exp.inFormL_written (es : List Exp) : Exp.InFormL φ.written es ↔ Exp.InFormL φ es ∧ Exp.isWritableL es := by
  cases es with
  | nil => simp only [Exp.InFormL, Exp.isWritableL, and_self]
  | cons e es =>
    simp only [Exp.InFormL, Exp.isWritableL, Exp.inForm_written e, Exp.inFormL_written es,
      Bool.and_eq_true]
    exact and_and_and_comm

end

theorem Exp.whole_written (e : Exp) : e.Whole φ.written ↔ e.Whole φ ∧ e.isWritable := by
  cases e with
  | call sp f args keywords => exact call_written (Exp.inFormL_written args)
  | _ => exact Exp.inForm_written _

theorem Exp.whole?_written (v : Option Exp) :
    (∀ e ∈ v, e.Whole φ.written) ↔ (∀ e ∈ v, e.Whole φ) ∧ v.all Exp.isWritable := by
  cases v with
  | none => simp
  | some e => simp [Exp.whole_written e]

theorem Exp.inForm?_written (v : Option Exp) :
    (∀ e ∈ v, e.InForm φ.written) ↔ (∀ e ∈ v, e.InForm φ) ∧ v.all Exp.isWritable := by
  cases v with
  | none => simp
  | some e => simp [Exp.inForm_written e]

end

theorem Stmt.isWritable_of_isNote {s : Stmt} (h : s.isNote) : s.isWritable = true := by
  obtain ⟨sp, v, rfl⟩ := Stmt.eq_exp_of_isNote h
  rcases Stmt.isNote_cases h with ⟨csp, k, rfl⟩ | ⟨csp, nsp, ksp, text, rfl⟩
  · rfl
  · rfl

section

variable {φ : BodyForm}

mutual

/-- A statement of a form, with types that have a text, has a text itself if its integers can be
written. -/
theorem Stmt.inForm_written (ht : ∀ u, φ.types u → u.isWritable = true) {inLoop : Bool} (s : Stmt) :
    s.InForm φ.written inLoop ↔ s.InForm φ inLoop ∧ s.isWritable := by
  cases s with
  | assign sp ts v =>
    simp only [Stmt.InForm, Stmt.isWritable, BodyForm.toForm_written, Exp.whole_written,
      Bool.and_eq_true]
    constructor
    · rintro ⟨⟨x, hx⟩, hv, hw⟩
      exact ⟨⟨⟨x, hx⟩, hv⟩, isWritable_of_target? hx, hw⟩
    · rintro ⟨⟨hx, hv⟩, -, hw⟩
      exact ⟨hx, hv, hw⟩
  | declare sp t u v =>
    simp only [Stmt.InForm, Stmt.isWritable, BodyForm.toForm_written, Exp.whole?_written,
      Bool.and_eq_true]
    constructor
    · rintro ⟨⟨x, hx⟩, hu, hv, hw⟩
      exact ⟨⟨⟨x, hx⟩, hu, hv⟩, ⟨Exp.isWritable_of_name? hx, ht u hu⟩, hw⟩
    · rintro ⟨⟨hx, hu, hv⟩, -, hw⟩
      exact ⟨hx, hu, hv, hw⟩
  | augment sp t op v =>
    simp only [Stmt.InForm, Stmt.isWritable, BodyForm.toForm_written, Exp.inForm_written,
      Bool.and_eq_true]
    constructor
    · rintro ⟨ha, ⟨x, hx⟩, hop, hv, hw⟩
      exact ⟨⟨ha, ⟨x, hx⟩, hop, hv⟩, Exp.isWritable_of_name? hx, hw⟩
    · rintro ⟨⟨ha, hx, hop, hv⟩, -, hw⟩
      exact ⟨ha, hx, hop, hv, hw⟩
  | exp sp v => simp only [Stmt.InForm, Stmt.isWritable, BodyForm.toForm_written, Exp.whole_written, and_assoc]
  | cond sp t body orElse =>
    simp only [Stmt.InForm, Stmt.isWritable, BodyForm.toForm_written, Exp.inForm_written,
      Form.shaped_written, Stmt.inFormL_written ht body, Stmt.inFormL_written ht orElse,
      Bool.and_eq_true]
    tauto
  | loop sp t body orElse =>
    simp only [Stmt.InForm, Stmt.isWritable, BodyForm.toForm_written, Form.flat_written,
      Exp.inForm_written, Stmt.inLoopForm_written ht body, Bool.and_eq_true]
    constructor
    · rintro ⟨⟨htest, hw⟩, rfl, hbody, hwb⟩
      exact ⟨⟨htest, rfl, hbody⟩, ⟨hw, hwb⟩, rfl⟩
    · rintro ⟨⟨htest, ho, hbody⟩, ⟨hw, hwb⟩, -⟩
      exact ⟨⟨htest, hw⟩, ho, hbody, hwb⟩
  | ret sp v => exact Exp.inForm?_written v
  | pass | brk | cont => simp only [Stmt.InForm, Stmt.isWritable, and_true]
  | function | other => simp only [Stmt.InForm, false_and]

theorem Stmt.inFormL_written (ht : ∀ u, φ.types u → u.isWritable = true) {inLoop : Bool}
    (ss : List Stmt) :
    Stmt.InFormL φ.written inLoop ss ↔ Stmt.InFormL φ inLoop ss ∧ Stmt.isWritableL ss := by
  cases ss with
  | nil => simp only [Stmt.InFormL, Stmt.isWritableL, and_self]
  | cons s ss =>
    simp only [Stmt.InFormL, Stmt.isWritableL, Stmt.inForm_written ht s, Stmt.inFormL_written ht ss,
      Bool.and_eq_true]
    exact and_and_and_comm

theorem Stmt.inLoopForm_written (ht : ∀ u, φ.types u → u.isWritable = true) (ss : List Stmt) :
    Stmt.InLoopForm φ.written ss ↔ Stmt.InLoopForm φ ss ∧ Stmt.isWritableL ss := by
  cases ss with
  | nil => simp only [Stmt.InLoopForm, Stmt.isWritableL, and_self]
  | cons s ss =>
    have hinv : s.isInvariant → s.isWritable :=
      fun h => Stmt.isWritable_of_isNote (Stmt.isNote_of_isInvariant h)
    simp only [Stmt.InLoopForm, Stmt.isWritableL, Stmt.inForm_written ht s,
      Stmt.inFormL_written ht ss, Stmt.inLoopForm_written ht ss, Bool.and_eq_true]
    tauto

end

end

/-! ## the normal form -/

mutual

theorem Stmt.isWritable_annotations (s : Stmt) (h : s.isWritable = true) : ∀ u ∈ s.annotations, u.isWritable = true := by
  cases s with
  | declare sp t u v => exact List.forall_mem_singleton.2 (Bool.and_eq_true_iff.1 (Bool.and_eq_true_iff.1 h).1).2
  | cond sp t body orElse | loop sp t body orElse =>
    obtain ⟨htb, ho⟩ := Bool.and_eq_true_iff.1 h
    obtain ⟨-, hb⟩ := Bool.and_eq_true_iff.1 htb
    exact List.forall_mem_append.2 ⟨Stmt.isWritable_annotationsL body hb, Stmt.isWritable_annotationsL orElse ho⟩
  | function sp x ps more body decorators result =>
    exact Stmt.isWritable_annotationsL body (Bool.and_eq_true_iff.1 h).2
  | _ => exact List.forall_mem_nil _

theorem Stmt.isWritable_annotationsL (ss : List Stmt) (h : Stmt.isWritableL ss = true) :
    ∀ u ∈ Stmt.annotationsL ss, u.isWritable = true := by
  cases ss with
  | nil => exact List.forall_mem_nil _
  | cons s ss =>
    obtain ⟨hs, hss⟩ := Bool.and_eq_true_iff.1 h
    exact List.forall_mem_append.2 ⟨Stmt.isWritable_annotations s hs, Stmt.isWritable_annotationsL ss hss⟩

end

end ContractVerifier.Source
