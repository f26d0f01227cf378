import ContractVerifier.Proofs.Source.Form
import ContractVerifier.Proofs.Source.Hoist
import Mathlib.Algebra.Order.Group.Multiset
import Mathlib.Tactic.Abel

/-!
# The calls of a run

Which calls an expression or a body makes, with the values of their arguments.  The language does
not come to every operand of `and`, `or` and a chained comparison; `eager` counts the calls in these
operands too.

* `Exp.calls`, `Stmt.calls` : the calls that are made;
* `calls_le` : an eager run makes all calls and perhaps more;
* `Stmt.Prompt` : no call stands in an operand that may be skipped, so that both runs make the same
  calls (`calls_eq`).
-/

namespace ContractVerifier.Source

/-- A callee, and the values it is called with. -/
abbrev Call := String × List Value

/-! ## expressions -/

section

variable (eager : Bool) (z : Int → Int) (I : Callees) (s : Store)

mutual

def Exp.calls : Exp → Multiset Call
  | .constant .. | .name .. | .other .. => 0
  | .unary _ _ e => e.calls
  | .binary _ l _ r => l.calls + r.calls
  | .logic _ op es => if eager then Exp.callsL es else Exp.callsLogic op es
  | .compare _ l ops rs => l.calls + if eager then Exp.callsL rs else Exp.callsChain (l.eval z I s) rs ops
  | .ifElse _ t a b =>
    t.calls + match t.truth? z I s with
      | some true => a.calls
      | some false => b.calls
      | none => 0
  | .call _ f args _ =>
    Exp.callsL args + match f.name?, Exp.evalL z I s args with
      | some id, some vs => {(id, vs)}
      | _, _ => 0

def Exp.callsL : List Exp → Multiset Call
  | [] => 0
  | e :: es => e.calls + Exp.callsL es

/-- No further than up to the operand that settles it. -/
def Exp.callsLogic (op : Logic) : List Exp → Multiset Call
  | [] => 0
  | e :: es => e.calls + if e.truth? z I s = some op.goesOn then Exp.callsLogic op es else 0

/-- No further than up to the comparison that fails. -/
def Exp.callsChain (l : Option Value) : List Exp → List Comparison → Multiset Call
  | [], _ => 0
  | r :: rs, ops =>
    match ops with
    | [] => 0
    | op :: ops =>
      r.calls + if (do op.holds? (← l) (← r.eval z I s)) = some true then Exp.callsChain (r.eval z I s) rs ops else 0

end

end

/-! ## statements -/

/-- The calls that a statement makes from a store. -/
abbrev Trace := Store → Multiset Call

namespace Trace

/-- The calls of `u` behind `f`, unless `f` leaves. -/
def behind (f : Effect) (u : Trace) : Trace := fun s =>
  match f s with
  | some (.next, s') => u s'
  | _ => 0

/-- The calls of a loop, of its test, its body and what is behind it. -/
def rounds (test : Store → Option Bool) (body : Effect) (ofTest ofBody other : Trace) : Nat → Trace
  | 0, _ => 0
  | n + 1, s =>
    ofTest s + match test s with
      | some true =>
        ofBody s + match body s with
          | some (.next, s') | some (.cont, s') => rounds test body ofTest ofBody other n s'
          | _ => 0
      | some false => other s
      | none => 0

end Trace

section

variable (eager : Bool) (z : Int → Int) (I : Callees) (n : Nat)

mutual

def Stmt.calls : Stmt → Trace
  | .assign _ _ v | .augment _ _ _ v => fun s => v.calls eager z I s
  | .declare _ _ _ v | .ret _ v => fun s =>
    match v with
    | some v => v.calls eager z I s
    | none => 0
  | .exp sp v => fun s => if (Stmt.exp sp v).isNote then 0 else v.calls eager z I s
  | .cond _ t body orElse => fun s =>
    t.calls eager z I s + match t.truth? z I s with
      | some true => Stmt.callsL body s
      | some false => Stmt.callsL orElse s
      | none => 0
  | .loop _ t body orElse =>
    Trace.rounds (t.truth? z I) (Stmt.execL z I n body) (fun s => t.calls eager z I s) (Stmt.callsL body)
      (Stmt.callsL orElse) n
  | .pass _ | .brk _ | .cont _ | .function .. | .other .. => fun _ => 0

def Stmt.callsL : List Stmt → Trace
  | [] => fun _ => 0
  | t :: ts => fun s => t.calls s + Trace.behind (t.exec z I n) (Stmt.callsL ts) s

end

end

/-! ## eager runs -/

section

variable {z : Int → Int} {I : Callees} {s : Store}

mutual

theorem Exp.calls_le (e : Exp) : e.calls false z I s ≤ e.calls true z I s := by
  cases e with
  | constant | name | other => exact le_rfl
  | unary sp op e => exact Exp.calls_le e
  | binary sp l op r => exact add_le_add (Exp.calls_le l) (Exp.calls_le r)
  | logic sp op es => exact Exp.callsLogic_le op es
  | compare sp l ops rs => exact add_le_add (Exp.calls_le l) (Exp.callsChain_le _ rs ops)
  | ifElse sp t a b =>
    refine add_le_add (Exp.calls_le t) ?_
    split
    · exact Exp.calls_le a
    · exact Exp.calls_le b
    · exact le_rfl
  | call sp f args keywords => exact add_le_add (Exp.callsL_le args) le_rfl

theorem Exp.callsL_le (es : List Exp) : Exp.callsL false z I s es ≤ Exp.callsL true z I s es := by
  cases es with
  | nil => exact le_rfl
  | cons e es => exact add_le_add (Exp.calls_le e) (Exp.callsL_le es)

theorem Exp.callsLogic_le (op : Logic) (es : List Exp) :
    Exp.callsLogic false z I s op es ≤ Exp.callsL true z I s es := by
  cases es with
  | nil => exact le_rfl
  | cons e es =>
    refine add_le_add (Exp.calls_le e) ?_
    split
    · exact Exp.callsLogic_le op es
    · exact Multiset.zero_le _

theorem Exp.callsChain_le (l : Option Value) (rs : List Exp) (ops : List Comparison) :
    Exp.callsChain false z I s l rs ops ≤ Exp.callsL true z I s rs := by
  cases rs with
  | nil => exact le_rfl
  | cons r rs =>
    cases ops with
    | nil => exact Multiset.zero_le _
    | cons op ops =>
      refine add_le_add (Exp.calls_le r) ?_
      split
      · exact Exp.callsChain_le _ rs ops
      · exact Multiset.zero_le _

end

end

namespace Trace

theorem behind_le {u u' : Trace} (h : ∀ s, u s ≤ u' s) (f : Effect) (s : Store) : behind f u s ≤ behind f u' s := by
  unfold behind
  split
  · exact h _
  · exact le_rfl

theorem rounds_le {test : Store → Option Bool} {body : Effect}
    {ofTest ofTest' ofBody ofBody' other other' : Trace} (ht : ∀ s, ofTest s ≤ ofTest' s)
    (hb : ∀ s, ofBody s ≤ ofBody' s) (ho : ∀ s, other s ≤ other' s) (n : Nat) (s : Store) :
    rounds test body ofTest ofBody other n s ≤ rounds test body ofTest' ofBody' other' n s := by
  induction n generalizing s with
  | zero => exact le_rfl
  | succ n ih =>
    refine add_le_add (ht s) ?_
    split
    · refine add_le_add (hb s) ?_
      split
      · exact ih _
      · exact ih _
      · exact le_rfl
    · exact ho s
    · exact le_rfl

end Trace

section

variable {z : Int → Int} {I : Callees} {n : Nat}

mutual

theorem Stmt.calls_le (t : Stmt) (s : Store) : t.calls false z I n s ≤ t.calls true z I n s := by
  cases t with
  | assign sp ts v => exact v.calls_le
  | augment sp t op v => exact v.calls_le
  | declare sp t u v =>
    cases v with
    | none => exact le_rfl
    | some v => exact v.calls_le
  | ret sp v =>
    cases v with
    | none => exact le_rfl
    | some v => exact v.calls_le
  | exp sp v =>
    simp only [Stmt.calls]
    split
    · exact le_rfl
    · exact v.calls_le
  | cond sp t body orElse =>
    refine add_le_add t.calls_le ?_
    split
    · exact Stmt.callsL_le body s
    · exact Stmt.callsL_le orElse s
    · exact le_rfl
  | loop sp t body orElse =>
    exact Trace.rounds_le (fun _ => t.calls_le) (Stmt.callsL_le body) (Stmt.callsL_le orElse) n s
  | pass | brk | cont | function | other => exact le_rfl

theorem Stmt.callsL_le (ts : List Stmt) (s : Store) : Stmt.callsL false z I n ts s ≤ Stmt.callsL true z I n ts s := by
  cases ts with
  | nil => exact le_rfl
  | cons t ts => exact add_le_add (Stmt.calls_le t s) (Trace.behind_le (Stmt.callsL_le ts) _ s)

end

end

/-! ## bodies without calls that may be skipped -/

mutual

def Exp.CallFree : Exp → Prop
  | .constant .. | .name .. | .other .. => True
  | .unary _ _ e => e.CallFree
  | .binary _ l _ r => l.CallFree ∧ r.CallFree
  | .logic _ _ es => Exp.CallFreeL es
  | .compare _ l _ rs => l.CallFree ∧ Exp.CallFreeL rs
  | .ifElse _ t a b => t.CallFree ∧ a.CallFree ∧ b.CallFree
  | .call .. => False

def Exp.CallFreeL : List Exp → Prop
  | [] => True
  | e :: es => e.CallFree ∧ Exp.CallFreeL es

end

mutual

/-- Of the operands of `and` and `or` only the first one holds calls, and of those of a comparison
only the first two. -/
def Exp.Prompt : Exp → Prop
  | .constant .. | .name .. | .other .. => True
  | .unary _ _ e => e.Prompt
  | .binary _ l _ r => l.Prompt ∧ r.Prompt
  | .logic _ _ es =>
    match es with
    | [] => True
    | e :: es => e.Prompt ∧ Exp.CallFreeL es
  | .compare _ l ops rs =>
    match rs with
    | [] => l.Prompt
    | r :: rs => l.Prompt ∧ r.Prompt ∧ (ops = [] → r.CallFree) ∧ Exp.CallFreeL rs
  | .ifElse _ t a b => t.Prompt ∧ a.Prompt ∧ b.Prompt
  | .call _ _ args _ => Exp.PromptL args

def Exp.PromptL : List Exp → Prop
  | [] => True
  | e :: es => e.Prompt ∧ Exp.PromptL es

end

mutual

def Stmt.Prompt : Stmt → Prop
  | .assign _ _ v | .augment _ _ _ v | .exp _ v => v.Prompt
  | .declare _ _ _ v | .ret _ v => ∀ e ∈ v, e.Prompt
  | .cond _ t body orElse | .loop _ t body orElse => t.Prompt ∧ Stmt.PromptL body ∧ Stmt.PromptL orElse
  | .pass _ | .brk _ | .cont _ | .function .. | .other .. => True

def Stmt.PromptL : List Stmt → Prop
  | [] => True
  | s :: ss => s.Prompt ∧ Stmt.PromptL ss

end

section

variable {z : Int → Int} {I : Callees} {s : Store}

mutual

theorem Exp.CallFree.calls_eq_zero (e : Exp) (h : e.CallFree) : e.calls true z I s = 0 := by
  cases e with
  | constant | name | other => rfl
  | unary sp op e => exact Exp.CallFree.calls_eq_zero e h
  | binary sp l op r =>
    simp only [Exp.calls, Exp.CallFree.calls_eq_zero l h.1, Exp.CallFree.calls_eq_zero r h.2,
      add_zero]
  | logic sp op es => exact Exp.CallFreeL.callsL_eq_zero es h
  | compare sp l ops rs =>
    simp only [Exp.calls, Exp.CallFree.calls_eq_zero l h.1, Exp.CallFreeL.callsL_eq_zero rs h.2,
      if_true, add_zero]
  | ifElse sp t a b =>
    simp only [Exp.calls, Exp.CallFree.calls_eq_zero t h.1, Exp.CallFree.calls_eq_zero a h.2.1,
      Exp.CallFree.calls_eq_zero b h.2.2, zero_add]
    split <;> rfl
  | call sp f args keywords => exact h.elim

theorem Exp.CallFreeL.callsL_eq_zero (es : List Exp) (h : Exp.CallFreeL es) : Exp.callsL true z I s es = 0 := by
  cases es with
  | nil => rfl
  | cons e es =>
    simp only [Exp.callsL, Exp.CallFree.calls_eq_zero e h.1, Exp.CallFreeL.callsL_eq_zero es h.2,
      add_zero]

end

theorem Exp.CallFreeL.callsLogic_eq_zero {es : List Exp} (h : Exp.CallFreeL es) (op : Logic) :
    Exp.callsLogic false z I s op es = 0 := by
  have hle := Exp.callsLogic_le (z := z) (I := I) (s := s) op es
  rw [h.callsL_eq_zero es] at hle
  exact Multiset.le_zero.1 hle

theorem Exp.CallFreeL.callsChain_eq_zero {rs : List Exp} (h : Exp.CallFreeL rs) (l : Option Value)
    (ops : List Comparison) :
    Exp.callsChain false z I s l rs ops = 0 := by
  have hle := Exp.callsChain_le (z := z) (I := I) (s := s) l rs ops
  rw [h.callsL_eq_zero rs] at hle
  exact Multiset.le_zero.1 hle

mutual

theorem Exp.Prompt.calls_eq (e : Exp) (h : e.Prompt) : e.calls false z I s = e.calls true z I s := by
  cases e with
  | constant | name | other => rfl
  | unary sp op e => exact Exp.Prompt.calls_eq e h
  | binary sp l op r => simp only [Exp.calls, Exp.Prompt.calls_eq l h.1, Exp.Prompt.calls_eq r h.2]
  | logic sp op es =>
    cases es with
    | nil => rfl
    | cons e es =>
      obtain ⟨he, hes⟩ := h
      simp only [Exp.calls, Exp.callsLogic, Exp.callsL, Exp.Prompt.calls_eq e he,
        hes.callsLogic_eq_zero, hes.callsL_eq_zero, ite_self, if_true, Bool.false_eq_true, if_false]
  | compare sp l ops rs =>
    cases rs with
    | nil => simp only [Exp.calls, Exp.Prompt.calls_eq l h, Exp.callsChain, Exp.callsL, ite_self]
    | cons r rs =>
      obtain ⟨hl, hr, hfirst, hrs⟩ := h
      simp only [Exp.calls, Exp.Prompt.calls_eq l hl, if_true, Bool.false_eq_true, if_false]
      cases ops with
      | nil => simp only [Exp.callsChain, Exp.callsL, (hfirst rfl).calls_eq_zero, hrs.callsL_eq_zero, add_zero]
      | cons op ops =>
        simp only [Exp.callsChain, Exp.callsL, Exp.Prompt.calls_eq r hr, hrs.callsChain_eq_zero,
          hrs.callsL_eq_zero, ite_self]
  | ifElse sp t a b =>
    simp only [Exp.calls, Exp.Prompt.calls_eq t h.1, Exp.Prompt.calls_eq a h.2.1,
      Exp.Prompt.calls_eq b h.2.2]
  | call sp f args keywords => simp only [Exp.calls, Exp.PromptL.callsL_eq args h]

theorem Exp.PromptL.callsL_eq (es : List Exp) (h : Exp.PromptL es) : Exp.callsL false z I s es = Exp.callsL true z I s es := by
  cases es with
  | nil => rfl
  | cons e es => simp only [Exp.callsL, Exp.Prompt.calls_eq e h.1, Exp.PromptL.callsL_eq es h.2]

end

end

section

variable {z : Int → Int} {I : Callees} {n : Nat}

mutual

theorem Stmt.Prompt.calls_eq (t : Stmt) (h : t.Prompt) : t.calls false z I n = t.calls true z I n := by
  cases t with
  | assign sp ts v => exact funext fun s => Exp.Prompt.calls_eq v h
  | augment sp t op v => exact funext fun s => Exp.Prompt.calls_eq v h
  | declare sp t u v =>
    cases v with
    | none => rfl
    | some v => exact funext fun s => Exp.Prompt.calls_eq v (h v rfl)
  | ret sp v =>
    cases v with
    | none => rfl
    | some v => exact funext fun s => Exp.Prompt.calls_eq v (h v rfl)
  | exp sp v =>
    funext s
    simp only [Stmt.calls, Exp.Prompt.calls_eq v h]
  | cond sp t body orElse =>
    funext s
    simp only [Stmt.calls, Exp.Prompt.calls_eq t h.1, Stmt.PromptL.callsL_eq body h.2.1,
      Stmt.PromptL.callsL_eq orElse h.2.2]
  | loop sp t body orElse =>
    simp only [Stmt.calls, Exp.Prompt.calls_eq t h.1, Stmt.PromptL.callsL_eq body h.2.1,
      Stmt.PromptL.callsL_eq orElse h.2.2]
  | pass | brk | cont | function | other => rfl

theorem Stmt.PromptL.callsL_eq (ts : List Stmt) (h : Stmt.PromptL ts) :
    Stmt.callsL false z I n ts = Stmt.callsL true z I n ts := by
  cases ts with
  | nil => rfl
  | cons t ts =>
    funext s
    simp only [Stmt.callsL, Stmt.Prompt.calls_eq t h.1, Stmt.PromptL.callsL_eq ts h.2]

end

end

/-! ## the normal form is prompt -/

section

variable {φ : Form}

mutual

theorem Exp.InForm.callFree (hφ : φ.calls = false) (e : Exp) (h : e.InForm φ) : e.CallFree := by
  cases e with
  | constant | name | other => trivial
  | unary sp op e => exact Exp.InForm.callFree hφ e h.2
  | binary sp l op r => exact ⟨Exp.InForm.callFree hφ l h.2.1, Exp.InForm.callFree hφ r h.2.2⟩
  | logic sp op es => exact Exp.InFormL.callFreeL hφ es h.2
  | compare sp l ops rs => exact ⟨Exp.InForm.callFree hφ l h.2.2.1, Exp.InFormL.callFreeL hφ rs h.2.2.2⟩
  | ifElse sp t a b =>
    exact ⟨Exp.InForm.callFree hφ t h.2.1, Exp.InForm.callFree hφ a h.2.2.1, Exp.InForm.callFree hφ b h.2.2.2⟩
  | call sp f args keywords => exact absurd h.1 (by simp [hφ])

theorem Exp.InFormL.callFreeL (hφ : φ.calls = false) (es : List Exp) (h : Exp.InFormL φ es) : Exp.CallFreeL es := by
  cases es with
  | nil => trivial
  | cons e es => exact ⟨Exp.InForm.callFree hφ e h.1, Exp.InFormL.callFreeL hφ es h.2⟩

end

mutual

theorem Exp.CallFree.prompt (e : Exp) (h : e.CallFree) : e.Prompt := by
  cases e with
  | constant | name | other => trivial
  | unary sp op e => exact Exp.CallFree.prompt e h
  | binary sp l op r => exact ⟨Exp.CallFree.prompt l h.1, Exp.CallFree.prompt r h.2⟩
  | logic sp op es =>
    cases es with
    | nil => trivial
    | cons e es => exact ⟨Exp.CallFree.prompt e h.1, h.2⟩
  | compare sp l ops rs =>
    cases rs with
    | nil => exact Exp.CallFree.prompt l h.1
    | cons r rs => exact ⟨Exp.CallFree.prompt l h.1, Exp.CallFree.prompt r h.2.1, fun _ => h.2.1, h.2.2⟩
  | ifElse sp t a b => exact ⟨Exp.CallFree.prompt t h.1, Exp.CallFree.prompt a h.2.1, Exp.CallFree.prompt b h.2.2⟩
  | call sp f args keywords => exact h.elim

theorem Exp.CallFreeL.promptL (es : List Exp) (h : Exp.CallFreeL es) : Exp.PromptL es := by
  cases es with
  | nil => trivial
  | cons e es => exact ⟨Exp.CallFree.prompt e h.1, Exp.CallFreeL.promptL es h.2⟩

end

theorem Exp.InForm.prompt (hφ : φ.calls = false) {e : Exp} (h : e.InForm φ) : e.Prompt :=
  (h.callFree hφ e).prompt e

theorem Exp.Whole.prompt (hφ : φ.calls = false) {e : Exp} (h : e.Whole φ) : e.Prompt := by
  cases e with
  | call sp f args keywords => exact (h.2.2.callFreeL hφ args).promptL args
  | _ => exact Exp.InForm.prompt hφ h

end

theorem Stmt.prompt_of_isNote {s : Stmt} (h : s.isNote) : s.Prompt := by
  obtain ⟨sp, v, rfl⟩ := Stmt.eq_exp_of_isNote h
  rcases Stmt.isNote_cases h with ⟨csp, k, rfl⟩ | ⟨csp, nsp, ksp, text, rfl⟩
  · trivial
  · exact ⟨trivial, trivial⟩

section

variable {φ : BodyForm}

mutual

theorem Stmt.InForm.prompt (hφ : φ.calls = false) {inLoop : Bool} (s : Stmt) (h : s.InForm φ inLoop) : s.Prompt := by
  cases s with
  | assign sp ts v => exact Exp.Whole.prompt hφ h.2
  | declare sp t u v => exact fun e he => Exp.Whole.prompt hφ (h.2.2 e he)
  | augment sp t op v => exact Exp.InForm.prompt hφ h.2.2.2
  | exp sp v => exact Exp.Whole.prompt hφ h.2
  | cond sp t body orElse =>
    exact ⟨Exp.InForm.prompt hφ h.1, Stmt.InFormL.promptL hφ body h.2.2.1, Stmt.InFormL.promptL hφ orElse h.2.2.2⟩
  | loop sp t body orElse =>
    obtain ⟨ht, rfl, hbody⟩ := h
    exact ⟨Exp.InForm.prompt rfl ht, Stmt.InLoopForm.promptL hφ body hbody, trivial⟩
  | ret sp v => exact fun e he => Exp.InForm.prompt hφ (h e he)
  | pass | brk | cont | function | other => trivial

theorem Stmt.InFormL.promptL (hφ : φ.calls = false) {inLoop : Bool} (ss : List Stmt)
    (h : Stmt.InFormL φ inLoop ss) :
    Stmt.PromptL ss := by
  cases ss with
  | nil => trivial
  | cons s ss => exact ⟨Stmt.InForm.prompt hφ s h.1, Stmt.InFormL.promptL hφ ss h.2⟩

theorem Stmt.InLoopForm.promptL (hφ : φ.calls = false) (ss : List Stmt) (h : Stmt.InLoopForm φ ss) : Stmt.PromptL ss := by
  cases ss with
  | nil => trivial
  | cons s ss =>
    rcases h with ⟨hs, hss⟩ | ⟨hs, hss⟩
    · exact ⟨Stmt.prompt_of_isNote (Stmt.isNote_of_isInvariant hs), Stmt.InLoopForm.promptL hφ ss hss⟩
    · exact ⟨Stmt.InForm.prompt hφ s hs, Stmt.InFormL.promptL hφ ss hss⟩

end

theorem Stmt.InBodyForm.promptL (hφ : φ.calls = false) {ss : List Stmt} (h : Stmt.InBodyForm φ ss) : Stmt.PromptL ss := by
  cases ss with
  | nil => trivial
  | cons s ss =>
    obtain ⟨hs | hs, hss⟩ := h
    · exact ⟨Stmt.prompt_of_isNote (Stmt.isNote_of_isDocstring hs), hss.promptL hφ ss⟩
    · exact ⟨hs.prompt hφ s, hss.promptL hφ ss⟩

end

end ContractVerifier.Source
