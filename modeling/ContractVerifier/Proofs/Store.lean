import ContractVerifier.Proofs.Expr.Meaning

/-!
# Stores

A store gives a value to every name.  `Expr.value` is the value of an expression in a store; it
depends on the names of the variables only.
-/

namespace ContractVerifier

/-- A computation succeeds step by step. -/
theorem exists_of_bind_ok {ε α β : Type} {x : Except ε α} {f : α → Except ε β} {r : β}
    (h : (x >>= f) = .ok r) :
    ∃ a, x = .ok a ∧ f a = .ok r := by
  cases x with
  | error e => cases h
  | ok a => exact ⟨a, rfl, h⟩

abbrev Store := String → Value

namespace Store

def read (s : Store) (v : Var) : Value := s v.name

def set (s : Store) (x : String) (v : Value) : Store := fun y => if x = y then v else s y

/-- The value goes to the target, if there is one. -/
def bind (s : Store) : Option Var → Value → Store
  | some t, v => s.set t.name v
  | none, _ => s

/-- Parameters have the values of the arguments; of two parameters with one name the later one
counts. -/
def ofArgs (params : List Var) (vals : List Value) : Store := fun x =>
  ((Keyed.ofList ((params.map (·.name)).zip vals)).get? x).getD default

/-- Every name has a value of its type. -/
def Typed (Γ : String → Ty) (s : Store) : Prop := ∀ x, (s x).Fits (Γ x)

@[simp] theorem set_same (s : Store) (x : String) (v : Value) : s.set x v x = v := by simp [set]

theorem set_of_ne (s : Store) {x y : String} (v : Value) (h : x ≠ y) : s.set x v y = s y := by simp [set, h]

theorem set_self (s : Store) (x : String) : s.set x (s x) = s := by
  funext y
  unfold set
  split
  · rename_i h; rw [h]
  · rfl

theorem Typed.set {Γ : String → Ty} {s : Store} (h : s.Typed Γ) {x : String} {v : Value}
    (hv : v.Fits (Γ x)) :
    (s.set x v).Typed Γ := by
  intro y
  unfold Store.set
  split
  · rename_i hxy; exact hxy ▸ hv
  · exact h y

theorem Typed.bind {Γ : String → Ty} {s : Store} (h : s.Typed Γ) {t : Option Var} {v : Value}
    (hv : ∀ w, t = some w → v.Fits (Γ w.name)) : (s.bind t v).Typed Γ := by
  cases t with
  | none => exact h
  | some w => exact h.set (hv w rfl)

end Store

/-- What the callees compute from their arguments. -/
abbrev Callees := String → List Value → Value

namespace Expr

/-- The value in a store. -/
def value (z : Int → Int) (s : Store) (e : Expr) : Value := e.eval (.standard z) s.read

theorem value_congr {z : Int → Int} {s s' : Store} {e : Expr}
    (h : ∀ v ∈ e.vars, s v.name = s' v.name) :
    e.value z s = e.value z s' := eval_congr h

end Expr

end ContractVerifier
