import ContractVerifier.Source.Lower

/-!
# Running the builder

`Build.Spec x b Q` says that if `x` succeeds from the builder `b`, then with a result and a builder
that satisfy `Q`.  There is one rule for each of the small steps that lowering is made of;
`Spec.of_run` reads a specification off a run.
-/

namespace ContractVerifier.Source.Build

open ContractVerifier.Flow

variable {α β : Type}

def Spec (x : Build α) (b : Builder) (Q : α → Builder → Prop) : Prop :=
  ∀ a b', x.run b = .ok (a, b') → Q a b'

section

variable {b : Builder} {Q : α → Builder → Prop}

theorem run_bind (x : Build β) (f : β → Build α) (b : Builder) :
    (x >>= f).run b = match x.run b with
      | .ok (a, b') => (f a).run b'
      | .error e => .error e := by
  show Except.bind (x.run b) (fun p => (f p.1).run p.2) = _
  cases x.run b <;> rfl

@[simp] theorem spec_bind {x : Build β} {f : β → Build α} :
    Spec (x >>= f) b Q ↔ Spec x b fun a b' => Spec (f a) b' Q := by
  unfold Spec
  simp only [run_bind]
  cases x.run b with
  | error e => simp
  | ok p =>
    obtain ⟨a, b₁⟩ := p
    constructor
    · intro h a' b' hr
      cases hr
      exact h
    · exact fun h => h a b₁ rfl

@[simp] theorem spec_pure {a : α} : Spec (pure a) b Q ↔ Q a b := by
  constructor
  · exact fun h => h a b rfl
  · intro h a' b' hr
    cases hr
    exact h

@[simp] theorem spec_raise {e : Error} : Spec (raise e : Build α) b Q := nofun

@[simp] theorem spec_fault {f : Fault} : Spec (fault f : Build α) b Q := nofun

@[simp] theorem spec_get {Q : Builder → Builder → Prop} : Spec get b Q ↔ Q b b := spec_pure (α := Builder)

@[simp] theorem spec_modify {f : Builder → Builder} {Q : PUnit → Builder → Prop} : Spec (modify f) b Q ↔ Q ⟨⟩ (f b) := by
  constructor
  · exact fun h => h ⟨⟩ (f b) rfl
  · intro h a' b' hr
    cases hr
    exact h

/-- A computation that does not see the builder. -/
@[simp] theorem spec_lift {x : Except Failure α} : Spec (liftM x : Build α) b Q ↔ ∀ a, x = .ok a → Q a b := by
  cases x with
  | error e => exact ⟨fun _ => nofun, fun _ => nofun⟩
  | ok a =>
    constructor
    · intro h a' ha
      cases ha
      exact h a b rfl
    · intro h a' b' hr
      cases hr
      exact h a rfl

@[simp] theorem spec_typed {line : Int} {x : Except TypeCause α} :
    Spec (typed line x) b Q ↔ ∀ a, x = .ok a → Q a b := by
  unfold typed
  cases x with
  | error c => simp
  | ok a => simp

theorem Spec.and {x : Build α} {P : α → Builder → Prop} (h : Spec x b P) (h' : Spec x b Q) :
    Spec x b fun a b' => P a b' ∧ Q a b' := fun a b' hr => ⟨h a b' hr, h' a b' hr⟩

theorem Spec.mono {x : Build α} {P : α → Builder → Prop} (h : Spec x b P)
    (hq : ∀ a b', P a b' → Q a b') : Spec x b Q :=
  fun a b' hr => hq a b' (h a b' hr)

end

section

variable {b : Builder}

@[simp] theorem spec_newBlock {line : Int} {Q : Nat → Builder → Prop} :
    Spec (newBlock line) b Q ↔
      Q b.blocks.length { b with blocks := b.blocks ++ [({ line := some line } : Block)] } := by
  constructor
  · exact fun h => h _ _ rfl
  · intro h a' b' hr
    cases hr
    exact h

@[simp] theorem spec_enter {i : Nat} {Q : Unit → Builder → Prop} : Spec (enter i) b Q ↔ Q () { b with current := i } :=
  spec_modify

@[simp] theorem spec_current {Q : Nat → Builder → Prop} : Spec current b Q ↔ Q b.current b := by
  constructor
  · exact fun h => h _ _ rfl
  · intro h a' b' hr
    cases hr
    exact h

@[simp] theorem spec_editBlock {i : Nat} {f : Block → Block} {Q : Unit → Builder → Prop} :
    Spec (editBlock i f) b Q ↔ Q () { b with blocks := b.blocks.modify i f } := spec_modify

@[simp] theorem spec_setTerm {i : Nat} {t : Terminator} {Q : Unit → Builder → Prop} :
    Spec (setTerm i t) b Q ↔ Q () { b with blocks := b.blocks.modify i fun k => { k with term := some t } } := spec_modify

@[simp] theorem spec_setMissingTerm {i : Nat} {t : Terminator} {Q : Unit → Builder → Prop} :
    Spec (setMissingTerm i t) b Q ↔
      Q () { b with blocks := b.blocks.modify i fun k => { k with term := k.term.or (some t) } } := spec_modify

@[simp] theorem spec_addOp {op : Op} {Q : Unit → Builder → Prop} :
    Spec (addOp op) b Q ↔
      Q () { b with blocks := b.blocks.modify b.current fun k => { k with ops := k.ops ++ [op] } } := by
  unfold addOp
  simp

@[simp] theorem spec_terminate {t : Terminator} {line : Int} {Q : Unit → Builder → Prop} :
    Spec (terminate t line) b Q ↔
      Q () { b with
        blocks := (b.blocks.modify b.current fun k => { k with term := some t }) ++ [({ line := some line } : Block)],
        current := b.blocks.length } := by
  unfold terminate
  simp

end

end ContractVerifier.Source.Build
