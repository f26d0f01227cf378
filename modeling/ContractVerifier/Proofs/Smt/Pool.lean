import ContractVerifier.Proofs.Smt.Encode
import ContractVerifier.Smt.Pool

/-!
# The pool of an encoder

An encoder looks at the sort of a node only when the node is new to its pool.  As long as nothing
was refused, all nodes of the pool have been looked at and have a sort (`Encoder.Sound`), and then
the pool makes no difference: an expression gets the term, or the refusal, that it gets when every
node is looked at.

* `sweep_node` : the check of a node over nodes with sorts is one step;
* `Matches` : a run over a pool and a run without end alike;
* `matches_build` : the term of an expression;
* `Encoder.Sound.encode_cases` : the encoder, with and without its pool.
-/

namespace ContractVerifier

open Smt

/-! ## checks -/

namespace Smt

variable {t : Term} {sorts : Keyed Term (Option Ty)}

theorem Term.rootSort?_congr {f g : Term → Option Ty} (h : ∀ a ∈ t.args, f a = g a) : t.rootSort? f = t.rootSort? g := by
  cases t with
  | sym v => rfl
  | lit v => rfl
  | not a => simp only [rootSort?, h a (by simp [args])]
  | bin op l r => simp only [rootSort?, h l (by simp [args]), h r (by simp [args])]
  | ite c a b => simp only [rootSort?, h c (by simp [args]), h a (by simp [args]), h b (by simp [args])]

/-- The sort of a root is read off the node. -/
theorem Term.rootSort?_type {u : Ty} (h : (t.rootSort? fun a => some a.type) = some u) : u = t.type := by
  cases t with
  | sym v => exact (Option.some.inj h).symm
  | lit v => exact (Option.some.inj h).symm
  | not a =>
    simp only [rootSort?, Option.ite_none_right_eq_some] at h
    exact (Option.some.inj h.2).symm
  | bin op l r =>
    simp only [rootSort?, Option.ite_none_right_eq_some] at h
    exact (Option.some.inj h.2).symm
  | ite c a b =>
    simp only [rootSort?, Option.ite_none_right_eq_some] at h
    exact (Option.some.inj h.2).symm

theorem Pool.comparesSortless_eq_false (h : ∀ a ∈ t.args, Pool.sort? sorts a = some a.type) :
    t.comparesSortless (Pool.sort? sorts) = false := by
  unfold Term.comparesSortless
  split
  · rename_i l r
    rw [h l (by simp [Term.args])]
    rfl
  · rename_i l r
    rw [h l (by simp [Term.args])]
    rfl
  · rfl

/-- The arguments have sorts, so that the node is the only one to be looked at. -/
theorem Pool.sweep_node (hargs : ∀ a ∈ t.args, sorts.get? a = some (some a.type))
    (hnew : sorts.get? t = none) :
    Pool.sweep sorts [.enter t] = (.ok (), sorts.put t (t.rootSort? fun a => some a.type), []) := by
  have hknown : ∀ a ∈ t.args, sorts.contains a = true := fun a ha => by
    rw [Keyed.contains, hargs a ha]
    rfl
  have hsort : ∀ a ∈ t.args, Pool.sort? sorts a = some a.type := fun a ha => by
    rw [Pool.sort?, hargs a ha]
    rfl
  have hentries : Visit.entries sorts.contains t.args = [] := by
    have hfilter : t.args.filter (fun a => !sorts.contains a) = [] :=
      List.filter_eq_nil_iff.2 fun a ha => by simp [hknown a ha]
    rw [Visit.entries, hfilter]
    rfl
  have hfresh : sorts.contains t = false := by
    rw [Keyed.contains, hnew]
    rfl
  have hall : t.args.all sorts.contains = true := List.all_eq_true.2 hknown
  rw [Pool.sweep, hentries, List.nil_append, Pool.sweep]
  simp only [hfresh, hall, Pool.comparesSortless_eq_false hsort, Term.rootSort?_congr hsort,
    Bool.not_true, Bool.false_eq_true, if_false]
  rw [Pool.sweep]

end Smt

/-! ## encoders -/

namespace Encoder

/-- Nothing was refused: the nodes are those with a sort, and the symbols in use are among them. -/
structure Sound (enc : Encoder) : Prop where
  formed : ∀ t ∈ enc.pool.nodes, (t.rootSort? fun a => some a.type) = some t.type
  sorts : ∀ t ∈ enc.pool.nodes, enc.pool.sorts.get? t = some (some t.type)
  fresh : ∀ t, t ∉ enc.pool.nodes → enc.pool.sorts.get? t = none
  args : ∀ t ∈ enc.pool.nodes, ∀ a ∈ t.args, a ∈ enc.pool.nodes
  waiting : enc.pool.waiting = []
  symbols : ∀ x u, enc.symbols.get? x = some u → .sym ⟨x, u⟩ ∈ enc.pool.nodes

theorem sound_empty : ({} : Encoder).Sound where
  formed := by simp [Term.rootSort?, Term.type]
  sorts := by simp [Keyed.get?_cons, Keyed.get?_nil, Term.type, Value.type]
  fresh := fun t ht => by
    simp only [List.mem_cons, List.not_mem_nil, or_false, not_or] at ht
    rw [Keyed.get?_cons, if_neg (Ne.symm ht.1), Keyed.get?_cons, if_neg (Ne.symm ht.2),
      Keyed.get?_nil]
  args := by simp [Term.args]
  waiting := rfl
  symbols := fun x u h => by cases h

/-- The encoder after a node that was not in its pool. -/
def withNode (enc : Encoder) (t : Term) (s : Option Ty) : Encoder :=
  { enc with pool := { nodes := t :: enc.pool.nodes, sorts := enc.pool.sorts.put t s, waiting := [] } }

theorem Sound.withNode {enc : Encoder} (h : enc.Sound) {t : Term}
    (ht : ∀ a ∈ t.args, a ∈ enc.pool.nodes)
    (hroot : (t.rootSort? fun a => some a.type) = some t.type) :
    (enc.withNode t (some t.type)).Sound where
  formed := List.forall_mem_cons.2 ⟨hroot, h.formed⟩
  sorts := fun a ha => by
    show (enc.pool.sorts.put t _).get? a = _
    rw [Keyed.get?_put]
    by_cases hat : t = a
    · rw [if_pos hat, hat]
    · rw [if_neg hat]
      exact h.sorts a ((List.mem_cons.1 ha).resolve_left (Ne.symm hat))
  fresh := fun a ha => by
    have hne : t ≠ a := fun hat => ha (hat ▸ List.mem_cons_self ..)
    show (enc.pool.sorts.put t _).get? a = none
    rw [Keyed.get?_put, if_neg hne]
    exact h.fresh a fun hm => ha (List.mem_cons_of_mem _ hm)
  args := fun a ha c hc => by
    rcases List.mem_cons.1 ha with rfl | ha
    · exact List.mem_cons_of_mem _ (ht c hc)
    · exact List.mem_cons_of_mem _ (h.args a ha c hc)
  waiting := rfl
  symbols := fun x u hx => List.mem_cons_of_mem _ (h.symbols x u hx)

theorem Sound.withSymbol {enc : Encoder} (h : enc.Sound) {v : Var} (hv : .sym v ∈ enc.pool.nodes) :
    ({ enc with symbols := enc.symbols.put v.name v.type } : Encoder).Sound where
  formed := h.formed
  sorts := h.sorts
  fresh := h.fresh
  args := h.args
  waiting := h.waiting
  symbols := fun x u hx => by
    rw [Keyed.get?_put] at hx
    split at hx
    · rename_i hn
      cases hx
      rw [← hn]
      exact hv
    · exact h.symbols x u hx

/-! ## runs -/

namespace Run

variable {α β : Type}

def exec (x : Run α) (enc : Encoder) : Except Stop α × Encoder :=
  Id.run (StateT.run (ExceptT.run x) enc)

theorem exec_bind (x : Run β) (f : β → Run α) (enc : Encoder) :
    (x >>= f).exec enc = match x.exec enc with
      | (.ok a, enc') => (f a).exec enc'
      | (.error e, enc') => (.error e, enc') := by
  show (ExceptT.bindCont f (x.exec enc).1) (x.exec enc).2 = _
  rcases x.exec enc with ⟨a | e, enc'⟩ <;> rfl

variable {enc : Encoder} {t : Term} {p : Pool}

theorem exec_get (f : Encoder → Run α) : (get >>= f).exec enc = (f enc).exec enc := rfl

theorem exec_sortOf_some {u : Ty} (h : enc.pool.check t = (.ok (some u), p)) :
    (sortOf t).exec enc = (.ok u, { enc with pool := p }) := by
  unfold sortOf
  rw [exec_get]
  simp only [h]
  rfl

theorem exec_sortOf_none (h : enc.pool.check t = (.ok none, p)) :
    (sortOf t).exec enc = (.error (.encode (.refused (.illSorted t))), { enc with pool := p }) := by
  unfold sortOf
  rw [exec_get]
  simp only [h]
  rfl

end Run

/-- A run over a pool with the nodes `before` and a run without a pool end alike.  After a result
the pool is sound, holds what it held, and satisfies `Q` with the result. -/
inductive Agrees {α : Type} (before : List Term) (Q : α → List Term → Prop) :
    Except Stop α × Encoder → Except EncodeStop α × Symbols → Prop where
  | ok {a : α} {enc : Encoder} : enc.Sound → (∀ t ∈ before, t ∈ enc.pool.nodes) → Q a enc.pool.nodes →
      Agrees before Q (.ok a, enc) (.ok a, enc.symbols)
  | refused {e : EncodeStop} {enc : Encoder} : Agrees before Q (.error (.encode e), enc) (.error e, enc.symbols)

/-- `x` from an encoder agrees with `y` from its symbols. -/
def Matches {α : Type} (x : Run α) (y : Encode α) (enc : Encoder) (Q : α → List Term → Prop) :
    Prop :=
  Agrees enc.pool.nodes Q (x.exec enc) (y.run enc.symbols)

section

variable {α β : Type} {enc : Encoder} {Q : α → List Term → Prop} {t l r : Term}

theorem Matches.pure (h : enc.Sound) {a : α} (hq : Q a enc.pool.nodes) :
    Matches (Pure.pure a) (Pure.pure a) enc Q := .ok h (fun _ ht => ht) hq

theorem Matches.bind {x : Run β} {y : Encode β} {f : β → Run α} {g : β → Encode α}
    {P : β → List Term → Prop} (hx : Matches x y enc P)
    (hf : ∀ a enc', enc'.Sound → (∀ t ∈ enc.pool.nodes, t ∈ enc'.pool.nodes) → P a enc'.pool.nodes →
      Matches (f a) (g a) enc' Q) : Matches (x >>= f) (y >>= g) enc Q := by
  unfold Matches at hx ⊢
  rw [Run.exec_bind, Encode.run_bind]
  generalize x.exec enc = p at hx ⊢
  generalize y.run enc.symbols = q at hx ⊢
  cases hx with
  | refused => exact .refused
  | @ok a enc' hs hm hp =>
    have hrest := hf a enc' hs hm hp
    unfold Matches at hrest
    show Agrees enc.pool.nodes Q ((f a).exec enc') ((g a).run enc'.symbols)
    generalize (f a).exec enc' = p at hrest ⊢
    generalize (g a).run enc'.symbols = q at hrest ⊢
    cases hrest with
    | ok hs' hm' hq => exact .ok hs' (fun t ht => hm' t (hm t ht)) hq
    | refused => exact .refused

/-! ## nodes -/

/-- The check of a node that is not in the pool. -/
theorem Sound.check_new (h : enc.Sound) (hargs : ∀ a ∈ t.args, a ∈ enc.pool.nodes)
    (hnew : t ∉ enc.pool.nodes) :
    ({ enc.pool with nodes := t :: enc.pool.nodes } : Pool).check t =
      (.ok (t.rootSort? fun a => some a.type), (enc.withNode t (t.rootSort? fun a => some a.type)).pool) := by
  have hsweep := Pool.sweep_node (fun a ha => h.sorts a (hargs a ha)) (h.fresh t hnew)
  unfold Pool.check
  simp only [h.fresh t hnew, h.waiting, hsweep, Except.map]
  refine Prod.ext (congrArg Except.ok ?_) rfl
  rw [Pool.sort?, Keyed.get?_put, if_pos rfl, Option.getD_some]

theorem node_of_formed (hroot : (t.rootSort? fun a => some a.type) = some t.type) : Encode.node t = pure t := by
  unfold Encode.node Term.checked
  rw [hroot]

theorem matches_node (h : enc.Sound) (hargs : ∀ a ∈ t.args, a ∈ enc.pool.nodes) :
    Matches (Run.node t) (Encode.node t) enc fun a nodes => a ∈ nodes := by
  by_cases ht : t ∈ enc.pool.nodes
  · have hrun : (Run.node t).exec enc = (.ok t, enc) := by
      show (if enc.pool.nodes.contains t then Pure.pure t else _ : Run Term).exec enc = _
      rw [if_pos (List.contains_iff_mem.2 ht)]
      rfl
    unfold Matches
    rw [hrun, node_of_formed (h.formed t ht)]
    exact .ok h (fun _ ha => ha) ht
  · have hcheck := h.check_new hargs ht
    have hrun : (Run.node t).exec enc =
        (do let _ ← Run.sortOf t; Pure.pure t : Run Term).exec
          { enc with pool := { enc.pool with nodes := t :: enc.pool.nodes } } := by
      show (if enc.pool.nodes.contains t then Pure.pure t else _ : Run Term).exec enc = _
      rw [if_neg fun hc => ht (List.contains_iff_mem.1 hc)]
      rfl
    unfold Matches
    rw [hrun, Run.exec_bind]
    cases hroot : t.rootSort? fun a => some a.type with
    | none =>
      rw [hroot] at hcheck
      rw [Run.exec_sortOf_none hcheck]
      unfold Encode.node Term.checked
      rw [hroot]
      exact .refused
    | some u =>
      have hu : u = t.type := Term.rootSort?_type hroot
      subst hu
      rw [hroot] at hcheck
      rw [Run.exec_sortOf_some hcheck, node_of_formed hroot]
      exact .ok (h.withNode hargs hroot)
        (fun a ha => List.mem_cons_of_mem _ ha) (List.mem_cons_self ..)

theorem matches_sortOf (h : enc.Sound) (ht : t ∈ enc.pool.nodes) :
    Matches (Run.sortOf t) (Pure.pure t.type) enc fun _ _ => True := by
  have hcheck : enc.pool.check t = (.ok (some t.type), enc.pool) := by
    unfold Pool.check
    rw [h.sorts t ht]
  unfold Matches
  rw [Run.exec_sortOf_some hcheck]
  exact .ok h (fun _ ha => ha) trivial

theorem matches_get {f : Encoder → Run α} {g : Symbols → Encode α} :
    Matches (get >>= f) (get >>= g) enc Q ↔ Matches (f enc) (g enc.symbols) enc Q := Iff.rfl

theorem matches_throw {e : EncodeStop} : Matches (throw (.encode e) : Run α) (throw e) enc Q :=
  .refused

/-- A name that is in use has its symbol in the pool. -/
theorem Sound.mem_of_lacks (h : enc.Sound) {v : Var} (hv : enc.symbols.lacks v = .ok false) : .sym v ∈ enc.pool.nodes := by
  unfold Symbols.lacks at hv
  split at hv
  · cases hv
  · split at hv
    · cases hv
    · rename_i u hu
      by_cases ht : u = v.type
      · exact h.symbols v.name v.type (ht ▸ hu)
      · rw [if_neg ht] at hv
        cases hv

theorem matches_symbol (h : enc.Sound) (v : Var) :
    Matches (Run.symbol v) (Encode.symbol v) enc fun a nodes => a ∈ nodes := by
  unfold Run.symbol Encode.symbol
  rw [matches_get]
  cases hl : enc.symbols.lacks v with
  | error c => exact matches_throw
  | ok b =>
    cases b with
    | false => exact Matches.pure h (h.mem_of_lacks hl)
    | true =>
      by_cases hn : v.name = ""
      · simp only [if_pos hn]
        exact matches_throw
      · simp only [if_neg hn]
        have hnode := matches_node (t := .sym v) h (by simp [Term.args])
        rw [node_of_formed (by rfl)] at hnode
        unfold Matches at hnode ⊢
        rw [Run.exec_bind]
        generalize (Run.node (.sym v)).exec enc = p at hnode ⊢
        generalize hq : (Pure.pure (.sym v) : Encode Term).run enc.symbols = q at hnode
        cases hnode with
        | refused => cases hq
        | @ok a enc' hs hm hmem =>
          have ha : .sym v = a := Except.ok.inj (congrArg Prod.fst hq)
          have hsymbols : enc.symbols = enc'.symbols := congrArg Prod.snd hq
          rw [hsymbols, ha]
          subst ha
          exact .ok (hs.withSymbol hmem) hm hmem

/-! ## terms of expressions -/

theorem matches_negation (h : enc.Sound) (ht : t ∈ enc.pool.nodes) :
    Matches (t.negationWith Run.node) (t.negationWith Encode.node) enc fun a nodes => a ∈ nodes := by
  cases t with
  | not u => exact Matches.pure h (h.args _ ht u (by simp [Term.args]))
  | sym | lit | bin | ite => exact matches_node h (by simpa [Term.args] using ht)

section

variable (h : enc.Sound) (hl : l ∈ enc.pool.nodes) (hr : r ∈ enc.pool.nodes)

include h hl hr

theorem matches_binary (op : Op) :
    Matches (Run.builder.binary op l r) (Encode.builder.binary op l r) enc fun a nodes => a ∈ nodes :=
  matches_node h (by simp [Term.args, hl, hr])

theorem matches_floorDiv :
    Matches (Run.builder.floorDiv l r) (Encode.builder.floorDiv l r) enc fun a nodes => a ∈ nodes := by
  unfold Builder.floorDiv
  refine (matches_node h (by simp [Term.int, Term.args])).bind fun zero e₁ h₁ m₁ hzero => ?_
  refine (matches_binary h₁ hzero (m₁ r hr) _).bind fun positive e₂ h₂ m₂ hpositive => ?_
  have hzero₂ := m₂ zero hzero
  have hl₂ := m₂ l (m₁ l hl)
  have hr₂ := m₂ r (m₁ r hr)
  refine (matches_binary h₂ hl₂ hr₂ _).bind fun quotient e₃ h₃ m₃ hquotient => ?_
  refine (matches_binary h₃ (m₃ zero hzero₂) (m₃ l hl₂) _).bind fun l' e₄ h₄ m₄ hl' => ?_
  refine (matches_binary h₄ (m₄ zero (m₃ zero hzero₂)) (m₄ r (m₃ r hr₂)) _).bind fun r' e₅ h₅ m₅ hr' => ?_
  refine (matches_binary h₅ (m₅ l' hl') hr' _).bind fun turned e₆ h₆ m₆ hturned => ?_
  have hpositive₆ := m₆ _ (m₅ _ (m₄ _ (m₃ _ hpositive)))
  have hquotient₆ := m₆ _ (m₅ _ (m₄ _ hquotient))
  exact matches_node h₆ (by simp [Term.args, hpositive₆, hquotient₆, hturned])

theorem matches_floorMod :
    Matches (Run.builder.floorMod l r) (Encode.builder.floorMod l r) enc fun a nodes => a ∈ nodes := by
  unfold Builder.floorMod
  refine (matches_floorDiv h hl hr).bind fun q e₁ h₁ m₁ hq => ?_
  refine (matches_binary h₁ (m₁ r hr) hq _).bind fun p e₂ h₂ m₂ hp => ?_
  exact matches_binary h₂ (m₂ l (m₁ l hl)) hp _

theorem matches_equality :
    Matches (Run.builder.equality l r) (Encode.builder.equality l r) enc fun a nodes => a ∈ nodes := by
  unfold Builder.equality
  exact (matches_sortOf h hl).bind fun s e₁ h₁ m₁ _ => matches_binary h₁ (m₁ l hl) (m₁ r hr) _

theorem matches_binOp (op : BinOp) :
    Matches (op.build Run.builder l r) (op.build Encode.builder l r) enc fun a nodes => a ∈ nodes := by
  cases op with
  | add | sub | mul | lt | le | and | or | imp => exact matches_binary h hl hr _
  | gt | ge => exact matches_binary h hr hl _
  | div => exact matches_floorDiv h hl hr
  | mod => exact matches_floorMod h hl hr
  | eq => exact matches_equality h hl hr
  | ne => exact (matches_equality h hl hr).bind fun t e₁ h₁ _ ht => matches_negation h₁ ht

end

theorem matches_build (e : Expr) (h : enc.Sound) :
    Matches (e.build Run.builder) (e.build Encode.builder) enc fun a nodes => a ∈ nodes := by
  induction e generalizing enc with
  | lit v => exact matches_node h (by simp [Term.args])
  | var v => exact matches_symbol h v
  | un op e ih =>
    cases op with
    | not => exact (ih h).bind fun t e₁ h₁ _ ht => matches_negation h₁ ht
    | neg =>
      refine (matches_node h (by simp [Term.int, Term.args])).bind fun zero e₁ h₁ _ hzero => ?_
      exact (ih h₁).bind fun t e₂ h₂ m₂ ht => matches_binary h₂ (m₂ zero hzero) ht _
  | bin op l r ihl ihr =>
    refine (ihl h).bind fun tl e₁ h₁ _ hl => ?_
    exact (ihr h₁).bind fun tr e₂ h₂ m₂ hr => matches_binOp h₂ (m₂ tl hl) hr op

end

/-- An encoder that has refused nothing gives the term, or fails for the reason, that the expression
has over its symbols. -/
theorem Sound.encode_cases {enc : Encoder} (h : enc.Sound) (e : Expr) :
    (∃ t enc', enc.encode e = (.ok t, enc') ∧ (e.build Encode.builder).run enc.symbols = (.ok t, enc'.symbols) ∧
      enc'.Sound) ∨
    (∃ stop enc', enc.encode e = (.error (stop.failure e), enc') ∧
      (e.build Encode.builder).run enc.symbols = (.error stop, enc'.symbols)) := by
  have hb := matches_build e h
  unfold Matches Run.exec at hb
  unfold Encoder.encode
  generalize Id.run (StateT.run (ExceptT.run (e.build Run.builder)) enc) = p at hb ⊢
  generalize (e.build Encode.builder).run enc.symbols = q at hb ⊢
  cases hb with
  | ok hs _ _ => exact .inl ⟨_, _, rfl, rfl, hs⟩
  | refused => exact .inr ⟨_, _, rfl, rfl⟩

end Encoder

end ContractVerifier
