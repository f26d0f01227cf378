import ContractVerifier.Proofs.Expr.RoundTrip

/-!
# Literals that can be written

All that is built from expressions that can be written can be written, and so can what is read: a
literal of a text has no more digits than the text.
-/

namespace ContractVerifier

theorem Text.isShort_of_length {n : Int} (h : (Nat.toDigits 10 n.natAbs).length ≤ maxDigits) : isShort n = true := by
  -- for any bound, so that the power stays a power
  have hlt : ∀ k, 0 < k → (Nat.toDigits 10 n.natAbs).length ≤ k → n.natAbs < Nat.pow 10 k :=
    fun k hk hlen => (Nat.length_toDigits_le_iff (by decide) hk).1 hlen
  exact decide_eq_true (hlt maxDigits (by decide) h)

theorem Text.isShort_neg (n : Int) : isShort (-n) = isShort n := by
  unfold isShort
  rw [Int.natAbs_neg]

namespace Expr

variable {e t : Expr} {m : Keyed String Expr}

theorem isWritable_bin {op : BinOp} {l r : Expr} (hl : l.isWritable = true)
    (hr : r.isWritable = true) :
    (bin op l r).isWritable = true := Bool.and_eq_true_iff.2 ⟨hl, hr⟩

theorem isWritable_implies {p q : Expr} (hp : p.isWritable = true) (hq : q.isWritable = true) :
    (p.implies q).isWritable = true := isWritable_bin hp hq

theorem isWritable_negate (h : e.isWritable = true) : e.negate.isWritable = true := h

theorem isWritable_conjoin {es : List Expr} (h : ∀ e ∈ es, e.isWritable = true) : (conjoin es).isWritable = true := by
  cases es with
  | nil => rfl
  | cons e es =>
    obtain ⟨he, hes⟩ := List.forall_mem_cons.1 h
    clear h
    unfold conjoin
    induction es generalizing e with
    | nil => exact he
    | cons e' es ih =>
      obtain ⟨he', hes⟩ := List.forall_mem_cons.1 hes
      exact ih _ (isWritable_bin he he') hes

theorem isWritable_substitute (he : e.isWritable = true)
    (hm : ∀ x t, m.get? x = some t → t.isWritable = true) :
    (e.substitute m).isWritable = true := by
  induction e with
  | lit v => exact he
  | var v =>
    unfold substitute
    cases hget : m.get? v.name with
    | none => rfl
    | some t => exact hm v.name t hget
  | bin op l r ihl ihr =>
    obtain ⟨hl, hr⟩ := Bool.and_eq_true_iff.1 he
    exact isWritable_bin (ihl hl) (ihr hr)
  | un op e ih => exact ih he

theorem isWritable_subst {x : String} (he : e.isWritable = true) (ht : t.isWritable = true) :
    (e.subst x t).isWritable = true := by
  refine isWritable_substitute he fun y u hu => ?_
  have hmem := Keyed.mem_of_get? hu
  cases List.mem_singleton.1 hmem
  exact ht

theorem isWritable_resolve {t : Table} {a : Expr} (h : e.resolve t = .ok a) : a.isWritable = e.isWritable := by
  induction e generalizing a with
  | lit v =>
    cases h
    rfl
  | var v =>
    obtain ⟨w, -, hw⟩ := exists_of_bind_ok h
    cases hw
    rfl
  | bin op l r ihl ihr =>
    obtain ⟨l', hl, h⟩ := exists_of_bind_ok h
    obtain ⟨r', hr, h⟩ := exists_of_bind_ok h
    cases h
    simp only [isWritable, ihl hl, ihr hr]
  | un op e ih =>
    obtain ⟨e', he, h⟩ := exists_of_bind_ok h
    cases h
    exact (ih he : e'.isWritable = e.isWritable)

theorem Spellable.isWritable (h : e.Spellable) : e.isWritable = true := by
  induction e with
  | lit v =>
    cases v with
    | int n =>
      rw [Expr.isWritable, Value.isWritable]
      exact Text.isShort_of_length h
    | bool b => rfl
  | var v => rfl
  | bin op l r ihl ihr => exact isWritable_bin (ihl h.1) (ihr h.2)
  | un op e ih => exact ih h

/-- What is read can be written. -/
theorem isWritable_of_parse {source : String} (h : parse source = .ok e) : e.isWritable = true :=
  (spellable_of_parse h).isWritable

end Expr

end ContractVerifier
