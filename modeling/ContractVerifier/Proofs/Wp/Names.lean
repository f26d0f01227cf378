import ContractVerifier.Proofs.Keyed
import ContractVerifier.Wp.Fresh
import Mathlib.Data.List.Basic

/-!
# Fresh names are fresh

`nameOf` is injective, since what stands behind the last `#` is a number.  So a name that the
counters give next was never given before (`not_given_next`), and it is not plain: it is no name of
a source, nor `x#0`.
-/

namespace ContractVerifier.Fresh

/-- A name that is never given: it has no number, or the number zero. -/
def Plain (x : String) : Prop := ∀ y k, x = nameOf y k → k = 0

/-- A name given on the way to `c`. -/
def Given (c : Counters) (x : String) : Prop :=
  ∃ y k, x = nameOf y k ∧ 0 < k ∧ k ≤ (c.get? y).getD 0

/-! ## names with numbers -/

theorem toList_nameOf (x : String) (k : Nat) :
    (nameOf x k).toList = x.toList ++ '#' :: Nat.toDigits 10 k := by
  simp [nameOf]

theorem hash_notMem_digits (k : Nat) : '#' ∉ Nat.toDigits 10 k := by
  intro h
  have := Nat.isDigit_of_mem_toDigits (by decide) (by decide) h
  exact absurd this (by decide)

theorem append_hash_inj {l₁ l₂ r₁ r₂ : List Char} (h₁ : '#' ∉ l₁) (h₂ : '#' ∉ l₂)
    (h : l₁ ++ '#' :: r₁ = l₂ ++ '#' :: r₂) : l₁ = l₂ ∧ r₁ = r₂ := by
  induction l₁ generalizing l₂ with
  | nil =>
    cases l₂ with
    | nil => simpa using h
    | cons b l₂ =>
      simp only [List.nil_append, List.cons_append, List.cons.injEq] at h
      exact absurd (List.mem_cons.2 (.inl h.1)) h₂
  | cons a l₁ ih =>
    cases l₂ with
    | nil =>
      simp only [List.nil_append, List.cons_append, List.cons.injEq] at h
      exact absurd (List.mem_cons.2 (.inl h.1.symm)) h₁
    | cons b l₂ =>
      simp only [List.cons_append, List.cons.injEq] at h
      simp only [List.mem_cons, not_or] at h₁ h₂
      obtain ⟨hl, hr⟩ := ih h₁.2 h₂.2 h.2
      exact ⟨by rw [h.1, hl], hr⟩

theorem nameOf_inj {x y : String} {k j : Nat} (h : nameOf x k = nameOf y j) : x = y ∧ k = j := by
  have h1 : x.toList ++ '#' :: Nat.toDigits 10 k = y.toList ++ '#' :: Nat.toDigits 10 j := by
    rw [← toList_nameOf, ← toList_nameOf, h]
  -- read from the right, the first `#` stands in front of the number
  have h2 := congrArg List.reverse h1
  simp only [List.reverse_append, List.reverse_cons, List.append_assoc, List.cons_append,
    List.nil_append] at h2
  have hk : '#' ∉ (Nat.toDigits 10 k).reverse := by simpa using hash_notMem_digits k
  have hj : '#' ∉ (Nat.toDigits 10 j).reverse := by simpa using hash_notMem_digits j
  obtain ⟨hd, hx⟩ := append_hash_inj hk hj h2
  refine ⟨String.toList_inj.1 (by simpa using hx), ?_⟩
  have hd' := congrArg (Nat.ofDigitChars 10 · 0) (List.reverse_injective hd)
  simpa only [Nat.ofDigitChars_ten_toDigits] using hd'

theorem plain_of_notMem {x : String} (h : '#' ∉ x.toList) : Plain x := by
  rintro y k rfl
  exact absurd (by rw [toList_nameOf]; simp) h

theorem plain_nameOf_zero (x : String) : Plain (nameOf x 0) := fun _ _ h => (nameOf_inj h).2.symm

theorem not_plain_of_given {c : Counters} {x : String} (h : Given c x) : ¬ Plain x := by
  obtain ⟨y, k, rfl, hk, -⟩ := h
  intro hp
  have := hp y k rfl
  omega

/-! ## one name after the other -/

/-- The counters only grow. -/
def Grow (c d : Counters) : Prop := ∀ y, (c.get? y).getD 0 ≤ (d.get? y).getD 0

theorem Grow.refl (c : Counters) : Grow c c := fun _ => Nat.le_refl _

theorem Grow.trans {c d e : Counters} (h : Grow c d) (h' : Grow d e) : Grow c e :=
  fun y => Nat.le_trans (h y) (h' y)

theorem Given.mono {c d : Counters} {x : String} (h : Given c x) (hg : Grow c d) : Given d x := by
  obtain ⟨y, k, hx, hk, hc⟩ := h
  exact ⟨y, k, hx, hk, Nat.le_trans hc (hg y)⟩

theorem grow_next (c : Counters) (x : String) : Grow c (next c x).2 := by
  intro y
  simp only [next, Keyed.get?_put]
  by_cases h : x = y
  · subst h; simp
  · simp [h]

theorem given_next (c : Counters) (x : String) : Given (next c x).2 (next c x).1 := by
  refine ⟨x, (c.get? x).getD 0 + 1, rfl, by omega, ?_⟩
  simp [next, Keyed.get?_put]

theorem not_given_next (c : Counters) (x : String) : ¬ Given c (next c x).1 := by
  rintro ⟨y, k, h, -, hk⟩
  obtain ⟨rfl, rfl⟩ := nameOf_inj h
  omega

/-! ## several names -/

/-- What is known of the variables `ws` that are given for `vs` on the way from `c` to `d`. -/
structure Batch (c d : Counters) (vs ws : List Var) : Prop where
  grow : Grow c d
  types : ws.map (·.type) = vs.map (·.type)
  given : ∀ w ∈ ws, Given d w.name
  fresh : ∀ w ∈ ws, ¬ Given c w.name
  nodup : (ws.map (·.name)).Nodup

theorem batch_vars (c : Counters) (vs : List Var) : Batch c (vars c vs).2 vs (vars c vs).1 := by
  induction vs generalizing c with
  | nil => exact ⟨Grow.refl c, rfl, by simp [vars], by simp [vars], by simp [vars]⟩
  | cons v vs ih =>
    have h := ih (var c v).2
    have hg : Grow c (var c v).2 := grow_next c v.name
    have hfirst : Given (var c v).2 (var c v).1.name := given_next c v.name
    simp only [vars]
    refine ⟨hg.trans h.grow, by rw [List.map_cons, List.map_cons, h.types]; rfl, ?_, ?_, ?_⟩
    · intro w hw
      rcases List.mem_cons.1 hw with rfl | hw
      · exact hfirst.mono h.grow
      · exact h.given w hw
    · intro w hw
      rcases List.mem_cons.1 hw with rfl | hw
      · exact not_given_next c v.name
      · exact fun hc => h.fresh w hw (hc.mono hg)
    · rw [List.map_cons, List.nodup_cons]
      refine ⟨fun hm => ?_, h.nodup⟩
      obtain ⟨w, hw, hn⟩ := List.mem_map.1 hm
      exact h.fresh w hw (hn ▸ hfirst)

end ContractVerifier.Fresh
