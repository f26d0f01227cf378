import ContractVerifier.Proofs.Expr.Meaning

/-!
# Substitution is simultaneous

All replacements take place at once: what is put in is not visited again, whether or not it has
variables that are replaced themselves.

* `vars_substitute` : the occurrences of variables after a substitution, in order;
* `firsts` : the first variable of each name, which is what `freeVars` lists; `freeVars_substitute`
  says what it lists after a substitution;
* `compose` : one substitution for two in a row;
* `substitute_simultaneous` : to substitute is to update the assignment, the free variables are
  those that were not replaced and those that came in, and two substitutions are one.
-/

namespace ContractVerifier

namespace Expr

variable {m : Keyed String Expr} {e : Expr} {seen : Keyed String Var} {vs : List Var} {x : String}

/-! ## occurrences -/

/-- An occurrence stays, or the occurrences in what is put in stand in its place. -/
theorem vars_substitute (m : Keyed String Expr) (e : Expr) :
    (e.substitute m).vars = e.vars.flatMap fun v => (m.get? v.name).elim [v] vars := by
  induction e with
  | lit v => rfl
  | var v =>
    rw [vars, List.flatMap_singleton]
    cases h : m.get? v.name with
    | none => rw [substitute_var_none h]; rfl
    | some t => rw [substitute_var_some h]; rfl
  | bin op l r ihl ihr => simp only [substitute, vars, ihl, ihr, List.flatMap_append]
  | un op e ih => exact ih

/-! ## the first variable of each name -/

/-- The variables whose names are not there yet are added. -/
def addNew (seen : Keyed String Var) (vs : List Var) : Keyed String Var :=
  vs.foldl (fun t v => t.putNew v.name v) seen

/-- Of the variables with one name the first, in order. -/
def firsts (vs : List Var) : Keyed String Var := addNew .empty vs

theorem addNew_append (seen : Keyed String Var) (vs ws : List Var) :
    addNew seen (vs ++ ws) = addNew (addNew seen vs) ws := List.foldl_append

theorem mem_keys_addNew : x ∈ (addNew seen vs).keys ↔ x ∈ seen.keys ∨ x ∈ vs.map (·.name) := by
  induction vs generalizing seen with
  | nil => simp [addNew]
  | cons v vs ih =>
    show x ∈ (addNew (seen.putNew v.name v) vs).keys ↔ _
    rw [ih, Keyed.mem_keys_putNew, List.map_cons, List.mem_cons, or_assoc]

theorem addNew_of_mem (h : ∀ v ∈ vs, v.name ∈ seen.keys) : addNew seen vs = seen := by
  induction vs with
  | nil => rfl
  | cons v vs ih =>
    obtain ⟨hv, hvs⟩ := List.forall_mem_cons.1 h
    show addNew (seen.putNew v.name v) vs = seen
    rw [Keyed.putNew_of_mem v hv, ih hvs]

theorem firsts_append_singleton (vs : List Var) (v : Var) :
    firsts (vs ++ [v]) = (firsts vs).putNew v.name v :=
  addNew_append .empty vs [v]

/-- Later variables of a name add nothing, if what they are expanded to has no other names than for
the first. -/
theorem addNew_flatMap (seen : Keyed String Var) (vs : List Var) {f : Var → List Var}
    (hf : ∀ v w, v.name = w.name → (f v).map (·.name) = (f w).map (·.name)) :
    addNew seen (vs.flatMap f) = addNew seen ((firsts vs).values.flatMap f) := by
  induction vs using List.reverseRecOn with
  | nil => rfl
  | append_singleton vs v ih =>
    rw [List.flatMap_append, List.flatMap_singleton, addNew_append, firsts_append_singleton]
    by_cases hv : v.name ∈ (firsts vs).keys
    · rw [Keyed.putNew_of_mem v hv, ← ih]
      obtain hv | hv := mem_keys_addNew.1 hv
      · cases hv
      obtain ⟨w, hw, hname⟩ := List.mem_map.1 hv
      refine addNew_of_mem fun u hu => mem_keys_addNew.2 (.inr ?_)
      have huw : u.name ∈ (f w).map (·.name) := hf w v hname ▸ List.mem_map_of_mem hu
      obtain ⟨u', hu', hname'⟩ := List.mem_map.1 huw
      exact List.mem_map.2 ⟨u', List.mem_flatMap.2 ⟨w, hw, hu'⟩, hname'⟩
    · have hvalues : ((firsts vs).putNew v.name v).values = (firsts vs).values ++ [v] := by
        rw [Keyed.putNew_of_notMem v hv]
        simp [Keyed.values]
      rw [hvalues, List.flatMap_append, List.flatMap_singleton, addNew_append, ih]

theorem addNew_firsts (seen : Keyed String Var) (vs : List Var) : addNew seen (firsts vs).values = addNew seen vs := by
  have hone : ∀ v w : Var, v.name = w.name → [v].map (·.name) = [w].map (·.name) :=
    fun v w hvw => by simp [hvw]
  simpa using (addNew_flatMap seen vs hone).symm

theorem addNew_flatMap_firsts (seen : Keyed String Var) (vs : List Var) (f : Var → List Var) :
    addNew seen (vs.flatMap fun v => (firsts (f v)).values) = addNew seen (vs.flatMap f) := by
  induction vs generalizing seen with
  | nil => rfl
  | cons v vs ih => rw [List.flatMap_cons, List.flatMap_cons, addNew_append, addNew_append, addNew_firsts, ih]

/-! ## free variables -/

theorem collectVars_eq (seen : Keyed String Var) (e : Expr) : e.collectVars seen = addNew seen e.vars := by
  induction e generalizing seen with
  | lit v => rfl
  | var v => rfl
  | bin op l r ihl ihr => rw [collectVars, ihl, ihr, vars, addNew_append]
  | un op e ih => exact ih seen

theorem freeVars_eq (e : Expr) : e.freeVars = firsts e.vars := collectVars_eq .empty e

theorem mem_keys_freeVars : x ∈ e.freeVars.keys ↔ ∃ v ∈ e.vars, v.name = x := by
  rw [freeVars_eq, firsts, mem_keys_addNew, List.mem_map]
  simp [Keyed.keys, Keyed.empty]

/-- Each free variable gives way to the free variables of what is put in for it. -/
theorem freeVars_substitute (m : Keyed String Expr) (e : Expr) :
    (e.substitute m).freeVars =
      firsts (e.freeVars.values.flatMap fun v => (m.get? v.name).elim [v] fun t => t.freeVars.values) := by
  have hput : (fun v : Var => (m.get? v.name).elim [v] fun t => t.freeVars.values) =
      fun v => (firsts ((m.get? v.name).elim [v] vars)).values := by
    funext v
    cases m.get? v.name with
    | none => rfl
    | some t => exact congrArg Keyed.values (freeVars_eq t)
  have hname : ∀ v w : Var, v.name = w.name →
      ((m.get? v.name).elim [v] vars).map (·.name) = ((m.get? w.name).elim [w] vars).map (·.name) := by
    intro v w hvw
    rw [hvw]
    cases m.get? w.name with
    | none => exact congrArg (fun n => [n]) hvw
    | some t => rfl
  rw [hput, freeVars_eq, freeVars_eq, vars_substitute]
  exact (addNew_flatMap .empty e.vars hname).trans (addNew_flatMap_firsts ..).symm

/-- A name is free after a substitution if it was and is no key, or it is free in what was put
in. -/
theorem mem_keys_freeVars_substitute : x ∈ (e.substitute m).freeVars.keys ↔
    (x ∈ e.freeVars.keys ∧ x ∉ m.keys) ∨ ∃ y t, y ∈ e.freeVars.keys ∧ m.get? y = some t ∧ x ∈ t.freeVars.keys := by
  simp only [mem_keys_freeVars, vars_substitute, List.mem_flatMap]
  constructor
  · rintro ⟨w, ⟨v, hv, hw⟩, rfl⟩
    cases hm : m.get? v.name with
    | none =>
      rw [hm] at hw
      obtain rfl : w = v := List.mem_singleton.1 hw
      exact .inl ⟨⟨w, hv, rfl⟩, (Keyed.get?_eq_none_iff ..).1 hm⟩
    | some t =>
      rw [hm] at hw
      exact .inr ⟨v.name, t, ⟨v, hv, rfl⟩, hm, w, hw, rfl⟩
  · rintro (⟨⟨v, hv, rfl⟩, hx⟩ | ⟨-, t, ⟨v, hv, rfl⟩, hm, w, hw, rfl⟩)
    · refine ⟨v, ⟨v, hv, ?_⟩, rfl⟩
      rw [(Keyed.get?_eq_none_iff ..).2 hx]
      exact List.mem_singleton_self v
    · refine ⟨w, ⟨v, hv, ?_⟩, rfl⟩
      rw [hm]
      exact hw

/-! ## one substitution after the other -/

/-- What `m₁` puts in goes through `m₂`, and so does what `m₁` leaves. -/
def compose (m₁ m₂ : Keyed String Expr) : Keyed String Expr :=
  ⟨m₁.entries.map (fun e => (e.1, e.2.substitute m₂)) ++ m₂.entries.filter fun e => !m₁.contains e.1⟩

theorem get?_compose (m₁ m₂ : Keyed String Expr) (x : String) :
    (compose m₁ m₂).get? x = ((m₁.get? x).map (·.substitute m₂)).or (m₂.get? x) := by
  unfold compose
  rw [Keyed.get?_append, Keyed.get?_map (fun _ => substitute m₂) m₁ x,
    Keyed.get?_filter fun y => !m₁.contains y]
  unfold Keyed.contains
  cases m₁.get? x with
  | none => rfl
  | some t => rfl

theorem substitute_empty (e : Expr) : e.substitute .empty = e := substitute_eq_self fun _ _ => rfl

theorem substitute_substitute (m₁ m₂ : Keyed String Expr) (e : Expr) :
    (e.substitute m₁).substitute m₂ = e.substitute (compose m₁ m₂) := by
  rw [← substitute_empty (e.substitute (compose m₁ m₂))]
  refine substitute_substitute_congr fun v _ => ?_
  have h := get?_compose m₁ m₂ v.name
  rw [substitute_empty]
  cases h₁ : m₁.get? v.name with
  | none =>
    rw [h₁, Option.map_none, Option.none_or] at h
    rw [substitute_var_none h₁, substitute, substitute, h]
  | some t =>
    rw [h₁, Option.map_some, Option.some_or] at h
    rw [substitute_var_some h₁, substitute_var_some h]

/-- The value of an expression after a substitution is its value after the keys have taken the
values of what they stand for, for any meaning of the operators.  Its free names are those that are
no keys and those of what was put in for a free name; of the variables with one name the first
counts.  Two substitutions are one. -/
theorem substitute_simultaneous (e : Expr) (m : Keyed String Expr) :
    (∀ M a, (e.substitute m).eval M a = e.eval M (update M m a)) ∧
    (∀ x, x ∈ (e.substitute m).freeVars.keys ↔
      (x ∈ e.freeVars.keys ∧ x ∉ m.keys) ∨ ∃ y t, y ∈ e.freeVars.keys ∧ m.get? y = some t ∧ x ∈ t.freeVars.keys) ∧
    (e.substitute m).freeVars =
      firsts (e.freeVars.values.flatMap fun v => (m.get? v.name).elim [v] fun t => t.freeVars.values) ∧
    ∀ m', (e.substitute m).substitute m' = e.substitute (compose m m') :=
  ⟨fun M a => eval_substitute M m a e, fun _ => mem_keys_freeVars_substitute, freeVars_substitute m e,
    fun m' => substitute_substitute m m' e⟩

-- each name is put in for the other, and neither is replaced again
example : (bin .sub (var ⟨"x", .int⟩) (var ⟨"y", .int⟩)).substitute
      ⟨[("x", var ⟨"y", .int⟩), ("y", bin .add (var ⟨"x", .int⟩) (var ⟨"y", .int⟩))]⟩ =
    bin .sub (var ⟨"y", .int⟩) (bin .add (var ⟨"x", .int⟩) (var ⟨"y", .int⟩)) := by decide

end Expr

end ContractVerifier
