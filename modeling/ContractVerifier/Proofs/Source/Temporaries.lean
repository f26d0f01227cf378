import ContractVerifier.Proofs.Source.Names

/-!
# Temporaries

All passes take their temporaries from one counter, so that no two are the same
(`runPasses_introduces`).  In the normal form of a function that the checker accepts they are new,
as long as none of those taken is a name of the function (`preprocess_temporaries`).
-/

namespace ContractVerifier.Source

open Hoist

/-! ## passes -/

/-- What a pass does to the names of a body. -/
def Introduces (body : List Stmt) (c : Nat) (body' : List Stmt) (c' : Nat) : Prop :=
  ∃ k, c' = c + k ∧ Stmt.namesL body' = Stmt.namesL body + .ofList (temporaries c k)

theorem Introduces.trans {ss ts us : List Stmt} {a b c : Nat} (h : Introduces ss a ts b)
    (h' : Introduces ts b us c) :
    Introduces ss a us c := by
  obtain ⟨j, rfl, hj⟩ := h
  obtain ⟨k, rfl, hk⟩ := h'
  refine ⟨j + k, by omega, ?_⟩
  rw [hk, hj, temporaries_add, Names.ofList_append, add_assoc]

/-- A pass puts what was moved out of a statement in front of it, so that nothing waits behind the
last one. -/
theorem pending_eq_nil (one : Stmt → HoistM (List Stmt)) {pass : List Stmt → HoistM (List Stmt)}
    (hnil : pass [] = pure [])
    (hcons : ∀ s ss, pass (s :: ss) = do
      let s ← one s
      let before ← takeAll
      let ss ← pass ss
      return before ++ s ++ ss) (ss : List Stmt) (c : Nat) : (pass ss ⟨c, []⟩).2.pending = [] := by
  induction ss generalizing c with
  | nil => rw [hnil, run_pure]
  | cons s ss ih =>
    rw [hcons]
    exact ih _

theorem hoisted_introduces {pass : List Stmt → HoistM (List Stmt)} {c : Nat} {body : List Stmt}
    (h : Keeps (pass body) Stmt.namesL (Stmt.namesL body))
    (hp : (pass body ⟨c, []⟩).2.pending = []) :
    Introduces body c (hoisted pass c body).1 (hoisted pass c body).2 := by
  obtain ⟨k, hk, hn⟩ := h ⟨c, []⟩
  rw [hp, Stmt.namesL, zero_add, zero_add] at hn
  exact ⟨k, hk, hn⟩

theorem Pass.run_introduces {p : Pass} {c c' : Nat} {body body' : List Stmt}
    (h : p.run c body = .ok (body', c')) :
    Introduces body c body' c' := by
  cases p with
  | augments =>
    obtain ⟨ss, hss, h⟩ := exists_of_bind_ok h
    cases h
    exact ⟨0, rfl, (names_expandAugmentsL body hss).trans (add_zero _).symm⟩
  | conditionals =>
    cases h
    refine hoisted_introduces (keeps_liftIf_stmts body)
      (pending_eq_nil Stmt.liftIf ?_ (fun s ss => ?_) body c)
    all_goals simp only [Stmt.liftIfL]
  | calls =>
    cases h
    refine hoisted_introduces (keeps_liftCall_stmts body)
      (pending_eq_nil Stmt.liftCall ?_ (fun s ss => ?_) body c)
    all_goals simp only [Stmt.liftCallL]

/-- The passes share one counter, so that no temporary is taken twice. -/
theorem runPasses_introduces {ps : List Pass} {c c' : Nat} {body body' : List Stmt}
    (h : runPasses ps c body = .ok (body', c')) : Introduces body c body' c' := by
  induction ps generalizing c body with
  | nil =>
    cases h
    exact ⟨0, rfl, (add_zero _).symm⟩
  | cons p ps ih =>
    obtain ⟨⟨body₁, c₁⟩, hrun, h⟩ := exists_of_bind_ok h
    exact (Pass.run_introduces hrun).trans (ih h)

/-! ## functions that the checker accepts -/

theorem exists_expandAugments_of_isNote {s : Stmt} (h : s.isNote) : ∃ s', s.expandAugments = .ok s' := by
  obtain ⟨sp, v, rfl⟩ := Stmt.eq_exp_of_isNote h
  exact ⟨_, rfl⟩

theorem exists_expandAugmentsL_cons {s : Stmt} {ss : List Stmt}
    (hs : ∃ s', s.expandAugments = .ok s') (hss : ∃ ss', Stmt.expandAugmentsL ss = .ok ss') :
    ∃ ss', Stmt.expandAugmentsL (s :: ss) = .ok ss' := by
  obtain ⟨s', hs⟩ := hs
  obtain ⟨ss', hss⟩ := hss
  refine ⟨s' :: ss', ?_⟩
  simp only [Stmt.expandAugmentsL, hs, hss]
  rfl

mutual

theorem exists_expandAugments_of_check {inLoop : Bool} (s : Stmt)
    (h : s.check true inLoop = .ok ()) :
    ∃ s', s.expandAugments = .ok s' := by
  cases s with
  | augment sp t op v =>
    obtain ⟨ht, -⟩ := of_shown_ok h
    cases t with
    | name nsp x => exact ⟨_, rfl⟩
    | _ => exact absurd rfl ht
  | cond sp t body orElse =>
    obtain ⟨⟨⟩, -, h⟩ := exists_of_bind_ok h
    obtain ⟨⟨⟩, hb, ho⟩ := exists_of_bind_ok h
    obtain ⟨body', hbody⟩ := exists_expandAugmentsL_of_checkL body hb
    obtain ⟨orElse', hother⟩ := exists_expandAugmentsL_of_checkL orElse ho
    exact ⟨.cond sp t body' orElse', by simp only [Stmt.expandAugments, hbody, hother]; rfl⟩
  | loop sp t body orElse =>
    obtain ⟨hempty, h⟩ := of_guard_ok h
    obtain ⟨⟨⟩, -, h⟩ := exists_of_bind_ok h
    obtain ⟨⟨⟩, -, hb⟩ := exists_of_bind_ok h
    obtain ⟨body', hbody⟩ := exists_expandAugmentsL_of_checkLoopBody body hb
    obtain rfl : orElse = [] := by simpa using hempty
    exact ⟨.loop sp t body' [], by simp only [Stmt.expandAugments, hbody]; rfl⟩
  | function sp x ps more body ds r => cases body <;> cases h
  | other sp k ps => cases h
  | _ => exact ⟨_, rfl⟩

theorem exists_expandAugmentsL_of_checkL {inLoop : Bool} (ss : List Stmt)
    (h : Stmt.checkL true inLoop ss = .ok ()) :
    ∃ ss', Stmt.expandAugmentsL ss = .ok ss' := by
  cases ss with
  | nil => exact ⟨[], rfl⟩
  | cons s ss =>
    obtain ⟨⟨⟩, hs, hss⟩ := exists_of_bind_ok h
    exact exists_expandAugmentsL_cons (exists_expandAugments_of_check s hs)
      (exists_expandAugmentsL_of_checkL ss hss)

theorem exists_expandAugmentsL_of_checkLoopBody (ss : List Stmt)
    (h : Stmt.checkLoopBody true ss = .ok ()) :
    ∃ ss', Stmt.expandAugmentsL ss = .ok ss' := by
  cases ss with
  | nil => exact ⟨[], rfl⟩
  | cons s ss =>
    rw [Stmt.checkLoopBody] at h
    split at h
    · rename_i hinv
      exact exists_expandAugmentsL_cons (exists_expandAugments_of_isNote (Stmt.isNote_of_isInvariant hinv))
        (exists_expandAugmentsL_of_checkLoopBody ss h)
    · obtain ⟨⟨⟩, hs, hss⟩ := exists_of_bind_ok h
      exact exists_expandAugmentsL_cons (exists_expandAugments_of_check s hs)
        (exists_expandAugmentsL_of_checkL ss hss)

end

/-- The augmented assignments of a function that is accepted have targets that are names. -/
theorem Function.exists_expandAugmentsL {f : Function} (h : f.toStmt.check false false = .ok ()) :
    ∃ ss, Stmt.expandAugmentsL f.body = .ok ss := by
  obtain ⟨sp, x, ps, more, body, ds, r⟩ := f
  cases body with
  | nil => exact ⟨[], rfl⟩
  | cons s ss =>
    simp only [Function.toStmt, Stmt.check] at h
    obtain ⟨-, h⟩ := of_guard_ok h
    obtain ⟨-, h⟩ := of_guard_ok h
    split at h
    · obtain ⟨⟨⟩, hs, hss⟩ := exists_of_bind_ok h
      exact exists_expandAugmentsL_cons (exists_expandAugments_of_check s hs)
        (exists_expandAugmentsL_of_checkL ss hss)
    · have hdoc : s.isDocstring = true := by simp_all
      exact exists_expandAugmentsL_cons (exists_expandAugments_of_isNote (Stmt.isNote_of_isDocstring hdoc))
        (exists_expandAugmentsL_of_checkL ss h)

/-- **Temporaries.**  A function that the checker accepts has a normal form.  The names that it has
besides those of the function are distinct temporaries; if none of these is a name of the function,
they are new, and each of them is used once. -/
theorem preprocess_temporaries {f : Function} (hc : f.toStmt.check false false = .ok ()) :
    ∃ f' k, f.preprocess = .ok f' ∧ f'.toStmt.names = f.toStmt.names + .ofList (temporaries 0 k) ∧
      (temporaries 0 k).Nodup ∧
      ((∀ j < k, temporary j ∉ f.toStmt.names.all) → ∀ x ∈ temporaries 0 k,
        x ∉ f.toStmt.names.all ∧ f'.toStmt.names.uses.count x = 1) := by
  obtain ⟨ss, hss⟩ := Function.exists_expandAugmentsL hc
  obtain ⟨body, c, hrun⟩ : ∃ body c, runPasses [.augments, .conditionals, .calls] 0 f.body = .ok (body, c) := by
    simp only [runPasses, Pass.run, hss]
    exact ⟨_, _, rfl⟩
  obtain ⟨k, -, hbody⟩ := runPasses_introduces hrun
  have hnames : ({ f with body := body } : Function).toStmt.names = f.toStmt.names + .ofList (temporaries 0 k) := by
    simp only [Function.toStmt, Stmt.names, hbody]
    abel
  refine ⟨{ f with body := body }, k, ?_, hnames, nodup_temporaries 0 k, fun hnew x hx => ?_⟩
  · simp only [Function.preprocess, Function.runPasses, hrun]
    rfl
  · obtain ⟨j, hj, rfl⟩ := mem_temporaries hx
    have habsent := hnew j (by omega)
    rw [hnames]
    exact ⟨habsent, Names.count_uses_add_ofList (nodup_temporaries 0 k) hx habsent⟩

/-! ## a conditional expression and a call -/

namespace Either

def a : Exp := .name ⟨2, 2⟩ "a"

def b : Exp := .name ⟨2, 2⟩ "b"

def half (e : Exp) : Exp := .call ⟨2, 2⟩ (.name ⟨2, 2⟩ "half") [e] []

def function (body : List Stmt) : Function :=
  ⟨⟨1, 2⟩, "either", [.mk ⟨1, 1⟩ "a" none, .mk ⟨1, 1⟩ "b" none], [], body, [], none⟩

/-- `return half(half(a) if b else a)` -/
def body : List Stmt := [.ret ⟨2, 2⟩ (some (half (.ifElse ⟨2, 2⟩ b (half a) a)))]

def set (i : Nat) (e : Exp) : Stmt := assignTo (temporary i) ⟨2, 2⟩ e

/-- `if b: t0 = half(a)`, `else: t0 = a`, and then `t1 = half(t0)` and `return t1`. -/
def normal : List Stmt :=
  [.cond ⟨2, 2⟩ b [set 0 (half a)] [set 0 a], set 1 (half (.name ⟨2, 2⟩ (temporary 0))),
   .ret ⟨2, 2⟩ (some (.name ⟨2, 2⟩ (temporary 1)))]

end Either

/-- Both passes take a temporary. -/
theorem either_temporaries : (Either.function Either.body).preprocess = .ok (Either.function Either.normal) ∧
    (Either.function Either.normal).toStmt.names =
      (Either.function Either.body).toStmt.names + .ofList [temporary 0, temporary 1] ∧
    ∀ x ∈ [temporary 0, temporary 1],
      x ∉ (Either.function Either.body).toStmt.names.all ∧ (Either.function Either.normal).toStmt.names.uses.count x = 1 := by
  have hcheck : (Either.function Either.body).toStmt.check false false = .ok () := rfl
  have hpre : (Either.function Either.body).preprocess = .ok (Either.function Either.normal) := rfl
  obtain ⟨f', k, hpre', hnames, -, hnew⟩ := preprocess_temporaries hcheck
  cases hpre.symm.trans hpre'
  have hplain : ∀ x ∈ (Either.function Either.body).toStmt.names.all, ¬ IsTemporary x := by
    decide +kernel
  have hcard := congrArg (fun n : Names => Multiset.card n.uses) hnames
  have hk : k = 2 := by
    have hold : Multiset.card (Either.function Either.body).toStmt.names.uses = 5 := by
      decide +kernel
    have hall : Multiset.card (Either.function Either.normal).toStmt.names.uses = 7 := by
      decide +kernel
    simp only [Names.uses_add, Multiset.card_add, hold, hall, Names.ofList, Multiset.coe_card,
      temporaries, List.length_map, List.length_range'] at hcard
    omega
  subst hk
  exact ⟨hpre, hnames, hnew fun j _ hj => mem_old_of_not_isTemporary (hplain _ hj) 0 j (Nat.zero_le j) rfl⟩

/-! ## a parameter that is named like a temporary -/

namespace Clash

def first : Exp := .name ⟨2, 2⟩ (temporary 0)

def call : Exp := .call ⟨2, 2⟩ (.name ⟨2, 2⟩ "g") [.constant ⟨2, 2⟩ (.int 1)] []

def function (body : List Stmt) : Function :=
  ⟨⟨1, 2⟩, "clash", [.mk ⟨1, 1⟩ (temporary 0) none], [], body, [], none⟩

/-- `return g(1) + t0`, where `t0` is the parameter. -/
def body : List Stmt := [.ret ⟨2, 2⟩ (some (.binary ⟨2, 2⟩ call .add first))]

end Clash

/-- The parameter is assigned to, and then added to itself. -/
theorem clash_overwrites : (Clash.function Clash.body).toStmt.check false false = .ok () ∧
    temporary 0 ∈ (Clash.function Clash.body).toStmt.names.all ∧
    (Clash.function Clash.body).preprocess = .ok (Clash.function
      [assignTo (temporary 0) ⟨2, 2⟩ Clash.call, .ret ⟨2, 2⟩ (some (.binary ⟨2, 2⟩ Clash.first .add Clash.first))]) :=
  ⟨rfl, by decide +kernel, rfl⟩

end ContractVerifier.Source
