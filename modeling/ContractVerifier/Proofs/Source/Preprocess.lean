import ContractVerifier.Proofs.Source.Conditional
import ContractVerifier.Proofs.Source.NestedCall

/-!
# The normal form does what the function does

Each pass keeps the meaning of a body of the fragment (`Pass.run_replaces`), and so does any
sequence of passes (`runPasses_replaces`).  For a function that the checker accepts this is told in
terms of its own variables (`preprocess_exact`).
-/

namespace ContractVerifier.Source

/-! ## augmented assignments -/

section

variable {V : Set String}

theorem exec_expandAugment {sp nsp : Span} {x : String} {op : Arith} {v : Exp} (z : Int → Int)
    (I : Callees) (n : Nat) :
    (Stmt.assign sp [.name nsp x] (.binary sp (.name nsp x) op v)).exec z I n =
      (Stmt.augment sp (.name nsp x) op v).exec z I n := by
  funext s
  simp only [Stmt.exec, Effect.store, Exp.eval, Exp.name?, target?, Option.bind_eq_bind,
    Option.bind_some]
  cases v.eval z I s with
  | none => rfl
  | some w => rfl

mutual

theorem exists_expandAugments (s : Stmt) (h : s.Within V) :
    ∃ s', s.expandAugments = .ok s' ∧ s'.Within V ∧ ∀ z I n, s'.exec z I n = s.exec z I n := by
  cases s with
  | augment sp t op v =>
    obtain ⟨⟨x, hx, ht⟩, hop, hv⟩ := h
    cases t with
    | name nsp y =>
      cases ht
      exact ⟨_, rfl, ⟨⟨x, hx, rfl⟩, hop, hx, hv⟩, exec_expandAugment⟩
    | _ => cases ht
  | cond sp t body orElse =>
    obtain ⟨ht, hbody, hother⟩ := h
    obtain ⟨body', hb, hbody', hbe⟩ := exists_expandAugmentsL body hbody
    obtain ⟨orElse', ho, hother', hoe⟩ := exists_expandAugmentsL orElse hother
    refine ⟨.cond sp t body' orElse', ?_, ⟨ht, hbody', hother'⟩, fun z I n => ?_⟩
    · simp only [Stmt.expandAugments, hb, ho]
      rfl
    · simp only [Stmt.exec, hbe, hoe]
  | loop sp t body orElse =>
    obtain ⟨ht, hbody, rfl⟩ := h
    obtain ⟨body', hb, hbody', hbe⟩ := exists_expandAugmentsL body hbody
    refine ⟨.loop sp t body' [], ?_, ⟨ht, hbody', rfl⟩, fun z I n => ?_⟩
    · simp only [Stmt.expandAugments, hb, Stmt.expandAugmentsL]
      rfl
    · simp only [Stmt.exec, hbe]
  | function => exact h.elim
  | other => exact h.elim
  | _ => exact ⟨_, rfl, h, fun _ _ _ => rfl⟩

theorem exists_expandAugmentsL (ss : List Stmt) (h : Stmt.WithinL V ss) :
    ∃ ss', Stmt.expandAugmentsL ss = .ok ss' ∧ Stmt.WithinL V ss' ∧
      ∀ z I n, Stmt.execL z I n ss' = Stmt.execL z I n ss := by
  cases ss with
  | nil => exact ⟨[], rfl, trivial, fun _ _ _ => rfl⟩
  | cons s ss =>
    obtain ⟨s', hs, hs', hse⟩ := exists_expandAugments s h.1
    obtain ⟨ss', hss, hss', hsse⟩ := exists_expandAugmentsL ss h.2
    refine ⟨s' :: ss', ?_, ⟨hs', hss'⟩, fun z I n => ?_⟩
    · simp only [Stmt.expandAugmentsL, hs, hss]
      rfl
    · simp only [Stmt.execL, hse, hsse]

end

end

/-! ## passes -/

theorem hoisted_eq {pass : List Stmt → HoistM (List Stmt)} {c c' : Nat} {body body' : List Stmt}
    (h : pass body ⟨c, []⟩ = (body', ⟨c', []⟩)) : hoisted pass c body = (body', c') := by
  show ((pass body ⟨c, []⟩).1, (pass body ⟨c, []⟩).2.counter) = _
  rw [h]

theorem Pass.run_replaces (p : Pass) {c : Nat} {body : List Stmt} (h : Stmt.WithinL (Old c) body) :
    ∃ body' c', p.run c body = .ok (body', c') ∧ Replaces c c body body' c' := by
  cases p with
  | augments =>
    obtain ⟨body', hrun, hbody', hexec⟩ := exists_expandAugmentsL body h
    refine ⟨body', c, ?_, (replacesL_self le_rfl body' hbody').congr hexec⟩
    simp only [Pass.run, hrun]
    rfl
  | conditionals =>
    obtain ⟨body', c', hrun, hR⟩ := gives_liftIfL le_rfl body h
    exact ⟨body', c', congrArg Except.ok (hoisted_eq hrun), hR⟩
  | calls =>
    obtain ⟨body', c', hrun, hR⟩ := gives_liftCallL le_rfl body h
    exact ⟨body', c', congrArg Except.ok (hoisted_eq hrun), hR⟩

/-- Whatever the second one may use, the first one did not know of. -/
theorem Replaces.trans {c c₁ c₂ : Nat} {ss ts us : List Stmt} (h : Replaces c c ss ts c₁)
    (h' : Replaces c₁ c₁ ts us c₂) :
    Replaces c c ss us c₂ where
  le := h.le.trans h'.le
  within := h'.within
  alike z I n s s' hs := by
    have hend := h'.alike z I n s' s' fun _ _ => rfl
    exact (h.alike z I n s s' hs).trans (hend.mono (old_mono h.le))

theorem runPasses_replaces (ps : List Pass) {c : Nat} {body : List Stmt}
    (h : Stmt.WithinL (Old c) body) :
    ∃ body' c', runPasses ps c body = .ok (body', c') ∧ Replaces c c body body' c' := by
  induction ps generalizing c body with
  | nil => exact ⟨body, c, rfl, replacesL_self le_rfl body h⟩
  | cons p ps ih =>
    obtain ⟨body₁, c₁, hrun, hR⟩ := p.run_replaces h
    obtain ⟨body₂, c₂, hrun', hR'⟩ := ih hR.within
    refine ⟨body₂, c₂, ?_, hR.trans hR'⟩
    simp only [runPasses, hrun]
    exact hrun'

/-! ## what shows of a run -/

/-- The body ends with this value, and with the values of `t` in all names that are not kept for
temporaries. -/
def FinishesWith (z : Int → Int) (I : Callees) (body : List Stmt) (s : Store) (out : Option Value)
    (t : Store) : Prop :=
  ∃ s', Finishes z I body s out s' ∧ Set.EqOn s' t {x | ¬ IsTemporary x}

theorem FinishesWith.of_sameEnd {z : Int → Int} {I : Callees} {body body' : List Stmt} {s t : Store}
    {out : Option Value}
    (h : ∀ n, SameEnd (Old 0) (Stmt.execL z I n body s) (Stmt.execL z I n body' s))
    (hf : FinishesWith z I body s out t) : FinishesWith z I body' s out t := by
  obtain ⟨s₁, ⟨n, sig, hrun, hout⟩, ht⟩ := hf
  have hend := h n
  rw [hrun] at hend
  obtain ⟨s₂, hrun', hs⟩ := hend.exists_some
  have hold : {x | ¬ IsTemporary x} ⊆ Old 0 := fun x hx => mem_old_of_not_isTemporary hx 0
  exact ⟨s₂, ⟨n, sig, hrun', hout⟩, (hs.mono hold).symm.trans ht⟩

theorem Replaces.finishesWith_iff {body body' : List Stmt} {c : Nat} (h : Replaces 0 0 body body' c)
    (z : Int → Int) (I : Callees) (s : Store) (out : Option Value) (t : Store) :
    FinishesWith z I body' s out t ↔ FinishesWith z I body s out t := by
  have hend (n : Nat) : SameEnd (Old 0) (Stmt.execL z I n body s) (Stmt.execL z I n body' s) :=
    h.alike z I n s s fun _ _ => rfl
  exact ⟨.of_sameEnd fun n => (hend n).symm, .of_sameEnd hend⟩

/-- **Preprocessing keeps results.**  A function that the checker accepts, with no variable that is
named like a temporary and no type that is not a plain name, has a normal form.  It returns what the
function returns and leaves the same values. -/
theorem preprocess_exact {f : Function} (hc : f.toStmt.check false false = .ok ())
    (hv : ∀ x ∈ Stmt.variablesL f.body, ¬ IsTemporary x)
    (ha : ∀ u ∈ Stmt.annotationsL f.body, u.isName) :
    ∃ body, f.preprocess = .ok { f with body := body } ∧
      ∀ z I s out t, FinishesWith z I body s out t ↔ FinishesWith z I f.body s out t := by
  have hbody : Stmt.WithinL (Old 0) f.body :=
    Function.within_of_check hc (fun x hx => mem_old_of_not_isTemporary (hv x hx) 0) ha
  obtain ⟨body, c, hrun, hR⟩ := runPasses_replaces [.augments, .conditionals, .calls] hbody
  refine ⟨body, ?_, hR.finishesWith_iff⟩
  simp only [Function.preprocess, Function.runPasses, hrun]
  rfl

/-! ## a function that needs all passes -/

namespace Settle

def a : Exp := .name ⟨1, 1⟩ "a"

def b : Exp := .name ⟨1, 1⟩ "b"

def x : Exp := .name ⟨1, 1⟩ "x"

def num (i : Int) : Exp := .constant ⟨1, 1⟩ (.int i)

def half (e : Exp) : Exp := .call ⟨1, 1⟩ (.name ⟨1, 1⟩ "half") [e] []

/-- `while a > b: invariant("a >= b"); a -= half(a if a > 10 else 2)`, then
`x: int = b and (half(b) if 0 < a <= half(b) else -b)`, and then
`return half(x + half(a)) if x != 0 else a`. -/
def body : List Stmt :=
  [.loop ⟨2, 4⟩ (.compare ⟨2, 2⟩ a [.gt] [b])
     [.exp ⟨3, 3⟩ (.call ⟨3, 3⟩ (.name ⟨3, 3⟩ "invariant") [.constant ⟨3, 3⟩ (.text "a >= b")] []),
      .augment ⟨4, 4⟩ a .sub (half (.ifElse ⟨4, 4⟩ (.compare ⟨4, 4⟩ a [.gt] [num 10]) a (num 2)))] [],
   .declare ⟨5, 5⟩ x (.name ⟨5, 5⟩ "int") (some (.logic ⟨5, 5⟩ .and [b,
     .ifElse ⟨5, 5⟩ (.compare ⟨5, 5⟩ (num 0) [.lt, .ltE] [a, half b]) (half b) (.unary ⟨5, 5⟩ .minus b)])),
   .ret ⟨6, 6⟩ (some (.ifElse ⟨6, 6⟩ (.compare ⟨6, 6⟩ x [.notEq] [num 0]) (half (.binary ⟨6, 6⟩ x .add (half a))) a))]

def function : Function :=
  ⟨⟨1, 6⟩, "settle", [.mk ⟨1, 1⟩ "a" (some (.name ⟨1, 1⟩ "int")), .mk ⟨1, 1⟩ "b" (some (.name ⟨1, 1⟩ "int"))], [], body, [],
    some (.name ⟨1, 1⟩ "int")⟩

/-- Half of the argument, rounded down. -/
def halve : Callees := fun _ vals => .int ((vals.headD (.int 0)).toInt / 2)

def start : Store := fun x => if x = "a" then .int 8 else if x = "b" then .int 6 else .int 0

end Settle

theorem settle_exact : ∃ body t, Settle.function.preprocess = .ok { Settle.function with body := body } ∧
    FinishesWith id Settle.halve Settle.body Settle.start (some (.int (-2))) t ∧
    FinishesWith id Settle.halve body Settle.start (some (.int (-2))) t := by
  have hcheck : Settle.function.toStmt.check false false = .ok () := by rfl
  have hvars : ∀ x ∈ Stmt.variablesL Settle.function.body, ¬ IsTemporary x := by decide +kernel
  have htypes : ∀ u ∈ Stmt.annotationsL Settle.function.body, u.isName := by decide +kernel
  obtain ⟨body, hpre, hfin⟩ := preprocess_exact hcheck hvars htypes
  have hrun : Finishes id Settle.halve Settle.body Settle.start (some (.int (-2))) _ :=
    ⟨3, _, rfl, rfl⟩
  have hsource : FinishesWith id Settle.halve Settle.body Settle.start (some (.int (-2))) _ :=
    ⟨_, hrun, fun _ _ => rfl⟩
  exact ⟨body, _, hpre, hsource, (hfin _ _ _ _ _).2 hsource⟩

end ContractVerifier.Source
