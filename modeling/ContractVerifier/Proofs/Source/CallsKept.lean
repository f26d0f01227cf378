import ContractVerifier.Proofs.Source.Calls
import ContractVerifier.Proofs.Source.Normal

/-!
# Preprocessing keeps the calls of an eager run

Statements that are moved out of an expression make the calls of what was moved.  They make them in
any case, also those that the expression would not have come to: the body in normal form makes the
calls of an eager run of the function (`preprocess_calls`).

* `Moves`, `Remakes`, `Carries` : `Hoists`, `Replaces` and `Wraps` with the same calls.
-/

namespace ContractVerifier.Source

open Hoist

/-! ## stores that agree -/

section

variable {V : Set String} {z : Int → Int} {I : Callees} {s s' : Store}

mutual

theorem Exp.Within.calls_congr (hs : Set.EqOn s s' V) (e : Exp) (h : e.Within V) :
    e.calls true z I s' = e.calls true z I s := by
  cases e with
  | constant | name | other => rfl
  | unary sp op e => exact Exp.Within.calls_congr hs e h.2
  | binary sp l op r => simp only [Exp.calls, Exp.Within.calls_congr hs l h.2.1, Exp.Within.calls_congr hs r h.2.2]
  | logic sp op es => exact Exp.WithinL.callsL_congr hs es h
  | compare sp l ops rs =>
    simp only [Exp.calls, if_true, Exp.Within.calls_congr hs l h.2.1,
      Exp.WithinL.callsL_congr hs rs h.2.2]
  | ifElse sp t a b =>
    simp only [Exp.calls, Exp.Within.calls_congr hs t h.1, h.1.truth?_congr hs,
      Exp.Within.calls_congr hs a h.2.1, Exp.Within.calls_congr hs b h.2.2]
  | call sp f args keywords =>
    simp only [Exp.calls, Exp.WithinL.callsL_congr hs args h.2.2,
      (h.2.2.sameValues hs args).evalL_eq]

theorem Exp.WithinL.callsL_congr (hs : Set.EqOn s s' V) (es : List Exp) (h : Exp.WithinL V es) :
    Exp.callsL true z I s' es = Exp.callsL true z I s es := by
  cases es with
  | nil => rfl
  | cons e es => simp only [Exp.callsL, Exp.Within.calls_congr hs e h.1, Exp.WithinL.callsL_congr hs es h.2]

end

end

/-! ## one behind the other -/

theorem Exp.callsL_append {z : Int → Int} {I : Callees} {s : Store} (es ds : List Exp) :
    Exp.callsL true z I s (es ++ ds) = Exp.callsL true z I s es + Exp.callsL true z I s ds := by
  induction es with
  | nil => exact (zero_add _).symm
  | cons e es ih => simp only [List.cons_append, Exp.callsL, ih, add_assoc]

theorem Exp.callsL_singleton {z : Int → Int} {I : Callees} {s : Store} (e : Exp) :
    Exp.callsL true z I s [e] = e.calls true z I s := add_zero _

namespace Trace

variable {f g : Effect} {u v : Trace} {s s' : Store}

theorem behind_of_next (h : f s = some (.next, s')) : behind f u s = u s' := by
  unfold behind
  rw [h]

theorem behind_add (s : Store) : behind f (fun s => u s + v s) s = behind f u s + behind f v s := by
  unfold behind
  split
  · rfl
  · rfl

theorem behind_behind : behind f (behind g u) = behind (f.andThen g) u := by
  funext s
  unfold behind Effect.andThen
  cases f s with
  | none => rfl
  | some r =>
    obtain ⟨sig, s₁⟩ := r
    cases sig <;> rfl

theorem behind_zero (s : Store) : behind f (fun _ => 0) s = 0 := by
  unfold behind
  split <;> rfl

end Trace

section

variable {z : Int → Int} {I : Callees} {n : Nat} {s : Store}

theorem Stmt.callsL_append (ss ts : List Stmt) (s : Store) :
    Stmt.callsL true z I n (ss ++ ts) s =
      Stmt.callsL true z I n ss s + Trace.behind (Stmt.execL z I n ss) (Stmt.callsL true z I n ts) s := by
  induction ss generalizing s with
  | nil => exact (zero_add _).symm
  | cons t ss ih =>
    have htail : Stmt.callsL true z I n (ss ++ ts) = fun s =>
        Stmt.callsL true z I n ss s + Trace.behind (Stmt.execL z I n ss) (Stmt.callsL true z I n ts) s := funext ih
    simp only [List.cons_append, Stmt.callsL, Stmt.execL, htail, Trace.behind_add,
      ← Trace.behind_behind, add_assoc]

theorem Stmt.callsL_singleton (t : Stmt) (s : Store) : Stmt.callsL true z I n [t] s = t.calls true z I n s := by
  simp only [Stmt.callsL, Trace.behind_zero, add_zero]

end

/-! ## expressions that are relieved of their parts -/

/-- The moved statements make the calls that the expressions lose. -/
structure Moves (c : Nat) (es : List Exp) (ss : List Stmt) (es' : List Exp) (c' : Nat) :
    Prop extends Hoists c es ss es' c' where
  calls : ∀ z I n s s', Stmt.execL z I n ss s = some (.next, s') →
    Stmt.callsL true z I n ss s + Exp.callsL true z I s' es' = Exp.callsL true z I s es

namespace Moves

variable {c c₁ c₂ : Nat} {e e' : Exp} {es es' ds ds' : List Exp} {ss ts : List Stmt}

theorem nil (c : Nat) : Moves c [] [] [] c := ⟨.nil c, fun _ _ _ _ _ _ => rfl⟩

theorem self (h : e.Within (Old c)) : Moves c [e] [] [e] c := by
  refine ⟨.self h, fun z I n s s' hrun => ?_⟩
  cases hrun
  exact zero_add _

theorem append (h : Moves c es ss es' c₁) (h' : Moves c₁ ds ts ds' c₂)
    (hds : Exp.WithinL (Old c) ds) :
    Moves c (es ++ ds) (ss ++ ts) (es' ++ ds') c₂ := by
  refine ⟨h.toHoists.append h'.toHoists hds, fun z I n s s' hrun => ?_⟩
  obtain ⟨s₁, hrun₁, hs₁, -⟩ := h.run z I n s
  obtain ⟨s₂, hrun₂, hs₂, -⟩ := h'.run z I n s₁
  have hend : s₂ = s' := by
    simpa [execL_append, Effect.andThen, hrun₁, hrun₂] using hrun
  subst hend
  -- `es'` read nothing that changes behind them, and `ds` nothing that changes in front of them
  have hes' : Exp.callsL true z I s₂ es' = Exp.callsL true z I s₁ es' := h.exps.callsL_congr hs₂ es'
  have hds' : Exp.callsL true z I s₁ ds = Exp.callsL true z I s ds := hds.callsL_congr hs₁ ds
  rw [Stmt.callsL_append, Trace.behind_of_next hrun₁, Exp.callsL_append, Exp.callsL_append, hes',
    ← h.calls z I n s s₁ hrun₁, ← hds', ← h'.calls z I n s₁ s₂ hrun₂]
  abel

/-- An expression that is put together again makes the calls of its parts, and perhaps one of its
own. -/
theorem build (h : Moves c es ss es' c₁) (hH : Hoists c [e] ss [e'] c₁)
    (hcalls : ∀ {z I s s'}, SameValues z I s s' es es' →
      ∃ own, e.calls true z I s = Exp.callsL true z I s es + own ∧ e'.calls true z I s' = Exp.callsL true z I s' es' + own) :
    Moves c [e] ss [e'] c₁ := by
  refine ⟨hH, fun z I n s s' hrun => ?_⟩
  obtain ⟨s₁, hrun₁, -, hes⟩ := h.run z I n s
  cases hrun.symm.trans hrun₁
  obtain ⟨own, he, he'⟩ := hcalls hes
  rw [Exp.callsL_singleton, Exp.callsL_singleton, he, he', ← h.calls z I n s s' hrun, add_assoc]

theorem unary {sp : Span} {op : Sign} (hop : op.supported) (h : Moves c [e] ss [e'] c₁) :
    Moves c [.unary sp op e] ss [.unary sp op e'] c₁ :=
  h.build (h.toHoists.unary hop) fun _ => ⟨0, by simp [Exp.calls, Exp.callsL]⟩

theorem binary {sp : Span} {op : Arith} {l l' r r' : Exp} (hop : op.supported)
    (h : Moves c [l, r] ss [l', r'] c₁) :
    Moves c [.binary sp l op r] ss [.binary sp l' op r'] c₁ :=
  h.build (h.toHoists.binary hop) fun _ => ⟨0, by simp [Exp.calls, Exp.callsL]⟩

theorem logic {sp : Span} {op : Logic} (h : Moves c es ss es' c₁) :
    Moves c [.logic sp op es] ss [.logic sp op es'] c₁ :=
  h.build h.toHoists.logic fun _ => ⟨0, by simp [Exp.calls]⟩

theorem compare {sp : Span} {ops : List Comparison} (hops : ∀ op ∈ ops, op.supported)
    (h : Moves c (e :: es) ss (e' :: es') c₁) :
    Moves c [.compare sp e ops es] ss [.compare sp e' ops es'] c₁ :=
  h.build (h.toHoists.compare hops) fun _ => ⟨0, by simp [Exp.calls, Exp.callsL]⟩

theorem call {sp : Span} {f : Exp} (hf : f.isName) (h : Moves c es ss es' c₁) :
    Moves c [.call sp f es []] ss [.call sp f es' []] c₁ :=
  h.build (h.toHoists.call hf) fun hes => ⟨_, rfl, by simp only [Exp.calls, hes.evalL_eq]⟩

/-- The value goes through the next temporary. -/
theorem toTemporary {sp nsp : Span} (h : Moves c [e] ss [e'] c₁) :
    Moves c [e] (ss ++ [assignTo (temporary c₁) sp e']) [.name nsp (temporary c₁)] (c₁ + 1) := by
  refine ⟨h.toHoists.toTemporary, fun z I n s s' hrun => ?_⟩
  obtain ⟨s₁, hrun₁, -, -⟩ := h.run z I n s
  rw [Stmt.callsL_append, Trace.behind_of_next hrun₁, Stmt.callsL_singleton,
    ← h.calls z I n s s₁ hrun₁]
  simp [assignTo, Stmt.calls, Exp.callsL, Exp.calls]

end Moves

/-! ## statements in the place of others -/

/-- The new statements make the calls of the old ones. -/
structure Remakes (b c : Nat) (ss ts : List Stmt) (c' : Nat) :
    Prop extends Replaces b c ss ts c' where
  calls : ∀ z I n s s', Set.EqOn s s' (Old b) → Stmt.callsL true z I n ts s' = Stmt.callsL true z I n ss s

/-- `wrap e` makes the calls of `e`. -/
structure Carries (b : Nat) (wrap : Exp → Stmt) (k : (Int → Int) → Value → Effect) :
    Prop extends Wraps b wrap k where
  calls : ∀ {V : Set String} {z I n s e}, e.Within V → (wrap e).calls true z I n s = e.calls true z I s

namespace Moves

variable {b c c₁ c₂ : Nat} {e e' : Exp} {ss : List Stmt}

theorem wrap (h : Moves c [e] ss [e'] c₁) (hbc : b ≤ c) (he : e.Within (Old b)) {wrap : Exp → Stmt}
    {k : (Int → Int) → Value → Effect} (hw : Carries b wrap k) : Remakes b c [wrap e] (ss ++ [wrap e']) c₁ := by
  refine ⟨h.toHoists.wrap hbc he hw.toWraps, fun z I n s s' hs => ?_⟩
  obtain ⟨s₁, hrun, -, -⟩ := h.run z I n s'
  have hcalls := h.calls z I n s' s₁ hrun
  rw [Exp.callsL_singleton, Exp.callsL_singleton] at hcalls
  rw [Stmt.callsL_append, Trace.behind_of_next hrun, Stmt.callsL_singleton, Stmt.callsL_singleton,
    hw.calls h.exps.1, hw.calls he, hcalls, he.calls_congr hs]

/-- A conditional statement with a relieved test, and new branches behind it. -/
theorem cond (h : Moves c [e] ss [e'] c₁) (hbc : b ≤ c) (he : e.Within (Old b)) {sp : Span}
    {body body' orElse orElse' : List Stmt} {c₃ : Nat} (hbody : Remakes b c₁ body body' c₂)
    (hother : Remakes b c₂ orElse orElse' c₃) :
    Remakes b c [.cond sp e body orElse] (ss ++ [.cond sp e' body' orElse']) c₃ := by
  refine ⟨h.toHoists.cond hbc he hbody.toReplaces hother.toReplaces, fun z I n s s' hs => ?_⟩
  obtain ⟨s₁, hrun, hs₁, hsame⟩ := h.run z I n s'
  have hcalls := h.calls z I n s' s₁ hrun
  rw [Exp.callsL_singleton, Exp.callsL_singleton] at hcalls
  have htruth : e'.truth? z I s₁ = e.truth? z I s := by
    cases hsame with
    | cons h _ => exact congrArg (Option.map Value.toBool) (h.trans (he.eval_congr hs e))
  have hs' : Set.EqOn s s₁ (Old b) := hs.trans (hs₁.mono (old_mono hbc))
  rw [Stmt.callsL_append, Trace.behind_of_next hrun, Stmt.callsL_singleton, Stmt.callsL_singleton]
  simp only [Stmt.calls, htruth, hbody.calls z I n s s₁ hs', hother.calls z I n s s₁ hs']
  rw [← add_assoc, hcalls, he.calls_congr hs]

end Moves

namespace Remakes

variable {b c c₁ c₂ : Nat} {ss ss' ts ts' : List Stmt}

theorem nil (b c : Nat) : Remakes b c [] [] c := ⟨.nil b c, fun _ _ _ _ _ _ => rfl⟩

theorem append (h : Remakes b c ss ss' c₁) (h' : Remakes b c₁ ts ts' c₂) : Remakes b c (ss ++ ts) (ss' ++ ts') c₂ := by
  refine ⟨h.toReplaces.append h'.toReplaces, fun z I n s s' hs => ?_⟩
  rw [Stmt.callsL_append, Stmt.callsL_append, h.calls z I n s s' hs]
  congr 1
  have hend := h.alike z I n s s' hs
  unfold Trace.behind
  generalize Stmt.execL z I n ss s = r, Stmt.execL z I n ss' s' = r' at hend
  cases hend with
  | none => rfl
  | @some q q' hq =>
    obtain ⟨sig, s₁⟩ := q
    obtain ⟨sig', s₁'⟩ := q'
    obtain ⟨rfl, hs₁⟩ := hq
    cases sig with
    | next => exact h'.calls z I n s₁ s₁' hs₁
    | _ => rfl

/-- Round for round. -/
theorem rounds_eq {V : Set String} {test test' : Store → Option Bool} {f f' : Effect}
    {ofTest ofTest' u u' : Trace} (ht : ∀ s s', Set.EqOn s s' V → test' s' = test s)
    (hf : f.Alike V f') (hot : ∀ s s', Set.EqOn s s' V → ofTest' s' = ofTest s)
    (hu : ∀ s s', Set.EqOn s s' V → u' s' = u s) (n : Nat) (s s' : Store) (hs : Set.EqOn s s' V) :
    Trace.rounds test' f' ofTest' u' (fun _ => 0) n s' = Trace.rounds test f ofTest u (fun _ => 0) n s := by
  induction n generalizing s s' with
  | zero => rfl
  | succ n ih =>
    have hend := hf s s' hs
    simp only [Trace.rounds, ht s s' hs, hot s s' hs, hu s s' hs]
    generalize f s = r, f' s' = r' at hend
    cases hend with
    | none => rfl
    | @some q q' hq =>
      obtain ⟨sig, s₁⟩ := q
      obtain ⟨sig', s₁'⟩ := q'
      obtain ⟨rfl, hs₁⟩ := hq
      cases sig with
      | next => simp only [ih s₁ s₁' hs₁]
      | cont => simp only [ih s₁ s₁' hs₁]
      | brk | ret => rfl

theorem loop {sp : Span} {t : Exp} (hbc : b ≤ c) (ht : t.Within (Old b))
    (h : Remakes b c ss ss' c₁) :
    Remakes b c [.loop sp t ss []] [.loop sp t ss' []] c₁ := by
  refine ⟨h.toReplaces.loop hbc ht, fun z I n s s' hs => ?_⟩
  rw [Stmt.callsL_singleton, Stmt.callsL_singleton]
  exact rounds_eq (fun _ _ hs => ht.truth?_congr hs) (h.alike z I n) (fun _ _ hs => ht.calls_congr hs t) (h.calls z I n) n
    s s' hs

theorem congr (h : Remakes b c ss ts c₁) (hss : ∀ z I n, Stmt.execL z I n ss = Stmt.execL z I n ss')
    (hcalls : ∀ z I n s, Stmt.callsL true z I n ss s = Stmt.callsL true z I n ss' s) :
    Remakes b c ss' ts c₁ :=
  ⟨h.toReplaces.congr hss, fun z I n s s' hs => (h.calls z I n s s' hs).trans (hcalls z I n s)⟩

/-- What is assigned to the temporary `c` stands behind in its place. -/
theorem moves {e : Exp} {sp nsp : Span} (h : Remakes (c + 1) (c + 1) [assignTo (temporary c) sp e] ss c₁)
    (he : e.Within (Old c)) : Moves c [e] ss [.name nsp (temporary c)] c₁ := by
  refine ⟨h.toReplaces.hoists he, fun z I n s s' _ => ?_⟩
  rw [h.calls z I n s s fun _ _ => rfl, Stmt.callsL_singleton, Exp.callsL_singleton,
    Exp.callsL_singleton]
  exact add_zero _

/-- A statement that makes no calls. -/
theorem of_calls_zero {s : Stmt} (hbc : b ≤ c) (h : s.Within (Old b))
    (hs : ∀ z I n t, s.calls true z I n t = 0) :
    Remakes b c [s] [s] c := by
  refine ⟨replaces_self hbc s h, fun z I n t t' _ => ?_⟩
  rw [Stmt.callsL_singleton, Stmt.callsL_singleton, hs, hs]

theorem trans {us : List Stmt} (h : Remakes c c ss ts c₁) (h' : Remakes c₁ c₁ ts us c₂) :
    Remakes c c ss us c₂ :=
  ⟨h.toReplaces.trans h'.toReplaces, fun z I n s s' hs =>
    (h'.calls z I n s' s' fun _ _ => rfl).trans (h.calls z I n s s' hs)⟩

end Remakes

section

variable {b c : Nat}

theorem emits_remakes_cond (hbc : b ≤ c) {sp : Span} {t : Exp} {body orElse : List Stmt}
    (ht : t.Within (Old b)) {mt : HoistM Exp} {mb mo : HoistM (List Stmt)}
    (hT : Adds c mt fun ss t' => Moves c [t] ss [t'])
    (hB : ∀ c', b ≤ c' → Gives c' mb (Remakes b c' body))
    (hO : ∀ c', b ≤ c' → Gives c' mo (Remakes b c' orElse)) :
    Emits c (do
      let t ← mt
      let before ← takeAll
      let body ← mb
      let orElse ← mo
      return before ++ [.cond sp t body orElse]) (Remakes b c [.cond sp t body orElse]) := by
  refine .branch (hT.mono fun ss t' c₁ hT => ?_)
  have hc₁ := hbc.trans hT.le
  refine (hB c₁ hc₁).mono fun body' c₂ hB => (hO c₂ (hc₁.trans hB.le)).mono fun orElse' c₃ hO => ?_
  exact hT.cond hbc ht hB hO

theorem gives_remakes_cons (hbc : b ≤ c) {s : Stmt} {ss : List Stmt} {ms mss : HoistM (List Stmt)}
    (hs : Emits c ms (Remakes b c [s])) (hss : ∀ c', b ≤ c' → Gives c' mss (Remakes b c' ss)) :
    Gives c (do
      let s ← ms
      let before ← takeAll
      let ss ← mss
      return before ++ s ++ ss) (Remakes b c (s :: ss)) :=
  .next (hs.mono fun _ c₁ hs => (hss c₁ (hbc.trans hs.le)).mono fun _ _ hss => hs.append hss)

end

/-! ## statements around an expression -/

section

variable {b : Nat} {sp : Span} {x : String}

theorem carries_assign {ts : List Exp} (h : target? ts = some x) (hx : x ∈ Old b) :
    Carries b (.assign sp ts) fun _ => Effect.keep x := ⟨wraps_assign h hx, fun _ => rfl⟩

theorem carries_declare {t u : Exp} (h : t.name? = some x) (hu : u.isName) (hx : x ∈ Old b) :
    Carries b (fun e => .declare sp t u (some e)) fun _ => Effect.keep x :=
  ⟨wraps_declare h hu hx, fun _ => rfl⟩

theorem carries_augment {t : Exp} {op : Arith} (h : t.name? = some x) (hop : op.supported)
    (hx : x ∈ Old b) :
    Carries b (.augment sp t op) fun z v s => (op.result? z (s x) v).map fun w => (.next, s.set x w) :=
  ⟨wraps_augment h hop hx, fun _ => rfl⟩

theorem carries_ret : Carries b (fun e => .ret sp (some e)) fun _ v s => some (.ret (some v), s) :=
  ⟨wraps_ret, fun _ => rfl⟩

/-- Neither a description nor an invariant is an expression of the fragment. -/
theorem Exp.Within.not_isNote {V : Set String} {e : Exp} (h : e.Within V) : (Stmt.exp sp e).isNote = false := by
  by_contra hnote
  rcases Stmt.isNote_cases (Bool.eq_true_of_not_eq_false hnote) with ⟨csp, text, rfl⟩ |
    ⟨csp, nsp, ksp, text, rfl⟩
  · cases h
  · cases h.2.2.1

theorem carries_exp : Carries b (.exp sp) fun _ _ => Effect.skip :=
  ⟨wraps_exp, fun he => by simp [Stmt.calls, he.not_isNote]⟩

end

/-! ## augmented assignments -/

section

variable {V : Set String}

mutual

theorem calls_expandAugments {z : Int → Int} {I : Callees} {n : Nat} (s s' : Stmt)
    (hs : s.expandAugments = .ok s') (h : s.Within V) :
    s'.calls true z I n = s.calls true z I n := by
  cases s with
  | augment sp t op v =>
    obtain ⟨⟨x, -, ht⟩, -, -⟩ := h
    cases t with
    | name nsp y =>
      cases hs
      exact funext fun _ => zero_add _
    | _ => cases ht
  | cond sp t body orElse =>
    obtain ⟨body', hb, -, -⟩ := exists_expandAugmentsL body h.2.1
    obtain ⟨orElse', ho, -, -⟩ := exists_expandAugmentsL orElse h.2.2
    simp only [Stmt.expandAugments, hb, ho] at hs
    cases hs
    funext t
    simp only [Stmt.calls, callsL_expandAugmentsL body body' hb h.2.1,
      callsL_expandAugmentsL orElse orElse' ho h.2.2]
  | loop sp t body orElse =>
    obtain ⟨ht, hbody, rfl⟩ := h
    obtain ⟨body', hb, -, hexec⟩ := exists_expandAugmentsL body hbody
    simp only [Stmt.expandAugments, hb, Stmt.expandAugmentsL] at hs
    cases hs
    simp only [Stmt.calls, callsL_expandAugmentsL body body' hb hbody, hexec]
  | function | other => exact h.elim
  | assign | declare | exp | ret | pass | brk | cont =>
    cases hs
    rfl

theorem callsL_expandAugmentsL {z : Int → Int} {I : Callees} {n : Nat} (ss ss' : List Stmt)
    (hss : Stmt.expandAugmentsL ss = .ok ss') (h : Stmt.WithinL V ss) :
    Stmt.callsL true z I n ss' = Stmt.callsL true z I n ss := by
  cases ss with
  | nil =>
    cases hss
    rfl
  | cons s ss =>
    obtain ⟨s₁, hs, -, hexec⟩ := exists_expandAugments s h.1
    obtain ⟨ss₁, hrest, -, -⟩ := exists_expandAugmentsL ss h.2
    simp only [Stmt.expandAugmentsL, hs, hrest] at hss
    cases hss
    funext t
    simp only [Stmt.callsL, calls_expandAugments s s₁ hs h.1,
      callsL_expandAugmentsL ss ss₁ hrest h.2, hexec]

end

end

/-! ## conditional expressions -/

structure MovesIf (e : Exp) : Prop where
  value : ∀ c, e.Within (Old c) → Adds c (e.liftIf none) fun ss e' => Moves c [e] ss [e']
  wrapped : ∀ b c wrap k, b ≤ c → e.Within (Old b) → Carries b wrap k →
    Adds c (e.liftIf (some wrap)) fun ss _ => Remakes b c [wrap e] ss

theorem MovesIf.of_value {e : Exp} (hif : e.isIfElse = false)
    (h : ∀ c, e.Within (Old c) → Adds c (e.liftIf none) fun ss e' => Moves c [e] ss [e']) :
    MovesIf e where
  value := h
  wrapped b c wrap k hbc he hw := by
    rw [liftIf_some hif]
    refine (h c (he.mono (old_mono hbc) e)).bind fun ss e' c' hM => ?_
    exact Adds.push (hM.wrap hbc he hw)

/-- Wrapped arms make the calls of the wrapped conditional. -/
theorem callsL_cond_wrap {b : Nat} {wrap wrap₁ wrap₂ : Exp → Stmt}
    {k : (Int → Int) → Value → Effect} (hw : Carries b wrap k) (hw₁ : Carries b wrap₁ k)
    (hw₂ : Carries b wrap₂ k) {V : Set String} {sp sp' : Span} {t a e : Exp}
    (h : (Exp.ifElse sp t a e).Within V) (z : Int → Int) (I : Callees) (n : Nat) (s : Store) :
    Stmt.callsL true z I n [.cond sp' t [wrap₁ a] [wrap₂ e]] s = Stmt.callsL true z I n [wrap (.ifElse sp t a e)] s := by
  rw [Stmt.callsL_singleton, Stmt.callsL_singleton, hw.calls h]
  simp only [Stmt.calls, Stmt.callsL_singleton, hw₁.calls h.2.1, hw₂.calls h.2.2, Exp.calls]

/-- What the test and the arms of a conditional expression leave. -/
theorem MovesIf.choose {b c : Nat} {sp : Span} {t a e : Exp} (ht : MovesIf t) (ha : MovesIf a)
    (he : MovesIf e) (hbc : b ≤ c) (h : (Exp.ifElse sp t a e).Within (Old b))
    {wrap wrap₁ wrap₂ : Exp → Stmt} {k : (Int → Int) → Value → Effect} (hw : Carries b wrap k)
    (hw₁ : Carries b wrap₁ k) (hw₂ : Carries b wrap₂ k) :
    Adds c (Source.choose sp (t.liftIf none) (a.liftIf (some wrap₁)) (e.liftIf (some wrap₂))) fun ss st =>
      Remakes b c [wrap (.ifElse sp t a e)] (ss ++ [st]) := by
  refine Adds.choose ((ht.value c (h.1.mono (old_mono hbc) t)).mono fun ss t' c₁ hT => ?_)
  have hc₁ := hbc.trans hT.le
  refine (ha.wrapped b c₁ wrap₁ k hc₁ h.2.1 hw₁).mono fun body _ c₂ hA => ?_
  refine (he.wrapped b c₂ wrap₂ k (hc₁.trans hA.le) h.2.2 hw₂).mono fun orElse _ c₃ hB => ?_
  exact (hT.cond hbc h.1 hA hB).congr (execL_cond_wrap hw.toWraps hw₁.toWraps hw₂.toWraps h)
    (callsL_cond_wrap hw hw₁ hw₂ h)

theorem MovesIf.ifElse {sp : Span} {t a e : Exp} (ht : MovesIf t) (ha : MovesIf a)
    (he : MovesIf e) :
    MovesIf (.ifElse sp t a e) where
  value c h := by
    simp only [Exp.liftIf]
    refine Adds.fresh ?_
    have hx : temporary c ∈ Old (c + 1) := temporary_mem_old.2 (Nat.lt_succ_self c)
    have hw (sp : Span) : Carries (c + 1) (assignTo (temporary c) sp) fun _ => Effect.keep (temporary c) :=
      carries_assign rfl hx
    have h' := h.mono (old_mono (Nat.le_succ c))
    exact (ht.choose ha he le_rfl h' (hw sp) (hw a.span) (hw e.span)).bind fun ss st c' hR => Adds.push (hR.moves h)
  wrapped b c wrap k hbc h hw := by
    simp only [Exp.liftIf]
    exact (ht.choose ha he hbc h hw hw hw).bind fun ss st c' hR => Adds.push hR

mutual

theorem movesIf (e : Exp) : MovesIf e := by
  cases e with
  | ifElse sp t a e => exact .ifElse (movesIf t) (movesIf a) (movesIf e)
  | constant sp k =>
    refine .of_value rfl fun c h => ?_
    simp only [Exp.liftIf, finish]
    exact .pure (.self h)
  | name sp x =>
    refine .of_value rfl fun c h => ?_
    simp only [Exp.liftIf, finish]
    exact .pure (.self h)
  | unary sp op e =>
    refine .of_value rfl fun c h => ?_
    simp only [Exp.liftIf, finish]
    exact ((movesIf e).value c h.2).map fun ss e' c' he => he.unary h.1
  | binary sp l op r =>
    refine .of_value rfl fun c h => ?_
    simp only [Exp.liftIf, finish]
    refine ((movesIf l).value c h.2.1).bind fun ss l' c₁ hl => ?_
    refine ((movesIf r).value c₁ (h.2.2.mono (old_mono hl.le) r)).map fun ts r' c₂ hr => ?_
    exact (hl.append hr ⟨h.2.2, trivial⟩).binary h.1
  | logic sp op es =>
    refine .of_value rfl fun c h => ?_
    simp only [Exp.liftIf, finish]
    exact (moves_liftIf_exps es c h).map fun ss es' c' hes => hes.logic
  | compare sp l ops rs =>
    refine .of_value rfl fun c h => ?_
    simp only [Exp.liftIf, finish]
    refine ((movesIf l).value c h.2.1).bind fun ss l' c₁ hl => ?_
    refine (moves_liftIf_exps rs c₁ (h.2.2.mono (old_mono hl.le) rs)).map fun ts rs' c₂ hrs => ?_
    exact (hl.append hrs h.2.2).compare h.1
  | call sp f args keywords =>
    refine .of_value rfl fun c h => ?_
    obtain ⟨hf, rfl, hargs⟩ := h
    cases f with
    | name nsp id =>
      simp only [Exp.liftIf, Part.liftIfL, finish, pure_bind]
      exact (moves_liftIf_exps args c hargs).map fun ss args' c' hes => hes.call hf
    | _ => cases hf
  | other sp k ps => exact .of_value rfl fun _ h => h.elim

theorem moves_liftIf_exps (es : List Exp) (c : Nat) (h : Exp.WithinL (Old c) es) : Adds c (Exp.liftIfL es) (Moves c es) := by
  cases es with
  | nil =>
    simp only [Exp.liftIfL]
    exact .pure (.nil c)
  | cons e es =>
    simp only [Exp.liftIfL]
    refine ((movesIf e).value c h.1).bind fun ss e' c₁ he => ?_
    refine (moves_liftIf_exps es c₁ (h.2.mono (old_mono he.le) es)).map fun ts es' c₂ hes => ?_
    exact he.append hes h.2

end

/-- A statement that stays as it is. -/
theorem remakes_self {b c : Nat} {s : Stmt} (hbc : b ≤ c) (h : s.Within (Old b))
    (hs : ∀ z I n t, s.calls true z I n t = 0) :
    Emits c (pure [s]) (Remakes b c [s]) := .pure (.of_calls_zero hbc h hs)

/-- A statement around an expression whose arms do not become statements of its kind. -/
theorem remakes_liftIf_wrap {b c : Nat} {wrap : Exp → Stmt} {k : (Int → Int) → Value → Effect}
    (hw : Carries b wrap k) (hbc : b ≤ c) {e : Exp} (he : e.Within (Old b)) :
    Emits c (e.liftIf none >>= fun e' => pure [wrap e']) (Remakes b c [wrap e]) :=
  ((movesIf e).value c (he.mono (old_mono hbc) e)).emits fun _ _ _ hM => hM.wrap hbc he hw

/-- A statement whose whole value is a conditional expression. -/
theorem remakes_liftIf_spread {b c : Nat} {wrap : Exp → Stmt} {k : (Int → Int) → Value → Effect}
    (hw : Carries b wrap k) (hbc : b ≤ c) {e : Exp} (he : e.Within (Old b)) :
    Emits c (e.liftIf (some wrap) >>= fun _ => pure []) (Remakes b c [wrap e]) := by
  refine ((movesIf e).wrapped b c wrap k hbc he hw).emits fun ss _ c' hR => ?_
  rwa [List.append_nil]

theorem calls_of_isNote {s : Stmt} (h : s.isNote) (z : Int → Int) (I : Callees) (n : Nat)
    (t : Store) :
    s.calls true z I n t = 0 := by
  obtain ⟨sp, v, rfl⟩ := Stmt.eq_exp_of_isNote h
  simp only [Stmt.calls, h, if_true]

mutual

theorem remakes_liftIf {b c : Nat} (hbc : b ≤ c) (s : Stmt) (h : s.Within (Old b)) :
    Emits c s.liftIf (Remakes b c [s]) := by
  cases s with
  | assign sp ts v =>
    obtain ⟨⟨x, hx, hts⟩, hv⟩ := h
    have hw : Carries b (.assign sp ts) fun _ => Effect.keep x := carries_assign hts hx
    simp only [Stmt.liftIf]
    split
    · exact remakes_liftIf_spread hw hbc hv
    · exact remakes_liftIf_wrap hw hbc hv
  | declare sp t u v =>
    obtain ⟨⟨x, hx, ht⟩, hu, hv⟩ := h
    cases v with
    | none =>
      simp only [Stmt.liftIf, liftIf_of_name? ht, liftIf_of_isName hu, pure_bind]
      exact remakes_self hbc ⟨⟨x, hx, ht⟩, hu, hv⟩ fun _ _ _ _ => rfl
    | some v =>
      simp only [Stmt.liftIf, liftIf_of_name? ht, liftIf_of_isName hu, pure_bind]
      exact remakes_liftIf_wrap (carries_declare ht hu hx) hbc (hv v rfl)
  | augment sp t op v =>
    obtain ⟨⟨x, hx, ht⟩, hop, hv⟩ := h
    simp only [Stmt.liftIf, liftIf_of_name? ht, pure_bind]
    exact remakes_liftIf_wrap (carries_augment ht hop hx) hbc hv
  | exp sp v =>
    simp only [Stmt.liftIf]
    rcases h with h | hv
    · rw [liftIf_of_isNote h, pure_bind]
      exact remakes_self hbc (.inl h) (calls_of_isNote h)
    · exact remakes_liftIf_wrap carries_exp hbc hv
  | cond sp t body orElse =>
    simp only [Stmt.liftIf]
    exact emits_remakes_cond hbc h.1 ((movesIf t).value c (h.1.mono (old_mono hbc) t))
      (fun c' hc => remakes_liftIfL hc body h.2.1) fun c' hc => remakes_liftIfL hc orElse h.2.2
  | loop sp t body orElse =>
    obtain ⟨ht, hbody, rfl⟩ := h
    simp only [Stmt.liftIf]
    exact .around ((remakes_liftIfL hbc body hbody).mono fun body' c' hB => hB.loop hbc ht)
  | ret sp v =>
    cases v with
    | none =>
      simp only [Stmt.liftIf]
      exact remakes_self hbc h fun _ _ _ _ => rfl
    | some v =>
      simp only [Stmt.liftIf]
      split
      · exact remakes_liftIf_spread carries_ret hbc (h v rfl)
      · exact remakes_liftIf_wrap carries_ret hbc (h v rfl)
  | pass sp =>
    simp only [Stmt.liftIf]
    exact remakes_self hbc h fun _ _ _ _ => rfl
  | brk sp =>
    simp only [Stmt.liftIf]
    exact remakes_self hbc h fun _ _ _ _ => rfl
  | cont sp =>
    simp only [Stmt.liftIf]
    exact remakes_self hbc h fun _ _ _ _ => rfl
  | function | other => exact h.elim

theorem remakes_liftIfL {b c : Nat} (hbc : b ≤ c) (ss : List Stmt) (h : Stmt.WithinL (Old b) ss) :
    Gives c (Stmt.liftIfL ss) (Remakes b c ss) := by
  cases ss with
  | nil =>
    simp only [Stmt.liftIfL]
    exact ⟨[], c, rfl, .nil b c⟩
  | cons s ss =>
    simp only [Stmt.liftIfL]
    exact gives_remakes_cons hbc (remakes_liftIf hbc s h.1) fun c' hc => remakes_liftIfL hc ss h.2

end

/-! ## nested calls -/

/-- The form behind the first two passes.  Both arms of a conditional expression would be relieved
of their calls, so that it matters that there is none. -/
def BodyForm.straight (types : Exp → Prop) : BodyForm := ⟨⟨false, false, true, false⟩, false, types⟩

/-- A call that may not stay where it is goes through a temporary. -/
theorem moves_call {c : Nat} {sp : Span} {f : Exp} {args : List Exp} (hf : f.isName)
    (h : Adds c (Exp.liftCallL args) (Moves c args)) (whole : Bool) :
    Adds c ((Exp.call sp f args []).liftCall whole) fun ss e' => Moves c [.call sp f args []] ss [e'] := by
  cases whole with
  | true =>
    simp only [Exp.liftCall, if_true]
    exact h.map fun ss args' c' hargs => hargs.call hf
  | false =>
    simp only [Exp.liftCall]
    exact h.bind fun ss args' c' hargs => Adds.fresh (Adds.push (hargs.call hf).toTemporary)

mutual

theorem moves_liftCall (e : Exp) (whole : Bool) (c : Nat) (h : e.Within (Old c))
    (hf : e.InForm ⟨false, false, true, false⟩) :
    Adds c (e.liftCall whole) fun ss e' => Moves c [e] ss [e'] := by
  cases e with
  | constant sp k =>
    simp only [Exp.liftCall]
    exact .pure (.self h)
  | name sp x =>
    simp only [Exp.liftCall]
    exact .pure (.self h)
  | unary sp op e =>
    simp only [Exp.liftCall]
    exact (moves_liftCall e false c h.2 hf.2).map fun ss e' c' he => he.unary h.1
  | binary sp l op r =>
    simp only [Exp.liftCall]
    refine (moves_liftCall l false c h.2.1 hf.2.1).bind fun ss l' c₁ hl => ?_
    refine (moves_liftCall r false c₁ (h.2.2.mono (old_mono hl.le) r) hf.2.2).map fun ts r' c₂ hr => ?_
    exact (hl.append hr ⟨h.2.2, trivial⟩).binary h.1
  | logic sp op es =>
    simp only [Exp.liftCall]
    exact (moves_liftCall_exps es c h hf.2).map fun ss es' c' hes => hes.logic
  | compare sp l ops rs =>
    simp only [Exp.liftCall]
    refine (moves_liftCall l false c h.2.1 hf.2.2.1).bind fun ss l' c₁ hl => ?_
    refine (moves_liftCall_exps rs c₁ (h.2.2.mono (old_mono hl.le) rs) hf.2.2.2).map fun ts rs' c₂ hrs => ?_
    exact (hl.append hrs h.2.2).compare h.1
  | call sp f args keywords =>
    obtain ⟨hname, rfl, hargs⟩ := h
    exact moves_call hname (moves_liftCall_exps args c hargs hf.2.2.2) whole
  | ifElse sp t a b => cases hf.1
  | other sp k ps => exact h.elim

theorem moves_liftCall_exps (es : List Exp) (c : Nat) (h : Exp.WithinL (Old c) es)
    (hf : Exp.InFormL ⟨false, false, true, false⟩ es) :
    Adds c (Exp.liftCallL es) (Moves c es) := by
  cases es with
  | nil =>
    simp only [Exp.liftCallL]
    exact .pure (.nil c)
  | cons e es =>
    simp only [Exp.liftCallL]
    refine (moves_liftCall e false c h.1 hf.1).bind fun ss e' c₁ he => ?_
    refine (moves_liftCall_exps es c₁ (h.2.mono (old_mono he.le) es) hf.2).map fun ts es' c₂ hes => ?_
    exact he.append hes h.2

end

/-- A statement around an expression. -/
theorem remakes_liftCall_wrap {b c : Nat} {wrap : Exp → Stmt} {k : (Int → Int) → Value → Effect}
    (hw : Carries b wrap k) (hbc : b ≤ c) {e : Exp} (he : e.Within (Old b))
    (hf : e.InForm ⟨false, false, true, false⟩) (whole : Bool) :
    Emits c (e.liftCall whole >>= fun e' => pure [wrap e']) (Remakes b c [wrap e]) :=
  (moves_liftCall e whole c (he.mono (old_mono hbc) e) hf).emits fun _ _ _ hM => hM.wrap hbc he hw

/-- A description or an invariant in front of statements. -/
theorem remakes_liftCall_note {b c : Nat} (hbc : b ≤ c) {s : Stmt} {ss : List Stmt} (hs : s.isNote)
    (h : Gives c (Stmt.liftCallL ss) (Remakes b c ss)) : Gives c (Stmt.liftCallL (s :: ss)) (Remakes b c (s :: ss)) := by
  obtain ⟨sp, v, rfl⟩ := Stmt.eq_exp_of_isNote hs
  simp only [Stmt.liftCallL, liftCall_of_isNote hs]
  refine .next (.pure (h.mono fun ss' c' hss => ?_))
  exact (Remakes.of_calls_zero hbc (Stmt.within_of_isNote hs) (calls_of_isNote hs)).append hss

section

variable {types : Exp → Prop}

mutual

theorem remakes_liftCall {b c : Nat} (hbc : b ≤ c) {inLoop : Bool} (s : Stmt) (h : s.Within (Old b))
    (hf : s.InForm (.straight types) inLoop) : Emits c s.liftCall (Remakes b c [s]) := by
  cases s with
  | assign sp ts v =>
    obtain ⟨⟨x, hx, hts⟩, hv⟩ := h
    simp only [Stmt.liftCall]
    exact remakes_liftCall_wrap (carries_assign hts hx) hbc hv (hf.2.inForm rfl) true
  | declare sp t u v =>
    obtain ⟨⟨x, hx, ht⟩, hu, hv⟩ := h
    cases v with
    | none =>
      simp only [Stmt.liftCall]
      exact remakes_self hbc ⟨⟨x, hx, ht⟩, hu, hv⟩ fun _ _ _ _ => rfl
    | some v =>
      simp only [Stmt.liftCall]
      exact remakes_liftCall_wrap (carries_declare ht hu hx) hbc (hv v rfl)
        ((hf.2.2 v rfl).inForm rfl) true
  | exp sp v =>
    simp only [Stmt.liftCall, hf.1, if_true]
    have hv : v.Within (Old b) := by
      refine h.resolve_left fun hnote => ?_
      rcases Stmt.isNote_cases hnote with ⟨csp, k, rfl⟩ | ⟨csp, nsp, ksp, text, rfl⟩
      · cases hf.1
      · exact hf.2.1 rfl
    exact remakes_liftCall_wrap carries_exp hbc hv (hf.2.inForm rfl) true
  | cond sp t body orElse =>
    simp only [Stmt.liftCall]
    exact emits_remakes_cond hbc h.1 (moves_liftCall t false c (h.1.mono (old_mono hbc) t) hf.1)
      (fun c' hc => remakes_liftCallL hc body h.2.1 hf.2.2.1) fun c' hc => remakes_liftCallL hc orElse h.2.2 hf.2.2.2
  | loop sp t body orElse =>
    obtain ⟨ht, hbody, rfl⟩ := h
    simp only [Stmt.liftCall]
    exact .around ((remakes_liftCall_loop hbc body hbody hf.2.2).mono fun body' c' hB => hB.loop hbc ht)
  | ret sp v =>
    cases v with
    | none =>
      simp only [Stmt.liftCall]
      exact remakes_self hbc h fun _ _ _ _ => rfl
    | some v =>
      simp only [Stmt.liftCall]
      exact remakes_liftCall_wrap carries_ret hbc (h v rfl) (hf v rfl) false
  | pass sp =>
    simp only [Stmt.liftCall]
    exact remakes_self hbc h fun _ _ _ _ => rfl
  | brk sp =>
    simp only [Stmt.liftCall]
    exact remakes_self hbc h fun _ _ _ _ => rfl
  | cont sp =>
    simp only [Stmt.liftCall]
    exact remakes_self hbc h fun _ _ _ _ => rfl
  | augment sp t op v => cases hf.1
  | function | other => exact h.elim

theorem remakes_liftCallL {b c : Nat} (hbc : b ≤ c) {inLoop : Bool} (ss : List Stmt)
    (h : Stmt.WithinL (Old b) ss) (hf : Stmt.InFormL (.straight types) inLoop ss) :
    Gives c (Stmt.liftCallL ss) (Remakes b c ss) := by
  cases ss with
  | nil =>
    simp only [Stmt.liftCallL]
    exact ⟨[], c, rfl, .nil b c⟩
  | cons s ss =>
    simp only [Stmt.liftCallL]
    exact gives_remakes_cons hbc (remakes_liftCall hbc s h.1 hf.1) fun c' hc => remakes_liftCallL hc ss h.2 hf.2

theorem remakes_liftCall_loop {b c : Nat} (hbc : b ≤ c) (ss : List Stmt)
    (h : Stmt.WithinL (Old b) ss) (hf : Stmt.InLoopForm (.straight types) ss) :
    Gives c (Stmt.liftCallL ss) (Remakes b c ss) := by
  cases ss with
  | nil =>
    simp only [Stmt.liftCallL]
    exact ⟨[], c, rfl, .nil b c⟩
  | cons s ss =>
    rcases hf with ⟨hs, hss⟩ | ⟨hs, hss⟩
    · exact remakes_liftCall_note hbc (Stmt.isNote_of_isInvariant hs)
        (remakes_liftCall_loop hbc ss h.2 hss)
    · simp only [Stmt.liftCallL]
      exact gives_remakes_cons hbc (remakes_liftCall hbc s h.1 hs) fun c' hc => remakes_liftCallL hc ss h.2 hss

end

theorem remakes_liftCall_body {c : Nat} {ss : List Stmt} (h : Stmt.WithinL (Old c) ss)
    (hf : Stmt.InBodyForm (.straight types) ss) : Gives c (Stmt.liftCallL ss) (Remakes c c ss) := by
  cases ss with
  | nil =>
    simp only [Stmt.liftCallL]
    exact ⟨[], c, rfl, .nil c c⟩
  | cons s ss =>
    obtain ⟨hs | hs, hss⟩ := hf
    · exact remakes_liftCall_note le_rfl (Stmt.isNote_of_isDocstring hs)
        (remakes_liftCallL le_rfl ss h.2 hss)
    · have hall : Stmt.InFormL (.straight types) false (s :: ss) := ⟨hs, hss⟩
      exact remakes_liftCallL le_rfl (s :: ss) h hall

end

/-! ## all passes -/

/-- **The calls of the normal form.**  A function that the checker accepts, with no variable that is
named like a temporary and no type that is not a plain name, has a normal form.  It ends as the
function does.  It makes exactly the calls of a run of the function that evaluates all operands of
`and`, `or` and chained comparisons: none is lost, and if no call stands in an operand that may be
skipped, none is added. -/
theorem preprocess_calls {f : Function} (hc : f.toStmt.check false false = .ok ())
    (hv : ∀ x ∈ Stmt.variablesL f.body, ¬ IsTemporary x)
    (ha : ∀ u ∈ Stmt.annotationsL f.body, u.isName) :
    ∃ body, f.preprocess = .ok { f with body := body } ∧ ∀ z I n s,
      SameEnd (Old 0) (Stmt.execL z I n f.body s) (Stmt.execL z I n body s) ∧
      Stmt.callsL false z I n body s = Stmt.callsL true z I n f.body s ∧
      Stmt.callsL false z I n f.body s ≤ Stmt.callsL false z I n body s ∧
      (Stmt.PromptL f.body → Stmt.callsL false z I n body s = Stmt.callsL false z I n f.body s) := by
  have hbody : Stmt.WithinL (Old 0) f.body :=
    Function.within_of_check hc (fun x hx => mem_old_of_not_isTemporary (hv x hx) 0) ha
  have hform : Stmt.InBodyForm (.source false fun u => u.isName) f.body :=
    Function.inForm_of_check hc nofun ha
  obtain ⟨body₁, hrun₁, hform₁⟩ := form_augments hform
  obtain ⟨body₁', hrun₁', hbody₁, hexec⟩ := exists_expandAugmentsL f.body hbody
  cases hrun₁.symm.trans hrun₁'
  obtain ⟨body₂, c₂, hrun₂, hform₂⟩ :=
    form_conditionals rfl (fun u hu => liftIf_of_isName hu) hform₁.form 0
  obtain ⟨body₂', c₂', hrun₂', hR₂⟩ := remakes_liftIfL le_rfl body₁ hbody₁
  cases hrun₂.symm.trans hrun₂'
  obtain ⟨body₃, c₃, hrun₃, hform₃⟩ := form_calls hform₂.form c₂
  obtain ⟨body₃', c₃', hrun₃', hR₃⟩ := remakes_liftCall_body hR₂.within hform₂.form
  cases hrun₃.symm.trans hrun₃'
  refine ⟨body₃, preprocess_eq hrun₁ hrun₂ hrun₃, fun z I n s => ?_⟩
  have hR : Remakes 0 0 f.body body₃ c₃ := (hR₂.trans hR₃).congr hexec fun z I n s =>
    congrFun (callsL_expandAugmentsL f.body body₁ hrun₁ hbody) s
  have hcalls : Stmt.callsL false z I n body₃ s = Stmt.callsL true z I n f.body s := by
    rw [(hform₃.form.promptL rfl).callsL_eq body₃]
    exact hR.calls z I n s s fun _ _ => rfl
  refine ⟨hR.alike z I n s s fun _ _ => rfl, hcalls, ?_, fun hp => ?_⟩
  · rw [hcalls]
    exact Stmt.callsL_le f.body s
  · rw [hcalls, hp.callsL_eq f.body]

theorem settle_calls : ∃ body, Settle.function.preprocess = .ok { Settle.function with body := body } ∧
    (∃ t, Stmt.execL id Settle.halve 3 body Settle.start = some (.ret (some (.int (-2))), t)) ∧
    Stmt.callsL false id Settle.halve 3 body Settle.start = Stmt.callsL true id Settle.halve 3 Settle.body Settle.start := by
  have hcheck : Settle.function.toStmt.check false false = .ok () := by rfl
  have hvars : ∀ x ∈ Stmt.variablesL Settle.function.body, ¬ IsTemporary x := by decide +kernel
  have htypes : ∀ u ∈ Stmt.annotationsL Settle.function.body, u.isName := by decide +kernel
  obtain ⟨body, hpre, hall⟩ := preprocess_calls hcheck hvars htypes
  obtain ⟨hend, hcalls, -⟩ := hall id Settle.halve 3 Settle.start
  have hrun : Stmt.execL id Settle.halve 3 Settle.function.body Settle.start = some
    (.ret (some (.int (-2))), _) := rfl
  rw [hrun] at hend
  obtain ⟨t, hrun', -⟩ := hend.exists_some
  exact ⟨body, hpre, ⟨t, hrun'⟩, hcalls⟩

namespace Guarded

/-- `return a and g(1)` -/
def body : List Stmt :=
  [.ret ⟨2, 2⟩ (some (.logic ⟨2, 2⟩ .and [.name ⟨2, 2⟩ "a",
    .call ⟨2, 2⟩ (.name ⟨2, 2⟩ "g") [.constant ⟨2, 2⟩ (.int 1)] []]))]

def function : Function := ⟨⟨1, 2⟩, "f", [.mk ⟨1, 1⟩ "a" none], [], body, [], none⟩

end Guarded

/-- Where `a` is zero the function makes no call, but its normal form does. -/
theorem guarded_called : Guarded.function.toStmt.check false false = .ok () ∧
    (∀ x ∈ Stmt.variablesL Guarded.function.body, ¬ IsTemporary x) ∧ Stmt.annotationsL Guarded.function.body = [] ∧
    ∃ body, Guarded.function.preprocess = .ok { Guarded.function with body := body } ∧
      Stmt.execL id (fun _ _ => .int 5) 0 Guarded.body (fun _ => .int 0) = some (.ret (some (.int 0)), fun _ => .int 0) ∧
      Stmt.callsL false id (fun _ _ => .int 5) 0 Guarded.body (fun _ => .int 0) = 0 ∧
      Stmt.callsL false id (fun _ _ => .int 5) 0 body (fun _ => .int 0) = {("g", [.int 1])} := by
  exact ⟨rfl, by decide +kernel, rfl, _, rfl, rfl, rfl, rfl⟩

end ContractVerifier.Source
