import ContractVerifier.Proofs.Source.Preprocess
import Mathlib.Algebra.Order.Group.Multiset
import Mathlib.Data.Finset.Lattice.Lemmas
import Mathlib.Tactic.Abel

/-!
# The names of a function

The passes over a body put in temporaries and do nothing else to its names.  The targets of
assignments apart, each temporary that is taken is used once, and every other name as often as
before.

* `Names` : the names of a piece of syntax;
* `Hoist.Keeps` : a hoisting computation keeps names, up to the temporaries that it takes;
* `keeps_liftIf_stmts`, `keeps_liftCall_stmts`, `names_expandAugmentsL` : the passes.
-/

namespace ContractVerifier.Source

/-! ## names -/

/-- The names of a piece of syntax.  The target of an assignment shows in `all` only: it may have to
be written more than once. -/
@[ext]
structure Names where
  /-- The names that are used, as often as they are. -/
  uses : Multiset String
  all : Finset String
  mem_all : ∀ x ∈ uses, x ∈ all

namespace Names

instance : Zero Names := ⟨⟨0, ∅, by simp⟩⟩

instance : Add Names where
  add m n :=
    ⟨m.uses + n.uses, m.all ∪ n.all, fun x hx =>
      Finset.mem_union.2 ((Multiset.mem_add.1 hx).imp (m.mem_all x) (n.mem_all x))⟩

theorem uses_add (m n : Names) : (m + n).uses = m.uses + n.uses := rfl

instance : AddCommMonoid Names where
  add_assoc m n k := Names.ext (add_assoc _ _ _) (Finset.union_assoc _ _ _)
  zero_add m := Names.ext (zero_add _) (Finset.empty_union _)
  add_zero m := Names.ext (add_zero _) (Finset.union_empty _)
  add_comm m n := Names.ext (add_comm _ _) (Finset.union_comm _ _)
  nsmul := nsmulRec

def use (x : String) : Names := ⟨{x}, {x}, by simp⟩

/-- The names of a target. -/
def target (n : Names) : Names := ⟨0, n.all, by simp⟩

theorem target_add_target (n : Names) : n.target + n.target = n.target :=
  Names.ext rfl (Finset.union_idempotent _)

theorem add_target (n : Names) : n + n.target = n :=
  Names.ext (add_zero _) (Finset.union_idempotent _)

/-- Each of the names is used once. -/
def ofList (xs : List String) : Names := ⟨xs, xs.toFinset, by simp⟩

theorem ofList_append (xs ys : List String) : ofList (xs ++ ys) = ofList xs + ofList ys :=
  Names.ext (Multiset.coe_add xs ys).symm List.toFinset_append

/-- Distinct names that are added to others, and are not among them. -/
theorem count_uses_add_ofList {n : Names} {xs : List String} (hxs : xs.Nodup) {x : String}
    (hx : x ∈ xs) (hn : x ∉ n.all) :
    (n + ofList xs).uses.count x = 1 := by
  have hzero : n.uses.count x = 0 := Multiset.count_eq_zero.2 fun h => hn (n.mem_all x h)
  have hone : (ofList xs).uses.count x = 1 :=
    (Multiset.coe_count x xs).trans (List.count_eq_one_of_mem hxs hx)
  rw [uses_add, Multiset.count_add, hzero, hone]

end Names

mutual

def Exp.names : Exp → Names
  | .constant .. => 0
  | .name _ x => .use x
  | .unary _ _ e => e.names
  | .binary _ l _ r => l.names + r.names
  | .logic _ _ es => Exp.namesL es
  | .compare _ l _ rs => l.names + Exp.namesL rs
  | .ifElse _ t a b => t.names + a.names + b.names
  | .call _ f args keywords => f.names + Exp.namesL args + Part.namesL keywords
  | .other _ _ ps => Part.namesL ps

def Exp.namesL : List Exp → Names
  | [] => 0
  | e :: es => e.names + Exp.namesL es

def Exp.names? : Option Exp → Names
  | none => 0
  | some e => e.names

def Part.names : Part → Names
  | .exp e | .keyword _ _ e => e.names
  | .stmt s => s.names
  | .node _ _ ps | .list ps => Part.namesL ps
  | .field _ p => p.names
  | .missing | .text _ | .number _ => 0

def Part.namesL : List Part → Names
  | [] => 0
  | p :: ps => p.names + Part.namesL ps

def Param.names : Param → Names
  | .mk _ x u => (Names.use x).target + Exp.names? u

def Param.namesL : List Param → Names
  | [] => 0
  | p :: ps => p.names + Param.namesL ps

/-- A variable that is declared, or that is assigned to by an operator, counts as used. -/
def Stmt.names : Stmt → Names
  | .function _ _ ps more body decorators result =>
    Stmt.namesL body + (Param.namesL ps + Part.namesL more + Exp.namesL decorators + Exp.names? result)
  | .assign _ ts v => v.names + (Exp.namesL ts).target
  | .declare _ t u v => t.names + u.names + Exp.names? v
  | .augment _ t _ v => t.names + v.names
  | .exp _ v => v.names
  | .cond _ t body orElse | .loop _ t body orElse => t.names + Stmt.namesL body + Stmt.namesL orElse
  | .ret _ v => Exp.names? v
  | .pass _ | .brk _ | .cont _ => 0
  | .other _ _ ps => Part.namesL ps

def Stmt.namesL : List Stmt → Names
  | [] => 0
  | s :: ss => s.names + Stmt.namesL ss

end

@[simp] theorem Stmt.namesL_append (ss ts : List Stmt) : Stmt.namesL (ss ++ ts) = Stmt.namesL ss + Stmt.namesL ts := by
  induction ss with
  | nil => simp [Stmt.namesL]
  | cons s ss ih => simp only [List.cons_append, Stmt.namesL, ih, add_assoc]

@[simp] theorem Part.namesL_append (ps qs : List Part) : Part.namesL (ps ++ qs) = Part.namesL ps + Part.namesL qs := by
  induction ps with
  | nil => simp [Part.namesL]
  | cons p ps ih => simp only [List.cons_append, Part.namesL, ih, add_assoc]

theorem Part.namesL_stmts (ss : List Stmt) : Part.namesL (ss.map .stmt) = Stmt.namesL ss := by
  induction ss with
  | nil => simp [Part.namesL, Stmt.namesL]
  | cons s ss ih => simp only [List.map_cons, Part.namesL, Part.names, Stmt.namesL, ih]

theorem Part.namesL_fields (l : String) (ps : List Part) : Part.namesL (ps.map (.field l)) = Part.namesL ps := by
  induction ps with
  | nil => rfl
  | cons p ps ih => simp only [List.map_cons, Part.namesL, Part.names, ih]

/-! ## computations that keep names -/

/-- `k` temporaries from the `c`-th on. -/
def temporaries (c k : Nat) : List String := (List.range' c k).map temporary

theorem temporaries_add (c j k : Nat) : temporaries c (j + k) = temporaries c j ++ temporaries (c + j) k := by
  unfold temporaries
  rw [← List.map_append, List.range'_append_1]

theorem mem_temporaries {c k : Nat} {x : String} (h : x ∈ temporaries c k) : ∃ j, j < c + k ∧ x = temporary j := by
  obtain ⟨j, hj, rfl⟩ := List.mem_map.1 h
  exact ⟨j, (List.mem_range'_1.1 hj).2, rfl⟩

theorem nodup_temporaries (c k : Nat) : (temporaries c k).Nodup :=
  List.Nodup.map (fun _ _ => temporary_inj) List.nodup_range'

namespace Hoist

variable {α β : Type}

/-- Among what waits and what is given back, which has the names `held`, are the names `n` besides
those that waited before, and one use of each temporary that was taken. -/
def Keeps (m : HoistM α) (held : α → Names) (n : Names) : Prop :=
  ∀ st, ∃ k, (m st).2.counter = st.counter + k ∧
    Stmt.namesL (m st).2.pending + held (m st).1 = Stmt.namesL st.pending + n + .ofList (temporaries st.counter k)

section

variable {held : α → Names} {held' : β → Names} {m : HoistM α} {f : α → HoistM β} {n n' r : Names}

theorem Keeps.of_eq (h : Keeps m held n) (hn : n' = n) : Keeps m held n' := hn ▸ h

theorem Keeps.pure {a : α} (h : held a = n) : Keeps (pure a) held n := by
  intro st
  refine ⟨0, rfl, ?_⟩
  rw [run_pure, h]
  exact (add_zero _).symm

/-- While the first computation runs, `r` is left aside. -/
theorem Keeps.bind (hm : Keeps m held n) (hn : n' = n + r)
    (hf : ∀ a, Keeps (f a) held' (held a + r)) :
    Keeps (m >>= f) held' n' := by
  intro st
  obtain ⟨j, hj, hfirst⟩ := hm st
  obtain ⟨k, hk, hthen⟩ := hf (m st).1 (m st).2
  refine ⟨j + k, ?_, ?_⟩
  · rw [run_bind, hk, hj, add_assoc]
  · rw [run_bind, hthen, hj, temporaries_add, Names.ofList_append, hn]
    calc Stmt.namesL (m st).2.pending + (held (m st).1 + r) + .ofList (temporaries (st.counter + j) k)
        = Stmt.namesL (m st).2.pending + held (m st).1 + (r + .ofList (temporaries (st.counter + j) k)) := by abel
      _ = Stmt.namesL st.pending + n + .ofList (temporaries st.counter j) +
            (r + .ofList (temporaries (st.counter + j) k)) := by rw [hfirst]
      _ = _ := by abel

/-- Two computations one after the other. -/
theorem Keeps.map₂ {γ : Type} {held₁ : γ → Names} {m₁ : HoistM γ} {g : α → γ → β}
    (hm : Keeps m held n) (hm₁ : Keeps m₁ held₁ n') (h : ∀ a c, held' (g a c) = held a + held₁ c) :
    Keeps (do
      let a ← m
      let c ← m₁
      return g a c) held' (n + n') := by
  refine hm.bind rfl fun a => hm₁.bind (r := held a) (add_comm _ _) fun c => .pure ?_
  rw [h, add_comm]

theorem keeps_fresh : Keeps fresh Names.use 0 := fun st => ⟨1, rfl, by rw [add_zero]; rfl⟩

theorem keeps_push (ss : List Stmt) : Keeps (push ss) (fun _ => 0) (Stmt.namesL ss) := by
  intro st
  refine ⟨0, rfl, ?_⟩
  show Stmt.namesL (st.pending ++ ss) + 0 = _ + 0
  rw [Stmt.namesL_append]

theorem keeps_takeAll : Keeps takeAll Stmt.namesL 0 := by
  intro st
  refine ⟨0, rfl, ?_⟩
  show 0 + Stmt.namesL st.pending = Stmt.namesL st.pending + 0 + 0
  abel

/-- A conditional statement behind what was moved out of its test. -/
theorem Keeps.cond {sp : Span} {mt : HoistM Exp} {mb mo : HoistM (List Stmt)} {t b o : Names}
    (ht : Keeps mt Exp.names t) (hb : Keeps mb Stmt.namesL b) (ho : Keeps mo Stmt.namesL o) :
    Keeps (do
      let t ← mt
      let before ← takeAll
      let body ← mb
      let orElse ← mo
      return before ++ [.cond sp t body orElse]) Stmt.namesL (t + b + o) := by
  refine ht.bind (r := b + o) (by abel) fun t' => ?_
  refine keeps_takeAll.bind (r := t'.names + b + o) (by abel) fun before => ?_
  refine hb.bind (r := Stmt.namesL before + t'.names + o) (by abel) fun body => ?_
  refine ho.bind (r := Stmt.namesL before + t'.names + Stmt.namesL body)
    (by abel) fun orElse => .pure ?_
  simp only [Stmt.namesL_append, Stmt.namesL, Stmt.names]
  abel

/-- Statements behind what was moved out of the first one. -/
theorem Keeps.cons {ms mss : HoistM (List Stmt)} (hs : Keeps ms Stmt.namesL n)
    (hss : Keeps mss Stmt.namesL n') :
    Keeps (do
      let s ← ms
      let before ← takeAll
      let ss ← mss
      return before ++ s ++ ss) Stmt.namesL (n + n') := by
  refine hs.bind rfl fun s => ?_
  refine keeps_takeAll.bind (r := Stmt.namesL s + n') (by abel) fun before => ?_
  refine hss.bind (r := Stmt.namesL before + Stmt.namesL s) (by abel) fun ss => .pure ?_
  simp only [Stmt.namesL_append]
  abel

end

end Hoist

open Hoist

/-! ## conditional expressions -/

theorem keeps_choose (sp : Span) {test arm₁ arm₂ : HoistM Exp} {t a b : Names}
    (ht : Keeps test Exp.names t) (ha : Keeps arm₁ (fun _ => 0) a)
    (hb : Keeps arm₂ (fun _ => 0) b) :
    Keeps (choose sp test arm₁ arm₂) Stmt.names (t + a + b) := by
  unfold choose
  refine ht.bind (r := a + b) (by abel) fun t' => ?_
  refine keeps_takeAll.bind (r := t'.names + a + b) (by abel) fun before => ?_
  refine ha.bind (r := t'.names + Stmt.namesL before + b) (by abel) fun _ => ?_
  refine keeps_takeAll.bind (r := t'.names + Stmt.namesL before + b) (by abel) fun body => ?_
  refine hb.bind (r := t'.names + Stmt.namesL before + Stmt.namesL body) (by abel) fun _ => ?_
  refine keeps_takeAll.bind (r := t'.names + Stmt.namesL before + Stmt.namesL body)
    (by abel) fun orElse => ?_
  refine (keeps_push before).bind (r := t'.names + Stmt.namesL body + Stmt.namesL orElse)
    (by abel) fun _ => ?_
  refine .pure ?_
  simp only [Stmt.names]
  abel

/-- An expression is handed back, or goes into a statement that has the names `w` besides. -/
inductive Takes : Option (Exp → Stmt) → (Exp → Names) → Names → Prop
  | bare : Takes none Exp.names 0
  | wrapped {wrap : Exp → Stmt} {w : Names} (h : ∀ e, (wrap e).names = e.names + w) (hw : w + w = w) :
    Takes (some wrap) (fun _ => 0) w

theorem takes_assign (sp : Span) (ts : List Exp) :
    Takes (some (.assign sp ts)) (fun _ => 0) (Exp.namesL ts).target :=
  .wrapped (fun e => by simp only [Stmt.names]) (Names.target_add_target _)

theorem takes_assignTo (x : String) (sp : Span) :
    Takes (some (assignTo x sp)) (fun _ => 0) (Names.use x).target :=
  .wrapped (fun e => by simp only [assignTo, Stmt.names, Exp.namesL, Exp.names, add_zero]) (Names.target_add_target _)

theorem takes_ret (sp : Span) : Takes (some fun v => .ret sp (some v)) (fun _ => 0) 0 :=
  .wrapped (fun e => by simp only [Stmt.names, Exp.names?, add_zero]) (add_zero 0)

theorem Takes.keeps_finish {wrap : Option (Exp → Stmt)} {held : Exp → Names} {w : Names}
    (h : Takes wrap held w) (e : Exp) :
    Keeps (finish wrap e) held (e.names + w) := by
  cases h with
  | bare => exact .pure (add_zero _).symm
  | wrapped h _ =>
    refine (keeps_push _).bind (r := 0) ?_ fun _ => .pure (add_zero 0).symm
    simp only [Stmt.namesL, h]
    abel

mutual

theorem keeps_liftIf (e : Exp) {wrap : Option (Exp → Stmt)} {held : Exp → Names} {w : Names}
    (h : Takes wrap held w) :
    Keeps (e.liftIf wrap) held (e.names + w) := by
  cases e with
  | constant sp c =>
    simp only [Exp.liftIf]
    exact h.keeps_finish _
  | name sp x =>
    simp only [Exp.liftIf]
    exact h.keeps_finish _
  | unary sp op e =>
    simp only [Exp.liftIf, Exp.names]
    refine (keeps_liftIf e .bare).bind (r := w) (by abel) fun e' => ?_
    exact (h.keeps_finish _).of_eq (by simp only [Exp.names])
  | binary sp l op r =>
    simp only [Exp.liftIf, Exp.names]
    refine (keeps_liftIf l .bare).bind (r := r.names + w) (by abel) fun l' => ?_
    refine (keeps_liftIf r .bare).bind (r := l'.names + w) (by abel) fun r' => ?_
    exact (h.keeps_finish _).of_eq (by simp only [Exp.names]; abel)
  | logic sp op es =>
    simp only [Exp.liftIf, Exp.names]
    refine (keeps_liftIfL es).bind (r := w) (by abel) fun es' => ?_
    exact (h.keeps_finish _).of_eq (by simp only [Exp.names])
  | compare sp l ops rs =>
    simp only [Exp.liftIf, Exp.names]
    refine (keeps_liftIf l .bare).bind (r := Exp.namesL rs + w) (by abel) fun l' => ?_
    refine (keeps_liftIfL rs).bind (r := l'.names + w) (by abel) fun rs' => ?_
    exact (h.keeps_finish _).of_eq (by simp only [Exp.names]; abel)
  | ifElse sp t a b =>
    cases h with
    | bare =>
      simp only [Exp.liftIf, Exp.names]
      refine keeps_fresh.bind (r := t.names + a.names + b.names) (by abel) fun x => ?_
      have hs := keeps_choose sp (keeps_liftIf t .bare) (keeps_liftIf a (takes_assignTo x a.span))
        (keeps_liftIf b (takes_assignTo x b.span))
      -- both arms assign to the temporary, which is used behind them
      have hx : Names.use x = Names.use x + (Names.use x).target + (Names.use x).target := by
        rw [Names.add_target, Names.add_target]
      refine hs.bind (r := Names.use x) (by nth_rewrite 1 [hx]; abel) fun s => ?_
      refine (keeps_push [s]).bind (r := Names.use x)
        (by simp only [Stmt.namesL]; abel) fun _ => .pure ?_
      simp only [Exp.names, zero_add]
    | wrapped h hw =>
      simp only [Exp.liftIf, Exp.names]
      have hs := keeps_choose sp (keeps_liftIf t .bare) (keeps_liftIf a (.wrapped h hw))
        (keeps_liftIf b (.wrapped h hw))
      refine hs.bind (r := 0) (by nth_rewrite 1 [← hw]; abel) fun s => ?_
      exact (keeps_push [s]).bind (r := 0)
        (by simp only [Stmt.namesL]; abel) fun _ => .pure (add_zero 0).symm
  | call sp f args keywords =>
    simp only [Exp.liftIf, Exp.names]
    refine (keeps_liftIf f .bare).bind (r := Exp.namesL args + Part.namesL keywords + w)
      (by abel) fun f' => ?_
    refine (keeps_liftIfL args).bind (r := f'.names + Part.namesL keywords + w)
      (by abel) fun args' => ?_
    refine (keeps_liftIfP keywords).bind (r := f'.names + Exp.namesL args' + w)
      (by abel) fun keywords' => ?_
    exact (h.keeps_finish _).of_eq (by simp only [Exp.names]; abel)
  | other sp k ps =>
    simp only [Exp.liftIf, Exp.names]
    refine (keeps_liftIfP ps).bind (r := w) (by abel) fun ps' => ?_
    exact (h.keeps_finish _).of_eq (by simp only [Exp.names])

theorem keeps_liftIfL (es : List Exp) : Keeps (Exp.liftIfL es) Exp.namesL (Exp.namesL es) := by
  cases es with
  | nil =>
    simp only [Exp.liftIfL]
    exact .pure rfl
  | cons e es =>
    simp only [Exp.liftIfL, Exp.namesL]
    exact ((keeps_liftIf e .bare).map₂ (keeps_liftIfL es) fun _ _ => by simp only [Exp.namesL]).of_eq (by abel)

theorem keeps_liftIf_part (p : Part) : Keeps p.liftIf Part.namesL p.names := by
  cases p with
  | exp e =>
    simp only [Part.liftIf, Part.names]
    exact (keeps_liftIf e .bare).bind (r := 0)
      (by abel) fun e' => .pure (by simp only [Part.namesL, Part.names])
  | stmt s =>
    simp only [Part.liftIf, Part.names]
    exact (keeps_liftIf_stmt s).bind (r := 0)
      (by abel) fun ss => .pure (by rw [Part.namesL_stmts, add_zero])
  | keyword sp x e =>
    simp only [Part.liftIf, Part.names]
    exact (keeps_liftIf e .bare).bind (r := 0)
      (by abel) fun e' => .pure (by simp only [Part.namesL, Part.names])
  | node k sp ps =>
    simp only [Part.liftIf, Part.names]
    exact (keeps_liftIfP ps).bind (r := 0)
      (by abel) fun ps' => .pure (by simp only [Part.namesL, Part.names])
  | list ps =>
    simp only [Part.liftIf, Part.names]
    exact (keeps_liftIfP ps).bind (r := 0)
      (by abel) fun ps' => .pure (by simp only [Part.namesL, Part.names])
  | field l p =>
    simp only [Part.liftIf, Part.names]
    exact (keeps_liftIf_part p).bind (r := 0)
      (by abel) fun ps => .pure (by rw [Part.namesL_fields, add_zero])
  | missing | text | number =>
    simp only [Part.liftIf]
    exact .pure (add_zero _)

theorem keeps_liftIfP (ps : List Part) : Keeps (Part.liftIfL ps) Part.namesL (Part.namesL ps) := by
  cases ps with
  | nil =>
    simp only [Part.liftIfL]
    exact .pure rfl
  | cons p ps =>
    simp only [Part.liftIfL, Part.namesL]
    exact (keeps_liftIf_part p).map₂ (keeps_liftIfP ps) Part.namesL_append

theorem keeps_liftIf_stmt (s : Stmt) : Keeps s.liftIf Stmt.namesL s.names := by
  cases s with
  | assign sp ts v =>
    simp only [Stmt.liftIf, Stmt.names]
    split
    · exact (keeps_liftIf v (takes_assign sp ts)).bind (r := 0)
        (by abel) fun _ => .pure (add_zero 0).symm
    · refine (keeps_liftIf v .bare).bind (r := (Exp.namesL ts).target) (by abel) fun v' => .pure ?_
      simp only [Stmt.namesL, Stmt.names, add_zero]
  | ret sp v =>
    cases v with
    | none =>
      simp only [Stmt.liftIf]
      exact .pure (add_zero _)
    | some v =>
      simp only [Stmt.liftIf, Stmt.names, Exp.names?]
      split
      · exact (keeps_liftIf v (takes_ret sp)).bind (r := 0)
          (by abel) fun _ => .pure (add_zero 0).symm
      · refine (keeps_liftIf v .bare).bind (r := 0) (by abel) fun v' => .pure ?_
        simp only [Stmt.namesL, Stmt.names, Exp.names?]
  | cond sp t body orElse =>
    simp only [Stmt.liftIf, Stmt.names]
    exact ((keeps_liftIf t .bare).cond (keeps_liftIf_stmts body) (keeps_liftIf_stmts orElse)).of_eq
      (by abel)
  | loop sp t body orElse =>
    simp only [Stmt.liftIf, Stmt.names]
    refine (keeps_liftIf_stmts body).bind (r := t.names + Stmt.namesL orElse)
      (by abel) fun body' => .pure ?_
    simp only [Stmt.namesL, Stmt.names]
    abel
  | function sp x ps more body decorators result =>
    simp only [Stmt.liftIf, Stmt.names]
    refine (keeps_liftIf_stmts body).bind rfl fun body' => .pure ?_
    simp only [Stmt.namesL, Stmt.names, add_zero]
  | declare sp t u v =>
    cases v with
    | none =>
      simp only [Stmt.liftIf, Stmt.names, Exp.names?]
      refine ((keeps_liftIf t .bare).map₂ (keeps_liftIf u .bare) fun _ _ => ?_).of_eq (by abel)
      simp only [Stmt.namesL, Stmt.names, Exp.names?, add_zero]
    | some v =>
      simp only [Stmt.liftIf, Stmt.names, Exp.names?]
      refine (keeps_liftIf t .bare).bind (r := u.names + v.names) (by abel) fun t' => ?_
      refine (keeps_liftIf u .bare).bind (r := t'.names + v.names) (by abel) fun u' => ?_
      refine (keeps_liftIf v .bare).bind (r := t'.names + u'.names) (by abel) fun v' => .pure ?_
      simp only [Stmt.namesL, Stmt.names, Exp.names?]
      abel
  | augment sp t op v =>
    simp only [Stmt.liftIf, Stmt.names]
    refine ((keeps_liftIf t .bare).map₂ (keeps_liftIf v .bare) fun _ _ => ?_).of_eq (by abel)
    simp only [Stmt.namesL, Stmt.names, add_zero]
  | exp sp v =>
    simp only [Stmt.liftIf, Stmt.names]
    exact (keeps_liftIf v .bare).bind (r := 0)
      (by abel) fun v' => .pure (by simp only [Stmt.namesL, Stmt.names])
  | other sp k ps =>
    simp only [Stmt.liftIf, Stmt.names]
    exact (keeps_liftIfP ps).bind (r := 0)
      (by abel) fun ps' => .pure (by simp only [Stmt.namesL, Stmt.names])
  | pass | brk | cont =>
    simp only [Stmt.liftIf]
    exact .pure (add_zero _)

theorem keeps_liftIf_stmts (ss : List Stmt) : Keeps (Stmt.liftIfL ss) Stmt.namesL (Stmt.namesL ss) := by
  cases ss with
  | nil =>
    simp only [Stmt.liftIfL]
    exact .pure rfl
  | cons s ss =>
    simp only [Stmt.liftIfL, Stmt.namesL]
    exact (keeps_liftIf_stmt s).cons (keeps_liftIf_stmts ss)

end

/-! ## nested calls -/

mutual

theorem keeps_liftCall (e : Exp) (whole : Bool) : Keeps (e.liftCall whole) Exp.names e.names := by
  cases e with
  | constant sp c =>
    simp only [Exp.liftCall]
    exact .pure rfl
  | name sp x =>
    simp only [Exp.liftCall]
    exact .pure rfl
  | unary sp op e =>
    simp only [Exp.liftCall, Exp.names]
    exact (keeps_liftCall e false).bind (r := 0)
      (by abel) fun e' => .pure (by simp only [Exp.names, add_zero])
  | binary sp l op r =>
    simp only [Exp.liftCall, Exp.names]
    exact (keeps_liftCall l false).map₂ (keeps_liftCall r false) fun _ _ => by simp only [Exp.names]
  | logic sp op es =>
    simp only [Exp.liftCall, Exp.names]
    exact (keeps_liftCallL es).bind (r := 0)
      (by abel) fun es' => .pure (by simp only [Exp.names, add_zero])
  | compare sp l ops rs =>
    simp only [Exp.liftCall, Exp.names]
    exact (keeps_liftCall l false).map₂ (keeps_liftCallL rs) fun _ _ => by simp only [Exp.names]
  | ifElse sp t a b =>
    simp only [Exp.liftCall, Exp.names]
    refine (keeps_liftCall t false).bind (r := a.names + b.names) (by abel) fun t' => ?_
    refine (keeps_liftCall a false).bind (r := t'.names + b.names) (by abel) fun a' => ?_
    refine (keeps_liftCall b false).bind (r := t'.names + a'.names) (by abel) fun b' => .pure ?_
    simp only [Exp.names]
    abel
  | call sp f args keywords =>
    simp only [Exp.liftCall, Exp.names]
    refine (keeps_liftCallL args).bind (r := f.names + Part.namesL keywords)
      (by abel) fun args' => ?_
    split
    · refine .pure ?_
      simp only [Exp.names]
      abel
    · refine keeps_fresh.bind (r := f.names + Exp.namesL args' + Part.namesL keywords)
        (by abel) fun x => ?_
      refine (keeps_push _).bind (r := Names.use x)
        ?_ fun _ => .pure (by simp only [Exp.names, zero_add])
      -- the temporary is assigned to once, and used in place of the call
      simp only [Stmt.namesL, assignTo, Stmt.names, Exp.namesL, Exp.names, add_zero]
      nth_rewrite 1 [← Names.add_target (.use x)]
      abel
  | other sp k ps =>
    simp only [Exp.liftCall, Exp.names]
    exact (keeps_liftCallP ps).bind (r := 0)
      (by abel) fun ps' => .pure (by simp only [Exp.names, add_zero])

theorem keeps_liftCallL (es : List Exp) : Keeps (Exp.liftCallL es) Exp.namesL (Exp.namesL es) := by
  cases es with
  | nil =>
    simp only [Exp.liftCallL]
    exact .pure rfl
  | cons e es =>
    simp only [Exp.liftCallL, Exp.namesL]
    exact (keeps_liftCall e false).map₂ (keeps_liftCallL es) fun _ _ => by simp only [Exp.namesL]

theorem keeps_liftCall_part (p : Part) : Keeps p.liftCall Part.namesL p.names := by
  cases p with
  | exp e =>
    simp only [Part.liftCall, Part.names]
    exact (keeps_liftCall e false).bind (r := 0)
      (by abel) fun e' => .pure (by simp only [Part.namesL, Part.names])
  | stmt s =>
    simp only [Part.liftCall, Part.names]
    exact (keeps_liftCall_stmt s).bind (r := 0)
      (by abel) fun ss => .pure (by rw [Part.namesL_stmts, add_zero])
  | keyword sp x e =>
    simp only [Part.liftCall, Part.names]
    exact (keeps_liftCall e false).bind (r := 0)
      (by abel) fun e' => .pure (by simp only [Part.namesL, Part.names])
  | node k sp ps =>
    simp only [Part.liftCall, Part.names]
    exact (keeps_liftCallP ps).bind (r := 0)
      (by abel) fun ps' => .pure (by simp only [Part.namesL, Part.names])
  | list ps =>
    simp only [Part.liftCall, Part.names]
    exact (keeps_liftCallP ps).bind (r := 0)
      (by abel) fun ps' => .pure (by simp only [Part.namesL, Part.names])
  | field l p =>
    simp only [Part.liftCall, Part.names]
    exact (keeps_liftCall_part p).bind (r := 0)
      (by abel) fun ps => .pure (by rw [Part.namesL_fields, add_zero])
  | missing | text | number =>
    simp only [Part.liftCall]
    exact .pure (add_zero _)

theorem keeps_liftCallP (ps : List Part) : Keeps (Part.liftCallL ps) Part.namesL (Part.namesL ps) := by
  cases ps with
  | nil =>
    simp only [Part.liftCallL]
    exact .pure rfl
  | cons p ps =>
    simp only [Part.liftCallL, Part.namesL]
    exact (keeps_liftCall_part p).map₂ (keeps_liftCallP ps) Part.namesL_append

theorem keeps_liftCall_stmt (s : Stmt) : Keeps s.liftCall Stmt.namesL s.names := by
  cases s with
  | assign sp ts v =>
    simp only [Stmt.liftCall, Stmt.names]
    refine (keeps_liftCall v true).bind rfl fun v' => .pure ?_
    simp only [Stmt.namesL, Stmt.names, add_zero]
  | declare sp t u v =>
    cases v with
    | none =>
      simp only [Stmt.liftCall]
      exact .pure (add_zero _)
    | some v =>
      simp only [Stmt.liftCall, Stmt.names, Exp.names?]
      refine (keeps_liftCall v true).bind (r := t.names + u.names) (by abel) fun v' => .pure ?_
      simp only [Stmt.namesL, Stmt.names, Exp.names?]
      abel
  | exp sp v =>
    simp only [Stmt.liftCall]
    split
    · exact (keeps_liftCall v true).bind (r := 0)
        (add_zero _).symm fun v' => .pure (by simp only [Stmt.namesL, Stmt.names])
    · exact .pure (add_zero _)
  | ret sp v =>
    cases v with
    | none =>
      simp only [Stmt.liftCall]
      exact .pure (add_zero _)
    | some v =>
      simp only [Stmt.liftCall, Stmt.names, Exp.names?]
      refine (keeps_liftCall v false).bind (r := 0) (by abel) fun v' => .pure ?_
      simp only [Stmt.namesL, Stmt.names, Exp.names?]
  | cond sp t body orElse =>
    simp only [Stmt.liftCall, Stmt.names]
    exact (keeps_liftCall t false).cond (keeps_liftCall_stmts body) (keeps_liftCall_stmts orElse)
  | loop sp t body orElse =>
    simp only [Stmt.liftCall, Stmt.names]
    refine (keeps_liftCall_stmts body).bind (r := t.names + Stmt.namesL orElse)
      (by abel) fun body' => .pure ?_
    simp only [Stmt.namesL, Stmt.names]
    abel
  | function sp x ps more body decorators result =>
    simp only [Stmt.liftCall, Stmt.names]
    refine (keeps_liftCall_stmts body).bind rfl fun body' => .pure ?_
    simp only [Stmt.namesL, Stmt.names, add_zero]
  | augment sp t op v =>
    simp only [Stmt.liftCall, Stmt.names]
    exact (keeps_liftCall t false).map₂
      (keeps_liftCall v false) fun _ _ => by simp only [Stmt.namesL, Stmt.names, add_zero]
  | other sp k ps =>
    simp only [Stmt.liftCall, Stmt.names]
    exact (keeps_liftCallP ps).bind (r := 0)
      (by abel) fun ps' => .pure (by simp only [Stmt.namesL, Stmt.names])
  | pass | brk | cont =>
    simp only [Stmt.liftCall]
    exact .pure (add_zero _)

theorem keeps_liftCall_stmts (ss : List Stmt) : Keeps (Stmt.liftCallL ss) Stmt.namesL (Stmt.namesL ss) := by
  cases ss with
  | nil =>
    simp only [Stmt.liftCallL]
    exact .pure rfl
  | cons s ss =>
    simp only [Stmt.liftCallL, Stmt.namesL]
    exact (keeps_liftCall_stmt s).cons (keeps_liftCall_stmts ss)

end

/-! ## augmented assignments -/

mutual

theorem names_expandAugments (s : Stmt) {s' : Stmt} (h : s.expandAugments = .ok s') : s'.names = s.names := by
  cases s with
  | augment sp t op v =>
    cases t with
    | name nsp x =>
      cases h
      simp only [Stmt.names, Exp.names, Exp.namesL, add_zero]
      rw [add_right_comm (Names.use x), Names.add_target]
    | _ => cases h
  | function sp x ps more body decorators result =>
    obtain ⟨body', hbody, h⟩ := exists_of_bind_ok h
    cases h
    simp only [Stmt.names, names_expandAugmentsL body hbody]
  | cond sp t body orElse =>
    obtain ⟨body', hbody, h⟩ := exists_of_bind_ok h
    obtain ⟨orElse', hother, h⟩ := exists_of_bind_ok h
    cases h
    simp only [Stmt.names, names_expandAugmentsL body hbody, names_expandAugmentsL orElse hother]
  | loop sp t body orElse =>
    obtain ⟨body', hbody, h⟩ := exists_of_bind_ok h
    obtain ⟨orElse', hother, h⟩ := exists_of_bind_ok h
    cases h
    simp only [Stmt.names, names_expandAugmentsL body hbody, names_expandAugmentsL orElse hother]
  | other sp k ps =>
    obtain ⟨ps', hps, h⟩ := exists_of_bind_ok h
    cases h
    simp only [Stmt.names, names_expandAugmentsP ps hps]
  | _ => cases h; rfl
termination_by structural s

theorem names_expandAugmentsL (ss : List Stmt) {ss' : List Stmt}
    (h : Stmt.expandAugmentsL ss = .ok ss') :
    Stmt.namesL ss' = Stmt.namesL ss := by
  cases ss with
  | nil =>
    cases h
    rfl
  | cons s ss =>
    obtain ⟨s', hs, h⟩ := exists_of_bind_ok h
    obtain ⟨ss', hss, h⟩ := exists_of_bind_ok h
    cases h
    simp only [Stmt.namesL, names_expandAugments s hs, names_expandAugmentsL ss hss]
termination_by structural ss

theorem names_expandAugments_part (p : Part) {p' : Part} (h : p.expandAugments = .ok p') : p'.names = p.names := by
  cases p with
  | stmt s =>
    obtain ⟨s', hs, h⟩ := exists_of_bind_ok h
    cases h
    simp only [Part.names, names_expandAugments s hs]
  | node k sp ps =>
    obtain ⟨ps', hps, h⟩ := exists_of_bind_ok h
    cases h
    simp only [Part.names, names_expandAugmentsP ps hps]
  | list ps =>
    obtain ⟨ps', hps, h⟩ := exists_of_bind_ok h
    cases h
    simp only [Part.names, names_expandAugmentsP ps hps]
  | field l p =>
    obtain ⟨p', hp, h⟩ := exists_of_bind_ok h
    cases h
    simp only [Part.names, names_expandAugments_part p hp]
  | _ => cases h; rfl
termination_by structural p

theorem names_expandAugmentsP (ps : List Part) {ps' : List Part}
    (h : Part.expandAugmentsL ps = .ok ps') :
    Part.namesL ps' = Part.namesL ps := by
  cases ps with
  | nil =>
    cases h
    rfl
  | cons p ps =>
    obtain ⟨p', hp, h⟩ := exists_of_bind_ok h
    obtain ⟨ps', hps, h⟩ := exists_of_bind_ok h
    cases h
    simp only [Part.namesL, names_expandAugments_part p hp, names_expandAugmentsP ps hps]
termination_by structural ps

end

end ContractVerifier.Source
