import ContractVerifier.Proofs.Flow.Dominance
import ContractVerifier.Proofs.Lower.Loops
import ContractVerifier.Proofs.Program.Annotations
import ContractVerifier.Proofs.Program.Contracts
import ContractVerifier.Proofs.Source.Normal
import ContractVerifier.Proofs.Wp.Coverage

/-!
# Loops of lowered functions

The closing edges of a lowered function come from its loops: each leads from the body of one to the
header.  The header dominates the body, so that this holds for any order in which a search takes the
edges.

* `Loop.Returns` : from the body to the header;
* `Laid.reducible` : all other edges go forward in the text;
* `lower_loops` : the closing edges, the headers and what is missing there.
-/

namespace ContractVerifier

open ContractVerifier.Flow Source Build Wp

/-! ## positions -/

theorem idxOf_lt_of_sublist {o : List Nat} {i j : Nat} (ho : o.Nodup) (h : [i, j].Sublist o) : o.idxOf i < o.idxOf j := by
  obtain ⟨front, back, rfl, hi, hj⟩ := List.cons_sublist_iff.1 h
  have hj : j ∈ back := List.singleton_sublist.1 hj
  have hfront : j ∉ front := fun hm => (List.nodup_append.1 ho).2.2 j hm j hj rfl
  have hlt : front.idxOf i < front.length := List.idxOf_lt_length_of_mem hi
  rw [List.idxOf_append_of_mem hi, List.idxOf_append_of_notMem hfront]
  omega

/-! ## the graph of a body -/

namespace Source

/-- From a block of the body to the header. -/
def Loop.Returns (l : Loop) (u v : Node) : Prop := ∃ i : Nat, u = i ∧ l.Contains i ∧ v = l.head

/-- The invariants at the start of the body. -/
def Loop.markers (l : Loop) : List Stmt := l.body.takeWhile Stmt.isInvariant

/-- A block of the body that can be reached goes back to the header. -/
def Loop.Iterates (l : Loop) (g : Graph) : Prop :=
  ∃ i : Nat, l.Contains i ∧ g.Reaches i ∧ g.Edge i l.head

namespace Laid

variable {body : List Stmt} {t : Table} {g : Graph} {u v : Node}

theorem nodup (h : Laid body t g) : (0 :: Stmt.orderL 1 body).Nodup := by
  refine List.nodup_cons.2 ⟨fun hm => ?_, h.spans.nodup⟩
  have := h.spans.blocks 0 hm
  omega

theorem jump (h : Laid body t g) (hv : g.Valid) (hu : g.Reaches u) (he : g.Edge u v) :
    ∃ i j : Nat, u = i ∧ v = j ∧ Jump (0 :: Stmt.orderL 1 body) (Stmt.loopsL 1 body) [] i j := by
  obtain ⟨i, rfl⟩ := Int.eq_ofNat_of_zero_le (hv.isIndex hu).1
  obtain ⟨j, hj, hjump⟩ := h.jumps i v he
  exact ⟨i, j, rfl, hj, hjump⟩

/-- A loop is entered at its header only. -/
theorem dominates (h : Laid body t g) (hv : g.Valid) {l : Loop} (hl : l ∈ Stmt.loopsL 1 body)
    {i : Nat} (hi : l.Contains i) :
    g.Dominates l.head i := by
  have hhead := (h.spans.heads l hl).1
  refine Graph.dominates_of_entered (S := fun u => ∃ i : Nat, u = i ∧ l.Contains i) ?_ ?_ ⟨i, rfl, hi⟩
  · rintro ⟨k, hk, hc⟩
    have hzero : (0 : Int) = k := h.entry ▸ hk
    have := hc.bounds
    omega
  · rintro u v hu he ⟨k, rfl, hk⟩
    obtain ⟨i, j, rfl, hj, hjump⟩ := h.jump hv hu he
    cases Int.ofNat.inj hj
    rcases hjump.enters l hl hk with hi | rfl
    · exact .inl ⟨i, rfl, hi⟩
    · exact .inr rfl

theorem reducible (h : Laid body t g) (hv : g.Valid) :
    g.Reducible (fun u v => ∃ l ∈ Stmt.loopsL 1 body, l.Returns u v)
      fun u => (0 :: Stmt.orderL 1 body).idxOf u.toNat := by
  refine ⟨fun u v hu he => ?_, fun u v hu he => ?_⟩
  · rintro ⟨l, hl, i, rfl, hi, rfl⟩
    exact h.dominates hv hl hi
  · obtain ⟨i, j, rfl, rfl, hjump⟩ := h.jump hv hu he
    rcases hjump.target with hsub | ⟨l, hl, hi, rfl⟩ | ⟨p, hp, -⟩
    · exact .inr (idxOf_lt_of_sublist h.nodup hsub)
    · exact .inl ⟨l, hl, i, rfl, hi, rfl⟩
    · cases hp

theorem isHeader_iff (h : Laid body t g) (hv : g.Valid) :
    g.IsHeader v ↔ ∃ l ∈ Stmt.loopsL 1 body, v = l.head ∧ l.Iterates g := by
  obtain ⟨edges, he⟩ := Graph.exists_backEdges hv
  have hmem := fun u v => (h.reducible hv).mem_backEdges (u := u) (v := v) he
  constructor
  · rintro ⟨edges', u, he', hm⟩
    cases he.symm.trans he'
    obtain ⟨hu, huv, l, hl, i, rfl, hi, rfl⟩ := (hmem u v).1 hm
    exact ⟨l, hl, rfl, i, hi, hu, huv⟩
  · rintro ⟨l, hl, rfl, i, hi, hu, huv⟩
    exact ⟨edges, i, he, (hmem i l.head).2 ⟨hu, huv, l, hl, i, rfl, hi, rfl⟩⟩

end Laid

/-- A header has no invariant if the body starts with none. -/
theorem Loop.Headed.lacksInvariant_iff {t : Table} {g : Graph} {l : Loop}
    (h : l.Headed t g.blocks) :
    g.lacksInvariant l.head = true ↔ leadingInvariants l.body = [] := by
  obtain ⟨k, hk, -, -, -, es, hes, hinv⟩ := h
  have hlacks : g.lacksInvariant l.head = true ↔ k.invariant = none := by
    unfold Graph.lacksInvariant
    rw [Graph.block?_natCast, hk]
    exact Option.isNone_iff_eq_none
  have hempty : leadingInvariants l.body = [] ↔ es = [] := by
    rw [← List.length_eq_zero_iff, List.Forall₂.length_eq hes, List.length_eq_zero_iff]
  rw [hlacks, hempty]
  rcases hinv with ⟨he, hk⟩ | ⟨hne, e, -, -, hk⟩
  · exact ⟨fun _ => he, fun _ => hk⟩
  · rw [hk]
    refine ⟨fun h => ?_, fun h => absurd h hne⟩
    cases h

/-! ## invariants of the text -/

section

variable {φ : BodyForm}

theorem markers_note (n : Nat) {s : Stmt} (h : s.isNote) :
    (s.loops n).map Loop.markers = s.markers := by
  obtain ⟨sp, v, rfl⟩ := Stmt.eq_exp_of_isNote h
  rfl

mutual

theorem markers_loops {inLoop : Bool} (n : Nat) (s : Stmt) (h : s.InForm φ inLoop) :
    (s.loops n).map Loop.markers = s.markers := by
  cases s with
  | cond sp t body orElse =>
    obtain ⟨-, -, hbody, horElse⟩ := h
    rw [Stmt.loops, List.map_append, markers_loopsL _ body hbody, markers_loopsL _ orElse horElse,
      Stmt.markers]
  | loop sp t body orElse =>
    obtain ⟨-, rfl, hbody⟩ := h
    rw [Stmt.loops, List.map_cons, markers_loopBody _ body hbody, Stmt.markers, Stmt.markersL,
      List.append_nil, Loop.markers]
  | assign | declare | augment | exp | ret | pass | brk | cont | function | other => rfl

theorem markers_loopsL {inLoop : Bool} (n : Nat) (ss : List Stmt) (h : Stmt.InFormL φ inLoop ss) :
    (Stmt.loopsL n ss).map Loop.markers = Stmt.markersL ss := by
  cases ss with
  | nil => rfl
  | cons s ss => rw [Stmt.loopsL, List.map_append, markers_loops n s h.1, markers_loopsL _ ss h.2, Stmt.markersL]

theorem markers_loopBody (n : Nat) (ss : List Stmt) (h : Stmt.InLoopForm φ ss) :
    (Stmt.loopsL n ss).map Loop.markers = Stmt.markersL ss := by
  cases ss with
  | nil => rfl
  | cons s ss =>
    rw [Stmt.loopsL, List.map_append, Stmt.markersL]
    rcases h with ⟨hs, hss⟩ | ⟨hs, hss⟩
    · rw [markers_note n (Stmt.isNote_of_isInvariant hs), markers_loopBody _ ss hss]
    · rw [markers_loops n s hs, markers_loopsL _ ss hss]

end

theorem markers_loops_body (n : Nat) {ss : List Stmt} (h : Stmt.InBodyForm φ ss) :
    (Stmt.loopsL n ss).map Loop.markers = Stmt.markersL ss := by
  cases ss with
  | nil => rfl
  | cons s ss =>
    obtain ⟨hs, hss⟩ := h
    rw [Stmt.loopsL, List.map_append, Stmt.markersL, markers_loopsL _ ss hss]
    rcases hs with hs | hs
    · rw [markers_note n (Stmt.isNote_of_isDocstring hs)]
    · rw [markers_loops n s hs]

end

/-- The normal form keeps the invariants of loops. -/
theorem Function.markers_normalize {f fn : Function} {sigs : Signatures} {s : Signature}
    (h : f.normalize sigs = .ok (fn, s)) (ha : ∀ u ∈ Stmt.annotationsL f.body, u.Unconditional)
    (n : Nat) :
    (Stmt.loopsL n fn.body).map Loop.markers = Stmt.markersL f.body := by
  obtain ⟨⟨⟩, hcheck, h⟩ := exists_of_bind_ok h
  have hnormal : ∃ body, f.preprocess = .ok { f with body := body } ∧
      HasBodyForm (.normal false fun u => u.Unconditional) f.body body :=
    Function.preprocess_normal hcheck (by simp) ha liftIf_of_unconditional
  obtain ⟨body, hrun, hbody⟩ := hnormal
  split at h
  · cases h
  · obtain ⟨⟨⟩, -, h⟩ := exists_of_bind_ok h
    rw [hrun] at h
    cases h
    exact (markers_loops_body n hbody.form).trans hbody.markers

end Source

/-! ## lowered functions -/

/-- **Loops.**  The closing edges of a lowered function are those from the body of a loop back to
its header, and a search that takes edges in another order finds the same ones.  A header only
branches.  It dominates the body of its loop, and its invariant is what the conditions at the start
of the body say, which are those of the text.  What is reported as a loop without invariant is one
that can be reached and repeated. -/
theorem lower_loops {f : Function} {sigs : Signatures} {t : Table} {g : Graph}
    (h : f.lower sigs = .ok (t, g)) :
    ∃ fn s edges, f.normalize sigs = .ok (fn, s) ∧ g.backEdges = .ok edges ∧
      (∀ u v, (u, v) ∈ edges ↔ g.Reaches u ∧ g.Edge u v ∧ ∃ l ∈ Stmt.loopsL 1 fn.body, l.Returns u v) ∧
      (∀ u v p, g.Path (u :: p) → (u :: p).Nodup → g.Edge u v →
        (v ∈ u :: p ↔ ∃ l ∈ Stmt.loopsL 1 fn.body, l.Returns u v)) ∧
      (∀ l ∈ Stmt.loopsL 1 fn.body, l.Headed t g.blocks ∧ ∀ i : Nat, l.Contains i → g.Dominates l.head i) ∧
      (Stmt.loopsL 1 fn.body).map Loop.markers = Stmt.markersL f.body ∧
      ∀ pre post cs, (∃ cause line, buildVc pre post g cs = .error (.error (.unsupported cause line)) ∧
          cause.kind = .unannotatedLoop) ↔
        ∃ l ∈ Stmt.loopsL 1 fn.body, leadingInvariants l.body = [] ∧ l.Iterates g := by
  obtain ⟨⟨fn, s⟩, hnorm, hbuild⟩ := exists_of_bind_ok h
  have hlaid := laid_buildGraph hbuild
  obtain ⟨hv, -⟩ := complete_buildGraph hbuild
  obtain ⟨edges, he⟩ := Graph.exists_backEdges hv
  have hred := hlaid.reducible hv
  refine ⟨fn, s, edges, hnorm, he, fun u v => hred.mem_backEdges he, fun u v p hp hn huv => hred.mem_path_iff hp hn huv,
    fun l hl => ⟨hlaid.headed l hl, fun i hi => hlaid.dominates hv hl hi⟩, ?_, fun pre post cs => ?_⟩
  · exact Function.markers_normalize hnorm (fun u hu => (Function.namesType_of_lower h u hu).unconditional) 1
  rw [buildVc_unannotated_iff hv]
  simp only [hlaid.isHeader_iff hv]
  constructor
  · rintro ⟨_, ⟨l, hl, rfl, hit⟩, hlacks⟩
    exact ⟨l, hl, (hlaid.headed l hl).lacksInvariant_iff.1 hlacks, hit⟩
  · rintro ⟨l, hl, hnone, hit⟩
    exact ⟨l.head, ⟨l, hl, rfl, hit⟩, (hlaid.headed l hl).lacksInvariant_iff.2 hnone⟩

namespace Skim

def n : Exp := .name ⟨1, 1⟩ "n"

/-- `break`, in a loop without invariant. -/
def inside : List Stmt := [.brk ⟨5, 5⟩]

/-- `invariant("n >= 0")`, then `while n: break` and `n = n - 1`. -/
def body : List Stmt :=
  [.exp ⟨3, 3⟩ (.call ⟨3, 3⟩ (.name ⟨3, 3⟩ "invariant") [.constant ⟨3, 3⟩ (.text "n >= 0")] []), .loop ⟨4, 5⟩ n inside [],
    .assign ⟨6, 6⟩ [n] (.binary ⟨6, 6⟩ n .sub (.constant ⟨6, 6⟩ (.int 1)))]

/-- All this in a loop, and then `return n`. -/
def skim : Function where
  span := ⟨1, 7⟩
  name := "skim"
  params := [.mk ⟨1, 1⟩ "n" none]
  more := []
  decorators := []
  result := none
  body := [.loop ⟨2, 6⟩ n body [], .ret ⟨7, 7⟩ (some n)]

def sigs : Signatures := ⟨[("skim", skim.signature)]⟩

def table : Table := { args := ⟨[("n", .int)]⟩, result := .int }

def nVar : Var := ⟨"n", .int⟩

def test : Expr := .bin .ne (.var nVar) (.num 0)

def graph : Graph :=
  ⟨[{ term := some (.goto 1), line := some 1 },
    { term := some (.branch test 2 3), invariant := some (.bin .ge (.var nVar) (.num 0)), line := some 2 },
    { term := some (.goto 4), line := some 4 },
    { term := some (.ret (some (.var nVar))), line := some 6 },
    { term := some (.branch test 5 6), line := some 4 },
    { term := some (.goto 6), line := some 5 },
    { ops := [.assign nVar (.bin .sub (.var nVar) (.num 1))], term := some (.goto 1), line := some 5 },
    { term := some (.goto 4), line := some 5 },
    { term := some (.ret none), line := some 7 }], 0⟩

theorem lower_eq : skim.lower sigs = .ok (table, graph) := by decide +kernel

theorem normalize_eq : skim.normalize sigs = .ok (skim, skim.signature) := rfl

theorem backEdges_eq : graph.backEdges = .ok [(6, 1)] := by decide +kernel

end Skim

/-- The loop inside has no invariant.  It goes back to its header from behind the `break` only,
which is never reached, and so it is not reported. -/
theorem skim_loops : Skim.skim.lower Skim.sigs = .ok (Skim.table, Skim.graph) ∧
      Skim.graph.backEdges = .ok [(6, 1)] ∧
    Skim.graph.Dominates 1 6 ∧ Skim.graph.Edge 7 4 ∧ leadingInvariants Skim.inside = [] ∧
    ∀ pre post cs cause line, buildVc pre post Skim.graph cs = .error (.error (.unsupported cause line)) →
      cause.kind ≠ .unannotatedLoop := by
  obtain ⟨fn, s, edges, hnorm, he, hedges, -, hheads, -, hvc⟩ := lower_loops Skim.lower_eq
  cases Skim.normalize_eq.symm.trans hnorm
  cases Skim.backEdges_eq.symm.trans he
  have hloops : Stmt.loopsL 1 Skim.skim.body =
      [⟨1, ⟨2, 6⟩, Skim.n, Skim.body⟩, ⟨4, ⟨4, 5⟩, Skim.n, Skim.inside⟩] := rfl
  rw [hloops] at hheads hedges hvc
  have hbody : (⟨1, ⟨2, 6⟩, Skim.n, Skim.body⟩ : Loop).Contains 6 := .inr (by decide)
  refine ⟨Skim.lower_eq, Skim.backEdges_eq, (hheads _ (List.mem_cons_self ..)).2 6 hbody, .head _, rfl,
    fun pre post cs cause line hrun hkind => ?_⟩
  obtain ⟨l, hl, hnone, i, hi, hreach, hedge⟩ := (hvc pre post cs).1 ⟨cause, line, hrun, hkind⟩
  rcases List.mem_pair.1 hl with rfl | rfl
  · cases hnone
  · have hm := (hedges i 4).2 ⟨hreach, hedge, _, hl, i, rfl, hi, rfl⟩
    cases List.mem_singleton.1 hm

end ContractVerifier
