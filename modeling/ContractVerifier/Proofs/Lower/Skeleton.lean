import ContractVerifier.Source.Lower
import Mathlib.Data.List.Nodup

/-!
# Which blocks a body gets

The numbers of the blocks depend on the statements only.  Here they are read off a body, together
with its loops; that lowering lays them out so is `Proofs.Lower.Loops`.

* `Stmt.blockCount` : how many blocks a statement adds;
* `Stmt.order` : these blocks, as their code stands in the text.  The block behind a loop is made
  before those of its body;
* `Stmt.loops` : the loops of a statement, each with its header;
* `Jump` : how a block may go on to another one.
-/

namespace ContractVerifier.Source

/-! ## blocks -/

mutual

def Stmt.blockCount : Stmt → Nat
  | .ret .. | .brk _ | .cont _ => 1
  | .cond _ _ body orElse =>
    1 + Stmt.blockCountL body + (if orElse.isEmpty then 0 else 1 + Stmt.blockCountL orElse) + 1
  | .loop _ _ body _ => 3 + Stmt.blockCountL body
  | .assign .. | .declare .. | .augment .. | .exp .. | .pass _ | .function .. | .other .. => 0

def Stmt.blockCountL : List Stmt → Nat
  | [] => 0
  | s :: ss => s.blockCount + Stmt.blockCountL ss

end

mutual

/-- The blocks that are added when there are `n` of them. -/
def Stmt.order (n : Nat) : Stmt → List Nat
  | .ret .. | .brk _ | .cont _ => [n]
  | .cond _ _ body orElse =>
    let m := n + 1 + Stmt.blockCountL body
    if orElse.isEmpty then n :: (Stmt.orderL (n + 1) body ++ [m])
    else n :: (Stmt.orderL (n + 1) body ++ m :: (Stmt.orderL (m + 1) orElse ++ [m + 1 + Stmt.blockCountL orElse]))
  | .loop _ _ body _ => n :: (n + 1) :: (Stmt.orderL (n + 3) body ++ [n + 2])
  | .assign .. | .declare .. | .augment .. | .exp .. | .pass _ | .function .. | .other .. => []

def Stmt.orderL (n : Nat) : List Stmt → List Nat
  | [] => []
  | s :: ss => s.order n ++ Stmt.orderL (n + s.blockCount) ss

end

/-- A loop and its header, which is followed by the first block of the body and the block behind the
loop. -/
structure Loop where
  head : Nat
  span : Span
  test : Exp
  body : List Stmt

namespace Loop

/-- The first block that is made after the loop. -/
def stop (l : Loop) : Nat := l.head + 3 + Stmt.blockCountL l.body

/-- The block is one of the body. -/
def Contains (l : Loop) (i : Nat) : Prop := i = l.head + 1 ∨ l.head + 3 ≤ i ∧ i < l.stop

theorem Contains.bounds {l : Loop} {i : Nat} (h : l.Contains i) : l.head < i ∧ i < l.stop := by
  unfold stop
  rcases h with h | h
  · omega
  · unfold stop at h
    omega

end Loop

mutual

def Stmt.loops (n : Nat) : Stmt → List Loop
  | .cond _ _ body orElse =>
    Stmt.loopsL (n + 1) body ++ Stmt.loopsL (n + 1 + Stmt.blockCountL body + 1) orElse
  | .loop sp t body _ => ⟨n, sp, t, body⟩ :: Stmt.loopsL (n + 3) body
  | .assign .. | .declare .. | .augment .. | .exp .. | .ret .. | .pass _ | .brk _ | .cont _ | .function .. | .other .. => []

def Stmt.loopsL (n : Nat) : List Stmt → List Loop
  | [] => []
  | s :: ss => s.loops n ++ Stmt.loopsL (n + s.blockCount) ss

end

/-- `order` and `loops` are some of the blocks from `n` on and below `m`. -/
structure Spans (n m : Nat) (order : List Nat) (loops : List Loop) : Prop where
  blocks : ∀ i ∈ order, n ≤ i ∧ i < m
  nodup : order.Nodup
  heads : ∀ l ∈ loops, n ≤ l.head ∧ l.stop ≤ m

section

variable {n m k : Nat} {o o' : List Nat} {ls ls' : List Loop}

theorem spans_nil (n : Nat) : Spans n n [] [] := ⟨by simp, List.nodup_nil, by simp⟩

theorem spans_new (n : Nat) : Spans n (n + 1) [n] [] := ⟨by simp, List.nodup_singleton n, by simp⟩

theorem Spans.append (h : Spans n m o ls) (h' : Spans m k o' ls') (hnm : n ≤ m) (hmk : m ≤ k) :
    Spans n k (o ++ o') (ls ++ ls') := by
  refine ⟨fun i hi => ?_, h.nodup.append h'.nodup fun i hi hi' => ?_, fun l hl => ?_⟩
  · rcases List.mem_append.1 hi with hi | hi
    · have := h.blocks i hi
      omega
    · have := h'.blocks i hi
      omega
  · have := h.blocks i hi
    have := h'.blocks i hi'
    omega
  · rcases List.mem_append.1 hl with hl | hl
    · have := h.heads l hl
      omega
    · have := h'.heads l hl
      omega

/-- A loop: the block behind it is numbered before those of the body. -/
theorem Spans.loop {sp : Span} {t : Exp} {body : List Stmt}
    (h : Spans (n + 3) (n + 3 + Stmt.blockCountL body) o ls) :
    Spans n (n + (3 + Stmt.blockCountL body)) (n :: (n + 1) :: (o ++ [n + 2])) (⟨n, sp, t, body⟩ :: ls) := by
  have hbounds := h.blocks
  refine ⟨fun i hi => ?_, ?_, fun l hl => ?_⟩
  · simp only [List.mem_cons, List.mem_append, List.not_mem_nil, or_false] at hi
    rcases hi with rfl | rfl | hi | rfl
    · omega
    · omega
    · have := hbounds i hi
      omega
    · omega
  · have hnot : ∀ j, j < n + 3 → j ∉ o := fun j hj hm => by
      have := hbounds j hm
      omega
    have hlast : (o ++ [n + 2]).Nodup := by
      refine h.nodup.append (List.nodup_singleton _) fun i hi hi' => ?_
      rw [List.mem_singleton.1 hi'] at hi
      exact hnot _ (by omega) hi
    simp only [List.nodup_cons, List.mem_cons, List.mem_append, List.not_mem_nil, or_false, not_or]
    exact ⟨⟨by omega, hnot n (by omega), by omega⟩, ⟨hnot (n + 1) (by omega), by omega⟩, hlast⟩
  · rcases List.mem_cons.1 hl with rfl | hl
    · unfold Loop.stop
      simp only
      omega
    · have := h.heads l hl
      omega

end

/-! ## jumps -/

/-- How the block `i`, one of `order`, may go on to `j`: forward in the order, back to the header of
a loop around it, or to the header of, or the block behind, the innermost of the loops `out` around
all of them.  A body is entered from its header only. -/
structure Jump (order : List Nat) (loops : List Loop) (out : List (Nat × Nat)) (i j : Nat) :
    Prop where
  source : i ∈ order
  target : [i, j].Sublist order ∨ (∃ l ∈ loops, l.Contains i ∧ j = l.head) ∨ ∃ p ∈ out.head?, j = p.1 ∨ j = p.2
  enters : ∀ l ∈ loops, l.Contains j → l.Contains i ∨ i = l.head

section

variable {n m k c i j : Nat} {o o' : List Nat} {ls ls' : List Loop} {out : List (Nat × Nat)}

theorem jump_forward (h : [i, j].Sublist o) (hj : ∀ l ∈ ls, ¬ l.Contains j) : Jump o ls out i j :=
  ⟨h.subset (List.mem_cons_self ..), .inl h, fun l hl hc => absurd hc (hj l hl)⟩

/-- To the first block of a span. -/
theorem jump_into (hs : Spans n m o ls) : Jump (c :: n :: o') ls out c n := by
  refine jump_forward (.cons_cons _ (.cons_cons _ (List.nil_sublist _))) fun l hl hc => ?_
  have := hs.heads l hl
  have := hc.bounds
  omega

/-- Over a span to the next one. -/
theorem jump_over (hs : Spans n m o ls) (hs' : Spans m k o' ls') (o'' : List Nat) :
    Jump (c :: (o ++ m :: o'')) (ls ++ ls') out c m := by
  refine jump_forward (.cons_cons _ (List.singleton_sublist.2 (by simp))) fun l hl hc => ?_
  have := hc.bounds
  rcases List.mem_append.1 hl with hl | hl
  · have := hs.heads l hl
    omega
  · have := hs'.heads l hl
    omega

/-- To the first block behind a span. -/
theorem jump_behind (hs : Spans n m o ls) (hi : i ∈ c :: o) : Jump (c :: (o ++ [m])) ls out i m := by
  refine jump_forward ((List.singleton_sublist.2 hi).append (.refl [m])) fun l hl hc => ?_
  have := hs.heads l hl
  have := hc.bounds
  omega

theorem Jump.weaken (h : Jump o ls out i j) (ho : o.Sublist o') (hls : ∀ l ∈ ls, l ∈ ls')
    (hnew : ∀ l ∈ ls', l ∈ ls ∨ ¬ l.Contains j) : Jump o' ls' out i j := by
  refine ⟨ho.subset h.source, ?_, fun l hl hc => ?_⟩
  · rcases h.target with hsub | ⟨l, hl, hi, hj⟩ | hout
    · exact .inl (hsub.trans ho)
    · exact .inr (.inl ⟨l, hls l hl, hi, hj⟩)
    · exact .inr (.inr hout)
  · rcases hnew l hl with hl | hn
    · exact h.enters l hl hc
    · exact absurd hc hn

/-- Where a jump goes from a block of a span, or from one more block. -/
theorem Jump.range {start : Option Nat} (h : Jump (start.toList ++ o) ls out i j)
    (hs : Spans n m o ls) :
    (n ≤ j ∧ j < m) ∨ ∃ p ∈ out.head?, j = p.1 ∨ j = p.2 := by
  rcases h.target with hsub | ⟨l, hl, hi, rfl⟩ | hout
  · have hj : [j].Sublist o := by
      cases start with
      | none => exact List.sublist_of_cons_sublist hsub
      | some c => exact hsub.tail
    exact .inl (hs.blocks j (List.singleton_sublist.1 hj))
  · have := hs.heads l hl
    have := hi.bounds
    exact .inl (by omega)
  · exact .inr hout

/-- It enters no loop elsewhere. -/
theorem Jump.not_contains {start : Option Nat} (h : Jump (start.toList ++ o) ls out i j)
    (hs : Spans n m o ls) (hout : ∀ p ∈ out.head?, p.1 < k ∧ p.2 < k) {l : Loop} (hk : k ≤ l.head)
    (hl : l.stop ≤ n ∨ m ≤ l.head) :
    ¬ l.Contains j := by
  intro hc
  have := hc.bounds
  rcases h.range hs with hj | ⟨p, hp, hj⟩
  · omega
  · have := hout p hp
    omega

section

variable {sp : Span} {t : Exp} {body : List Stmt} (hs : Spans (n + 3) (n + 3 + Stmt.blockCountL body) o ls)

include hs

theorem contains_body (hi : i ∈ (n + 1) :: o) : (⟨n, sp, t, body⟩ : Loop).Contains i := by
  rcases List.mem_cons.1 hi with hi | hi
  · exact .inl hi
  · exact .inr (hs.blocks i hi)

/-- The jumps of a body, seen from outside of its loop. -/
theorem Jump.of_body (h : Jump ((n + 1) :: o) ls ((n, n + 2) :: out) i j) :
    Jump (c :: n :: (n + 1) :: (o ++ [n + 2])) (⟨n, sp, t, body⟩ :: ls) out i j := by
  have hsub : ((n + 1) :: o).Sublist (c :: n :: (n + 1) :: (o ++ [n + 2])) :=
    .cons _ (.cons _ (.cons_cons _ (List.sublist_append_left ..)))
  have hinside : (⟨n, sp, t, body⟩ : Loop).Contains i := contains_body hs h.source
  refine ⟨hsub.subset h.source, ?_, fun l hl hc => ?_⟩
  · rcases h.target with hfwd | ⟨l, hl, hi, hj⟩ | ⟨p, hp, hj⟩
    · exact .inl (hfwd.trans hsub)
    · exact .inr (.inl ⟨l, List.mem_cons_of_mem _ hl, hi, hj⟩)
    · -- a jump out of the body goes to the header or behind the loop
      cases hp
      rcases hj with rfl | rfl
      · exact .inr (.inl ⟨_, List.mem_cons_self .., hinside, rfl⟩)
      · have hlast : ([i] ++ [n + 2]).Sublist (((n + 1) :: o) ++ [n + 2]) :=
          (List.singleton_sublist.2 h.source).append (.refl _)
        exact .inl (.cons _ (.cons _ hlast))
  · rcases List.mem_cons.1 hl with rfl | hl
    · exact .inl hinside
    · exact h.enters l hl hc

/-- From the header to the body. -/
theorem jump_start : Jump (c :: n :: (n + 1) :: (o ++ [n + 2])) (⟨n, sp, t, body⟩ :: ls) out n (n + 1) := by
  refine ⟨by simp, .inl (.cons _ (.cons_cons _ (.cons_cons _ (List.nil_sublist _)))), fun l hl hc => ?_⟩
  rcases List.mem_cons.1 hl with rfl | hl
  · exact .inr rfl
  · have := hs.heads l hl
    have := hc.bounds
    omega

/-- From the header to the block behind the loop. -/
theorem jump_exit : Jump (c :: n :: (n + 1) :: (o ++ [n + 2])) (⟨n, sp, t, body⟩ :: ls) out n (n + 2) := by
  refine jump_forward (.cons _ (.cons_cons _ (List.singleton_sublist.2 (by simp)))) fun l hl hc => ?_
  rcases List.mem_cons.1 hl with rfl | hl
  · rcases hc with hc | hc
    · simp only at hc
      omega
    · simp only at hc
      omega
  · have := hs.heads l hl
    have := hc.bounds
    omega

/-- Back to the header. -/
theorem jump_back (hi : i ∈ (n + 1) :: o) : Jump (c :: n :: (n + 1) :: (o ++ [n + 2])) (⟨n, sp, t, body⟩ :: ls) out i n := by
  refine ⟨?_, .inr (.inl ⟨_, List.mem_cons_self .., contains_body hs hi, rfl⟩), fun l hl hc => ?_⟩
  · exact List.mem_cons_of_mem _ (List.mem_cons_of_mem _ (List.mem_append_left [n + 2] hi))
  · have := hs.loop.heads l hl
    have := hc.bounds
    omega

end

end

end ContractVerifier.Source
