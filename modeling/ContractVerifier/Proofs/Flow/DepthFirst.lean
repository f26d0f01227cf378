import ContractVerifier.Proofs.Flow.Reach

/-!
# The order of visit

`depthFirst` is the recursive search: a node that was not seen yet comes first, then all that is
found from its successors, one after the other, then the other nodes with what is still unseen.  The
search with a stack marks a node when it is taken from the stack and not when it is put there, so
the stack holds nodes that were seen in the meantime.  They do no harm: `preorder_append` says that
the upper part of a stack is worked off as the recursive search would do it, and leaves the lower
part with what that search leaves unseen.
-/

namespace ContractVerifier.Flow.Graph

open Relation

variable {g : Graph}

theorem length_diff_cons_lt {n : Node} {unseen : List Node} (h : n ∈ unseen) (found : List Node) :
    (unseen.diff (n :: found)).length < unseen.length := by
  rw [List.diff_cons]
  exact Nat.lt_of_le_of_lt (List.diff_sublist _ found).length_le (length_erase_lt h)

/-- The nodes, each with what it leads to, in the order in which they are seen first. -/
def depthFirst (g : Graph) (unseen : List Node) : List Node → List Node
  | [] => []
  | n :: ns =>
    if n ∈ unseen then
      let found := n :: depthFirst g (unseen.erase n) (g.successors n)
      found ++ depthFirst g (unseen.diff found) ns
    else depthFirst g unseen ns
termination_by ns => (unseen.length, ns.length)
decreasing_by
  · exact Prod.Lex.left _ _ (length_erase_lt ‹n ∈ unseen›)
  · exact Prod.Lex.left _ _ (length_diff_cons_lt ‹n ∈ unseen› _)
  · exact Prod.Lex.right _ (by simp)

/-- All that the nodes lead to are blocks. -/
def Sealed (g : Graph) (ns : List Node) : Prop :=
  ∀ n ∈ ns, ∀ i, ReflTransGen g.Edge n i → ∃ b, g.block? i = some b

theorem Sealed.successors {n : Node} {ns : List Node} (h : g.Sealed (n :: ns)) :
    g.Sealed (g.successors n) :=
  fun _ hm i hi => h n (List.mem_cons_self ..) i (ReflTransGen.head hm hi)

theorem Sealed.tail {n : Node} {ns : List Node} (h : g.Sealed (n :: ns)) : g.Sealed ns :=
  fun m hm => h m (List.mem_cons_of_mem _ hm)

theorem Valid.sealed (hv : g.Valid) : g.Sealed [g.entry] := by
  intro n hn i hi
  rw [List.mem_singleton] at hn
  subst hn
  exact hv.exists_block hi

/-- One list of nodes is put in front after the other. -/
theorem map_append_map (xs ys : List Node) (x : Except Fault (List Node)) :
    (x.map (ys ++ ·)).map (xs ++ ·) = x.map (xs ++ ys ++ ·) := by
  cases x <;> simp [Except.map]

theorem preorder_append {unseen ns : List Node} (hs : g.Sealed ns) (stack : List Node) :
    g.preorder unseen (ns ++ stack) =
      (g.preorder (unseen.diff (g.depthFirst unseen ns)) stack).map (g.depthFirst unseen ns ++ ·) := by
  fun_induction depthFirst g unseen ns generalizing stack with
  | case1 unseen =>
    cases hp : g.preorder unseen stack <;> simp [hp, Except.map]
  | case2 unseen n ns hn found ih₁ ih₂ =>
    obtain ⟨b, hb⟩ := hs n (List.mem_cons_self ..) n .refl
    -- first what is found from `n`, then the other nodes, then the stack
    calc g.preorder unseen (n :: ns ++ stack)
        = (g.preorder (unseen.erase n) (g.successors n ++ (ns ++ stack))).map ([n] ++ ·) := by
          rw [List.cons_append, preorder_visit hb hn, successors_of_block hb]
          rfl
      _ = (g.preorder (unseen.diff found) (ns ++ stack)).map (found ++ ·) := by
          rw [ih₁ hs.successors, map_append_map, ← List.diff_cons]
          rfl
      _ = (g.preorder (unseen.diff (found ++ g.depthFirst (unseen.diff found) ns)) stack).map
            (found ++ g.depthFirst (unseen.diff found) ns ++ ·) := by
          rw [ih₂ hs.tail, map_append_map, ← List.diff_append]
  | case3 unseen n ns hn ih =>
    obtain ⟨b, hb⟩ := hs n (List.mem_cons_self ..) n .refl
    rw [List.cons_append, preorder_skip hb hn, ih hs.tail]

/-- The reachable blocks, each once, in the order of a recursive depth-first search. -/
theorem reachable_depthFirst (hv : g.Valid) :
    g.reachable = .ok (g.depthFirst g.nodes [g.entry]) ∧ (g.depthFirst g.nodes [g.entry]).Nodup ∧
      ∀ i, i ∈ g.depthFirst g.nodes [g.entry] ↔ g.Reaches i := by
  have hr : g.reachable = .ok (g.depthFirst g.nodes [g.entry]) := by
    have h : g.preorder g.nodes ([g.entry] ++ []) = _ := preorder_append hv.sealed []
    rw [List.append_nil, preorder_nil] at h
    rw [reachable, h, Except.map, List.append_nil]
  exact ⟨hr, nodup_reachable hr, fun i => mem_reachable hr⟩

/-- A node that waits while it is found another way, two edges between the same blocks, a cycle and
a block that is never reached. -/
def crossing : Graph where
  blocks := [{ term := some (.branch (.var ⟨"p", .bool⟩) 2 1) }, { term := some (.branch (.var ⟨"q", .bool⟩) 3 3) },
    { term := some (.branch (.var ⟨"p", .bool⟩) 3 1) }, { term := some (.branch (.var ⟨"q", .bool⟩) 0 4) },
    { term := some (.ret none) }, { term := some (.goto 4) }]

theorem crossing_depthFirst : crossing.Valid ∧ crossing.reachable = .ok [0, 2, 3, 4, 1] ∧
    crossing.depthFirst crossing.nodes [0] = [0, 2, 3, 4, 1] := by
  have hv : crossing.Valid := by decide
  have hr : crossing.reachable = .ok [0, 2, 3, 4, 1] := by
    simp [reachable, preorder, crossing, nodes, block?, position, Block.successors,
      Terminator.successors, List.range, List.range.loop]
  refine ⟨hv, hr, ?_⟩
  have h := (reachable_depthFirst hv).1
  rw [hr] at h
  exact (Except.ok.inj h).symm

end ContractVerifier.Flow.Graph
