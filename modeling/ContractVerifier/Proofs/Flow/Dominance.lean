import ContractVerifier.Proofs.Flow.Cycle

/-!
# Dominance

In a graph whose edges go forward, but for some that lead back to a node that dominates them, these
some are the closing edges, whatever the order in which the search takes the edges.

* `Dominates` : all paths to one node meet the other;
* `dominates_of_entered` : the only way into a set of nodes dominates all of it;
* `Reducible` : such graphs;
* `Reducible.mem_path_iff`, `Reducible.mem_backEdges` : the closing edges are those that lead back.
-/

namespace ContractVerifier.Flow.Graph

variable {g : Graph} {edges : List (Node × Node)} {u v : Node} {p : List Node}

/-- Every path from the entry to `u` meets `h`. -/
def Dominates (g : Graph) (h u : Node) : Prop := ∀ p, g.Path (u :: p) → h ∈ u :: p

theorem dominates_of_entered {S : Node → Prop} {h : Node} (hentry : ¬ S g.entry)
    (henter : ∀ i j, g.Reaches i → g.Edge i j → S j → S i ∨ i = h) (hu : S u) : g.Dominates h u := by
  intro p hp
  induction p generalizing u with
  | nil =>
    cases hp
    exact absurd hu hentry
  | cons i p ih =>
    obtain ⟨hi, he⟩ := hp.tail
    rcases henter i u hi.reaches he hu with hS | rfl
    · exact List.mem_cons_of_mem _ (ih hS hi)
    · exact List.mem_cons_of_mem _ (List.mem_cons_self ..)

/-- An edge raises the position of a node, or it is one of `Back` and leads to a node that dominates
its source. -/
structure Reducible (g : Graph) (Back : Node → Node → Prop) (pos : Node → Nat) : Prop where
  dominates : ∀ u h, g.Reaches u → g.Edge u h → Back u h → g.Dominates h u
  forward : ∀ u v, g.Reaches u → g.Edge u v → Back u v ∨ pos u < pos v

namespace Reducible

variable {Back : Node → Node → Prop} {pos : Node → Nat}

/-- A path that meets no node twice does not go back. -/
theorem lt_of_mem (h : g.Reducible Back pos) (hp : g.Path (u :: p)) (hn : (u :: p).Nodup) (hv : v ∈ p) : pos v < pos u := by
  induction p generalizing u with
  | nil => cases hv
  | cons i p ih =>
    obtain ⟨hi, he⟩ := hp.tail
    obtain ⟨hu, hn⟩ := List.nodup_cons.1 hn
    have hback : ¬ Back i u := fun hb => hu (h.dominates i u hi.reaches he hb p hi)
    have hlt : pos i < pos u := (h.forward i u hi.reaches he).resolve_left hback
    rcases List.mem_cons.1 hv with rfl | hv
    · exact hlt
    · exact (ih hi hn hv).trans hlt

/-- Whichever way a search came to `u`, it meets the target of an edge again exactly if the edge
leads back. -/
theorem mem_path_iff (h : g.Reducible Back pos) (hp : g.Path (u :: p)) (hn : (u :: p).Nodup)
    (he : g.Edge u v) :
    v ∈ u :: p ↔ Back u v := by
  constructor
  · intro hv
    refine (h.forward u v hp.reaches he).resolve_right fun hlt => ?_
    rcases List.mem_cons.1 hv with rfl | hv
    · omega
    · have := h.lt_of_mem hp hn hv
      omega
  · intro hb
    exact h.dominates u v hp.reaches he hb p hp

theorem back_of_mem (h : g.Reducible Back pos) (he : g.backEdges = .ok edges) (hm : (u, v) ∈ edges) : Back u v := by
  obtain ⟨-, huv⟩ := backEdges_sound he hm
  obtain ⟨p, hp, hn, hv⟩ := backEdges_path he hm
  exact (h.mem_path_iff hp hn huv).1 hv

theorem mem_backEdges (h : g.Reducible Back pos) (he : g.backEdges = .ok edges) :
    (u, v) ∈ edges ↔ g.Reaches u ∧ g.Edge u v ∧ Back u v := by
  constructor
  · intro hm
    obtain ⟨hu, huv⟩ := backEdges_sound he hm
    exact ⟨hu, huv, h.back_of_mem he hm⟩
  · rintro ⟨hu, huv, hb⟩
    by_contra hm
    -- edges that do not close a cycle lower the rank, so that ranks give positions as well
    obtain ⟨rank, hle, hr⟩ := exists_rank he
    have hrank : g.Reducible Back fun i => g.nodes.length - rank i := by
      refine ⟨h.dominates, fun i j hi hij => ?_⟩
      refine ((hr i hi).2 j hij).imp (h.back_of_mem he) fun hlt => ?_
      have := hle i
      show g.nodes.length - rank i < g.nodes.length - rank j
      omega
    have hlt : rank v < rank u := ((hr u hu).2 v huv).resolve_left hm
    obtain ⟨p, hp, hn⟩ := exists_simple_path hu
    rcases List.mem_cons.1 (h.dominates u v hu huv hb p hp) with rfl | hv
    · omega
    · have hpos : g.nodes.length - rank v < g.nodes.length - rank u := hrank.lt_of_mem hp hn hv
      have := hle u
      omega

end Reducible

end ContractVerifier.Flow.Graph
