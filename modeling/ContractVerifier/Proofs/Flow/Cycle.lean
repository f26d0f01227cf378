import ContractVerifier.Proofs.Flow.Closing
import Mathlib.Data.List.Chain

/-!
# Cycles

The closing edges against the cycles of the reachable part.

* `exists_header` : a cycle of reachable nodes meets a loop header;
* `Path` : a path from the entry;
* `backEdges_eq_nil_iff` : there are closing edges exactly if there is a cycle.  One direction is
  the rank; for the other, what the search explores is a path, so a closing edge closes a cycle
  indeed (`backEdges_path`);
* `acc_step` : steps from a node that is no header come to an end.
-/

namespace ContractVerifier.Flow.Graph

open Relation

variable {g : Graph} {edges : List (Node × Node)} {unseen : List Node} {path : List Frame} {rank : Node → Nat}

/-! ## cycles have headers -/

/-- Along a chain that meets no header the rank stays below that of its start. -/
theorem Descends.chain_lt (hd : g.Descends rank) {i : Node} {p : List Node} (hi : g.Reaches i)
    (hc : (i :: p).IsChain g.Edge) (hp : ∀ h ∈ p, ¬ g.IsHeader h) : ∀ j ∈ p, rank j < rank i := by
  induction p generalizing i with
  | nil => simp
  | cons k p ih =>
    obtain ⟨hik, hc⟩ := List.isChain_cons_cons.1 hc
    obtain ⟨hk, hp⟩ := List.forall_mem_cons.1 hp
    have hlt := ((hd i hi).2 k hik).resolve_left hk
    intro j hj
    rcases List.mem_cons.1 hj with rfl | hj
    · exact hlt
    · exact (ih (hi.step hik) hc hp j hj).trans hlt

theorem exists_header (hd : g.Descends rank) {i : Node} {p : List Node} (hi : g.Reaches i)
    (hc : (i :: (p ++ [i])).IsChain g.Edge) : ∃ h ∈ i :: p, g.IsHeader h := by
  by_contra hn
  push Not at hn
  have hlt := hd.chain_lt hi hc (fun h hh => hn h (by simpa [or_comm] using hh)) i (by simp)
  exact absurd hlt (Nat.lt_irrefl _)

/-! ## paths -/

/-- A path from the entry, its last node first. -/
inductive Path (g : Graph) : List Node → Prop where
  | entry : Path g [g.entry]
  | step {i j : Node} {p : List Node} : Path g (i :: p) → g.Edge i j → Path g (j :: i :: p)

section

variable {u v : Node} {p q : List Node}

theorem Path.reaches (h : g.Path (u :: p)) : g.Reaches u := by
  generalize hq : u :: p = q at h
  induction h generalizing u p with
  | entry =>
    cases hq
    exact .refl
  | step _ he ih =>
    cases hq
    exact (ih rfl).step he

theorem Path.tail (h : g.Path (u :: v :: p)) : g.Path (v :: p) ∧ g.Edge v u := by
  cases h with
  | step h he => exact ⟨h, he⟩

/-- A path is one also up to any of its nodes. -/
theorem Path.of_append (h : g.Path (q ++ v :: p)) : g.Path (v :: p) := by
  induction q with
  | nil => exact h
  | cons u q ih =>
    refine ih ?_
    cases q with
    | nil => exact h.tail.1
    | cons w q => exact h.tail.1

theorem Path.leads (h : g.Path (u :: p)) (hv : v ∈ u :: p) : ReflTransGen g.Edge v u := by
  induction p generalizing u with
  | nil =>
    rw [List.mem_singleton.1 hv]
  | cons w p ih =>
    rcases List.mem_cons.1 hv with rfl | hv
    · exact .refl
    · exact (ih h.tail.1 hv).tail h.tail.2

theorem exists_simple_path (h : g.Reaches u) : ∃ p, g.Path (u :: p) ∧ (u :: p).Nodup := by
  induction h with
  | refl => exact ⟨[], .entry, List.nodup_singleton _⟩
  | @tail i j _ he ih =>
    obtain ⟨p, hp, hn⟩ := ih
    by_cases hj : j ∈ i :: p
    · -- what was gone since `j` is left out
      obtain ⟨q, r, hqr⟩ := List.append_of_mem hj
      rw [hqr] at hp hn
      exact ⟨r, hp.of_append, hn.of_append_right⟩
    · exact ⟨i :: p, hp.step he, List.nodup_cons.2 ⟨hj, hn⟩⟩

end

/-! ## closing edges close cycles -/

/-- A closing edge leads back to a node of the path on which its source was found. -/
theorem closing_path (h : g.closing unseen path = .ok edges) (hp : g.Founded path)
    (hpath : path ≠ [] → g.Path (path.map (·.1))) (hn : (path.map (·.1)).Nodup) :
    ∀ e ∈ edges, ∃ p, g.Path (e.1 :: p) ∧ (e.1 :: p).Nodup ∧ e.2 ∈ e.1 :: p := by
  fun_induction closing g unseen path generalizing edges with
  | case1 => cases h; simp
  | case2 unseen n path ih =>
    refine ih h (fun f hf => hp f (List.mem_cons_of_mem _ hf))
      (fun hne => ?_) (List.nodup_cons.1 hn).2
    obtain ⟨f, path, rfl⟩ := List.exists_cons_of_ne_nil hne
    exact (hpath (List.cons_ne_nil _ _)).tail.1
  | case3 => cases h
  | case4 unseen n s ss path hs es he ih =>
    cases h
    intro e hm
    rcases List.mem_cons.1 hm with rfl | hm
    · exact ⟨_, hpath (List.cons_ne_nil _ _), hn, hs⟩
    · exact ih he hp.advance (fun _ => hpath (List.cons_ne_nil _ _)) hn e hm
  | case5 => cases h
  | case6 unseen n s ss path hs b hb hu ih =>
    refine ih h (hp.push hb) (fun _ => ?_) (List.nodup_cons.2 ⟨hs, hn⟩)
    exact (hpath (List.cons_ne_nil _ _)).step
      ((hp _ (List.mem_cons_self ..)).2 s (List.mem_cons_self ..))
  | case7 unseen n s ss path hs b hb hu ih => exact ih h hp.advance (fun _ => hpath (List.cons_ne_nil _ _)) hn

theorem backEdges_path (h : g.backEdges = .ok edges) {u v : Node} (he : (u, v) ∈ edges) :
    ∃ p, g.Path (u :: p) ∧ (u :: p).Nodup ∧ v ∈ u :: p := by
  unfold backEdges at h
  cases hb : g.block? g.entry with
  | none => simp [hb] at h
  | some b =>
    simp only [hb] at h
    exact closing_path h (founded_start hb) (fun _ => .entry) (List.nodup_singleton _) (u, v) he

theorem backEdges_eq_nil_iff (h : g.backEdges = .ok edges) :
    edges = [] ↔ ∀ i, g.Reaches i → ¬ TransGen g.Edge i i := by
  constructor
  · rintro rfl i hi hc
    obtain ⟨rank, -, hr⟩ := exists_rank h
    have hlt : ∀ j, TransGen g.Edge i j → g.Reaches j ∧ rank j < rank i := by
      intro j hj
      induction hj with
      | single he => exact ⟨hi.step he, ((hr i hi).2 _ he).resolve_left (by simp)⟩
      | tail _ he ih => exact ⟨ih.1.step he, (((hr _ ih.1).2 _ he).resolve_left (by simp)).trans ih.2⟩
    exact absurd (hlt i hc).2 (Nat.lt_irrefl _)
  · intro hn
    rw [List.eq_nil_iff_forall_not_mem]
    rintro ⟨u, v⟩ he
    obtain ⟨hu, huv⟩ := backEdges_sound h he
    obtain ⟨p, hp, -, hv⟩ := backEdges_path h he
    exact hn v (hu.step huv) (TransGen.tail' (hp.leads hv) huv)

/-! ## steps between headers -/

theorem acc_step (hd : g.Descends rank) {i : Node} (hi : g.Reaches i) :
    Acc (fun k j => ¬ g.IsHeader j ∧ g.Edge j k) i := by
  -- from a header there is no step, and to any other node the rank falls
  have hheader : ∀ k, g.IsHeader k → Acc (fun k j => ¬ g.IsHeader j ∧ g.Edge j k) k :=
    fun k hk => ⟨k, fun j hj => absurd hk hj.1⟩
  induction hn : rank i using Nat.strongRecOn generalizing i with
  | ind n ih =>
    refine ⟨i, fun k hk => ?_⟩
    rcases (hd i hi).2 k hk.2 with h | h
    · exact hheader k h
    · exact ih (rank k) (hn ▸ h) (hi.step hk.2) rfl

end ContractVerifier.Flow.Graph
