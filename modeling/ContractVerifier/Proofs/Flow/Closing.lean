import ContractVerifier.Proofs.Flow.Reach
import ContractVerifier.Proofs.Keyed
import Mathlib.Data.List.Perm.Subperm

/-!
# Closing edges cut all cycles

The search for closing edges finishes nodes one after the other.  An edge that is not among those it
returns leads to a node that is finished earlier (`Finished`), so the number of a node in this order
goes down along all other edges.

* `exists_rank` : a rank on reachable nodes that every edge but the closing ones lowers;
* `backEdges_sound` : a closing edge is an edge, from a reachable node;
* `contains_loops`, `find?_loops` : the loop headers are the targets of the closing edges, and stand
  in their order.
-/

namespace ContractVerifier.Flow.Graph

open Relation

variable {g : Graph} {edges acc : List (Node × Node)} {unseen fin : List Node} {path : List Frame}

/-! ## steps of the search -/

theorem closing_nil (unseen : List Node) : g.closing unseen [] = .ok [] := by
  unfold closing
  rfl

theorem closing_pop (n : Node) : g.closing unseen ((n, []) :: path) = g.closing unseen path := by
  conv_lhs => unfold closing

theorem closing_close {n s : Node} {ss : List Node} (hs : s ∈ n :: path.map (·.1)) :
    g.closing unseen ((n, s :: ss) :: path) = (g.closing unseen ((n, ss) :: path)).map ((n, s) :: ·) := by
  conv_lhs => unfold closing
  simp only [if_pos hs]
  cases g.closing unseen ((n, ss) :: path) <;> rfl

theorem closing_missing {n s : Node} {ss : List Node} (hs : s ∉ n :: path.map (·.1))
    (hb : g.block? s = none) :
    g.closing unseen ((n, s :: ss) :: path) = .error .noSuchBlock := by
  unfold closing
  simp only [if_neg hs, hb]

theorem closing_push {n s : Node} {ss : List Node} {b : Block} (hs : s ∉ n :: path.map (·.1))
    (hb : g.block? s = some b) (hu : s ∈ unseen) : g.closing unseen ((n, s :: ss) :: path) =
      g.closing (unseen.erase s) ((s, b.successors) :: (n, ss) :: path) := by
  conv_lhs => unfold closing
  simp only [if_neg hs, hb, if_pos hu]

theorem closing_skip {n s : Node} {ss : List Node} {b : Block} (hs : s ∉ n :: path.map (·.1))
    (hb : g.block? s = some b) (hu : s ∉ unseen) :
    g.closing unseen ((n, s :: ss) :: path) = g.closing unseen ((n, ss) :: path) := by
  conv_lhs => unfold closing
  simp only [if_neg hs, hb, if_neg hu]

/-! ## finished nodes -/

/-- Finished nodes, latest first: an edge is among `edges` or leads to one that was finished
earlier. -/
def Finished (g : Graph) (edges : List (Node × Node)) : List Node → Prop
  | [] => True
  | d :: fin => (∀ s, g.Edge d s → (d, s) ∈ edges ∨ s ∈ fin) ∧ Finished g edges fin

/-- The current path, its last node first.  An edge of a node on it is among `edges`, leads to a
finished node or to the next node of the path, or is still to be explored. -/
def Explored (g : Graph) (edges : List (Node × Node)) (fin : List Node) :
    Option Node → List Frame → Prop
  | _, [] => True
  | child, (n, ss) :: path =>
    (∀ s, g.Edge n s → (n, s) ∈ edges ∨ s ∈ fin ∨ child = some s ∨ s ∈ ss) ∧ Explored g edges fin (some n) path

theorem Finished.mono (h : g.Finished acc fin) (hs : ∀ e ∈ acc, e ∈ edges) : g.Finished edges fin := by
  induction fin with
  | nil => trivial
  | cons d fin ih => exact ⟨fun s he => (h.1 s he).imp_left (hs _), ih h.2⟩

theorem Explored.mono {fin' : List Node} {child : Option Node} (h : g.Explored acc fin child path)
    (hs : ∀ e ∈ acc, e ∈ edges) (hf : ∀ i ∈ fin, i ∈ fin') : g.Explored edges fin' child path := by
  induction path generalizing child with
  | nil => trivial
  | cons f path ih =>
    refine ⟨fun s he => ?_, ih h.2⟩
    rcases h.1 s he with h | h | h | h
    · exact .inl (hs _ h)
    · exact .inr (.inl (hf _ h))
    · exact .inr (.inr (.inl h))
    · exact .inr (.inr (.inr h))

/-- A finished child need not be told apart. -/
theorem Explored.finish {n : Node} (h : g.Explored edges fin (some n) path) (hn : n ∈ fin) :
    g.Explored edges fin none path := by
  cases path with
  | nil => trivial
  | cons f path =>
    refine ⟨fun s he => ?_, h.2⟩
    rcases h.1 s he with h | h | h | h
    · exact .inl h
    · exact .inr (.inl h)
    · cases h
      exact .inr (.inl hn)
    · exact .inr (.inr (.inr h))

/-- What holds at every step of the search; `acc` are the edges found so far. -/
structure Searching (g : Graph) (acc : List (Node × Node)) (unseen fin : List Node)
    (path : List Frame) : Prop where
  unseen_nodup : unseen.Nodup
  nodup : (path.map (·.1) ++ fin).Nodup
  mem_nodes : ∀ i ∈ path.map (·.1) ++ fin, i ∈ g.nodes
  disjoint : ∀ i ∈ unseen, i ∉ path.map (·.1) ++ fin
  cover : ∀ i ∈ g.nodes, i ∈ unseen ∨ i ∈ path.map (·.1) ++ fin
  finished : g.Finished acc fin
  explored : g.Explored acc fin none path

/-- The last node of the path has no edge left. -/
theorem Searching.pop {n : Node} (h : g.Searching acc unseen fin ((n, []) :: path)) :
    g.Searching acc unseen (n :: fin) path := by
  have hp : (path.map (·.1) ++ n :: fin).Perm (((n, []) :: path).map (·.1) ++ fin) :=
    List.perm_middle
  refine ⟨h.unseen_nodup, hp.nodup_iff.2 h.nodup, fun i hi => h.mem_nodes i (hp.mem_iff.1 hi),
    fun i hi hm => h.disjoint i hi (hp.mem_iff.1 hm), fun i hi => ?_, ⟨fun s he => ?_, h.finished⟩, ?_⟩
  · exact (h.cover i hi).imp_right hp.mem_iff.2
  · rcases h.explored.1 s he with h | h | h | h
    · exact .inl h
    · exact .inr h
    · cases h
    · simp at h
  · refine (h.explored.2.mono (fun _ h => h) fun i hi => ?_).finish (List.mem_cons_self ..)
    exact List.mem_cons_of_mem _ hi

/-- The next edge is done with: it is among the edges, or its target is finished. -/
theorem Searching.advance {n s : Node} {ss : List Node}
    (h : g.Searching acc unseen fin ((n, s :: ss) :: path)) (hacc : ∀ e ∈ acc, e ∈ edges)
    (hs : (n, s) ∈ edges ∨ s ∈ fin) :
    g.Searching edges unseen fin ((n, ss) :: path) := by
  refine ⟨h.unseen_nodup, h.nodup, h.mem_nodes, h.disjoint, h.cover, h.finished.mono hacc, ⟨fun t he => ?_, ?_⟩⟩
  · rcases h.explored.1 t he with h | h | h | h
    · exact .inl (hacc _ h)
    · exact .inr (.inl h)
    · cases h
    · rcases List.mem_cons.1 h with rfl | h
      · exact hs.imp_right .inl
      · exact .inr (.inr (.inr h))
  · exact h.explored.2.mono hacc fun _ h => h

/-- The path goes on to a node that was not seen yet. -/
theorem Searching.push {n s : Node} {ss : List Node} {b : Block}
    (h : g.Searching acc unseen fin ((n, s :: ss) :: path)) (hs : s ∈ unseen)
    (hb : g.block? s = some b) :
    g.Searching acc (unseen.erase s) fin ((s, b.successors) :: (n, ss) :: path) := by
  have hfresh := h.disjoint s hs
  refine ⟨h.unseen_nodup.erase s, ?_, fun i hi => ?_, fun i hi hm => ?_, fun i hi => ?_, h.finished, ⟨fun t he => ?_, ?_⟩⟩
  · exact List.nodup_cons.2 ⟨hfresh, h.nodup⟩
  · rcases List.mem_cons.1 hi with rfl | hi
    · exact mem_nodes_of_block hb
    · exact h.mem_nodes i hi
  · rw [h.unseen_nodup.mem_erase_iff] at hi
    rcases List.mem_cons.1 hm with rfl | hm
    · exact hi.1 rfl
    · exact h.disjoint i hi.2 hm
  · rw [h.unseen_nodup.mem_erase_iff]
    by_cases his : i = s
    · exact .inr (his ▸ List.mem_cons_self ..)
    · rcases h.cover i hi with h | h
      · exact .inl ⟨his, h⟩
      · exact .inr (List.mem_cons_of_mem _ h)
  · exact .inr (.inr (.inr ((edge_iff hb).1 he)))
  · refine ⟨fun t he => ?_, h.explored.2⟩
    rcases h.explored.1 t he with h | h | h | h
    · exact .inl h
    · exact .inr (.inl h)
    · cases h
    · rcases List.mem_cons.1 h with rfl | h
      · exact .inr (.inr (.inl rfl))
      · exact .inr (.inr (.inr h))

/-- Where the search ends: all nodes it met are finished. -/
theorem closing_finished (h : g.closing unseen path = .ok edges)
    (hi : g.Searching acc unseen fin path) :
    ∃ fin', (∀ i ∈ path.map (·.1) ++ fin, i ∈ fin') ∧ (∀ e ∈ edges, e.2 ∈ fin') ∧ fin'.Nodup ∧
      (∀ i ∈ fin', i ∈ g.nodes) ∧ g.Finished (acc ++ edges) fin' := by
  fun_induction closing g unseen path generalizing edges acc fin with
  | case1 unseen =>
    cases h
    exact ⟨fin, by simp, by simp, by simpa using hi.nodup, by simpa using hi.mem_nodes,
      hi.finished.mono fun e he => List.mem_append_left _ he⟩
  | case2 unseen n path ih =>
    obtain ⟨fin', h1, h2, h3, h4, h5⟩ := ih h hi.pop
    refine ⟨fin', fun i hm => h1 i ?_, h2, h3, h4, h5⟩
    simp only [List.map_cons, List.cons_append, List.mem_cons, List.mem_append] at hm ⊢
    tauto
  | case3 => cases h
  | case4 unseen n s ss path hs es he ih =>
    cases h
    have hadv : g.Searching (acc ++ [(n, s)]) unseen fin ((n, ss) :: path) :=
      hi.advance (fun e he => List.mem_append_left _ he) (.inl (by simp))
    obtain ⟨fin', h1, h2, h3, h4, h5⟩ := ih he hadv
    refine ⟨fin', h1, fun e hm => ?_, h3, h4, h5.mono fun e hm => by simpa [or_assoc] using hm⟩
    rcases List.mem_cons.1 hm with rfl | hm
    · exact h1 s (List.mem_append_left _ hs)
    · exact h2 e hm
  | case5 => cases h
  | case6 unseen n s ss path hs b hb hu ih =>
    obtain ⟨fin', h1, h2, h3, h4, h5⟩ := ih h (hi.push hu hb)
    exact ⟨fin', fun i hm => h1 i (List.mem_cons_of_mem _ hm), h2, h3, h4, h5⟩
  | case7 unseen n s ss path hs b hb hu ih =>
    have hfin : s ∈ fin := by
      rcases hi.cover s (mem_nodes_of_block hb) with h | h
      · exact absurd h hu
      · exact (List.mem_append.1 h).resolve_left hs
    exact ih h (hi.advance (fun e he => he) (.inr hfin))

/-! ## ranks -/

theorem idxOf_lt_of_finished (hf : g.Finished edges fin) (hn : fin.Nodup) {i j : Node}
    (hi : i ∈ fin) (he : g.Edge i j) : (i, j) ∈ edges ∨ fin.idxOf i < fin.idxOf j ∧ j ∈ fin := by
  induction fin with
  | nil => simp at hi
  | cons d fin ih =>
    obtain ⟨hd, hn⟩ := List.nodup_cons.1 hn
    have later : ∀ {k : Node}, k ∈ fin → (d :: fin).idxOf k = fin.idxOf k + 1 := by
      intro k hk
      have hne : d ≠ k := fun h => hd (h ▸ hk)
      rw [List.idxOf_cons_ne _ hne]
    rcases List.mem_cons.1 hi with rfl | hi
    · refine (hf.1 j he).imp_right fun hj => ⟨?_, List.mem_cons_of_mem _ hj⟩
      rw [List.idxOf_cons_self, later hj]
      omega
    · refine (ih hf.2 hn hi).imp_right fun ⟨h, hj⟩ => ⟨?_, List.mem_cons_of_mem _ hj⟩
      rw [later hi, later hj]
      omega

theorem searching_start {b : Block} (hb : g.block? g.entry = some b) :
    g.Searching [] (g.nodes.erase g.entry) [] [(g.entry, b.successors)] := by
  refine ⟨(nodup_nodes g).erase _, by simp, fun i hi => ?_, fun i hi hm => ?_, fun i hi => ?_, trivial,
    ⟨fun s he => ?_, trivial⟩⟩
  · simp only [List.map_cons, List.map_nil, List.append_nil, List.mem_singleton] at hi
    subst hi
    exact mem_nodes_of_block hb
  · simp only [List.map_cons, List.map_nil, List.append_nil, List.mem_singleton] at hm
    subst hm
    exact ((nodup_nodes g).mem_erase_iff.1 hi).1 rfl
  · rw [(nodup_nodes g).mem_erase_iff]
    by_cases h : i = g.entry
    · exact .inr (by simp [h])
    · exact .inl ⟨h, hi⟩
  · exact .inr (.inr (.inr ((edge_iff hb).1 he)))

/-- Reachable nodes have positive ranks, and every edge from one is a closing edge or lowers the
rank. -/
theorem exists_rank (h : g.backEdges = .ok edges) :
    ∃ rank : Node → Nat, (∀ i, rank i ≤ g.nodes.length) ∧
      ∀ i, g.Reaches i → 0 < rank i ∧ ∀ j, g.Edge i j → (i, j) ∈ edges ∨ rank j < rank i := by
  unfold backEdges at h
  cases hb : g.block? g.entry with
  | none => simp [hb] at h
  | some b =>
    simp only [hb] at h
    obtain ⟨fin, h1, h2, h3, h4, h5⟩ := closing_finished h (searching_start hb)
    simp only [List.nil_append] at h5
    have hfin : ∀ i, g.Reaches i → i ∈ fin := by
      intro i hi
      induction hi with
      | refl => exact h1 g.entry (by simp)
      | @tail j k _ he ih =>
        rcases idxOf_lt_of_finished h5 h3 ih he with h | h
        · exact h2 _ h
        · exact h.2
    have hlen : fin.length ≤ g.nodes.length := (List.subperm_of_subset h3 h4).length_le
    have hpos : ∀ i ∈ fin, 0 < fin.length - fin.idxOf i := by
      intro i hi
      have := List.idxOf_lt_length_iff.2 hi
      omega
    refine ⟨fun i => fin.length - fin.idxOf i, fun i => Nat.le_trans (Nat.sub_le ..) hlen,
      fun i hi => ⟨hpos i (hfin i hi), fun j he => ?_⟩⟩
    refine (idxOf_lt_of_finished h5 h3 (hfin i hi) he).imp_right fun ⟨h, hj⟩ => ?_
    have hj' := hpos j hj
    show fin.length - fin.idxOf j < fin.length - fin.idxOf i
    omega

/-! ## closing edges are edges -/

/-- Nodes on the path are reachable, and what is to be explored are successors. -/
def Founded (g : Graph) (path : List Frame) : Prop :=
  ∀ f ∈ path, g.Reaches f.1 ∧ ∀ s ∈ f.2, g.Edge f.1 s

theorem Founded.advance {n s : Node} {ss : List Node} (h : g.Founded ((n, s :: ss) :: path)) :
    g.Founded ((n, ss) :: path) := by
  intro f hf
  rcases List.mem_cons.1 hf with rfl | hf
  · exact ⟨(h _ (List.mem_cons_self ..)).1, fun t ht => (h _ (List.mem_cons_self ..)).2 t (List.mem_cons_of_mem _ ht)⟩
  · exact h f (List.mem_cons_of_mem _ hf)

theorem Founded.push {n s : Node} {ss : List Node} {b : Block}
    (h : g.Founded ((n, s :: ss) :: path)) (hb : g.block? s = some b) :
    g.Founded ((s, b.successors) :: (n, ss) :: path) := by
  intro f hf
  rcases List.mem_cons.1 hf with rfl | hf
  · obtain ⟨hn, hs⟩ := h _ (List.mem_cons_self ..)
    exact ⟨hn.step (hs s (List.mem_cons_self ..)), fun t ht => (edge_iff hb).2 ht⟩
  · exact h.advance f hf

theorem closing_sound (h : g.closing unseen path = .ok edges) (hp : g.Founded path) :
    ∀ e ∈ edges, g.Reaches e.1 ∧ g.Edge e.1 e.2 := by
  fun_induction closing g unseen path generalizing edges with
  | case1 => cases h; simp
  | case2 unseen n path ih => exact ih h fun f hf => hp f (List.mem_cons_of_mem _ hf)
  | case3 => cases h
  | case4 unseen n s ss path hs es he ih =>
    cases h
    intro e hm
    rcases List.mem_cons.1 hm with rfl | hm
    · obtain ⟨hn, hss⟩ := hp _ (List.mem_cons_self ..)
      exact ⟨hn, hss s (List.mem_cons_self ..)⟩
    · exact ih he hp.advance e hm
  | case5 => cases h
  | case6 unseen n s ss path hs b hb hu ih => exact ih h (hp.push hb)
  | case7 unseen n s ss path hs b hb hu ih => exact ih h hp.advance

theorem founded_start {b : Block} (hb : g.block? g.entry = some b) : g.Founded [(g.entry, b.successors)] := by
  intro f hf
  rw [List.mem_singleton] at hf
  subst hf
  exact ⟨ReflTransGen.refl, fun s hs => (edge_iff hb).2 hs⟩

theorem backEdges_sound (h : g.backEdges = .ok edges) {u v : Node} (he : (u, v) ∈ edges) :
    g.Reaches u ∧ g.Edge u v := by
  unfold backEdges at h
  cases hb : g.block? g.entry with
  | none => simp [hb] at h
  | some b =>
    simp only [hb] at h
    exact closing_sound h (founded_start hb) (u, v) he

theorem exists_closing (hr : ∀ i, g.Reaches i → ∃ b, g.block? i = some b) (hp : g.Founded path) :
    ∃ edges, g.closing unseen path = .ok edges := by
  fun_induction closing g unseen path with
  | case1 => exact ⟨[], rfl⟩
  | case2 unseen n path ih => exact ih fun f hf => hp f (List.mem_cons_of_mem _ hf)
  | case3 unseen n s ss path hs f hf ih =>
    obtain ⟨es, he⟩ := ih hp.advance
    rw [he] at hf
    cases hf
  | case4 => exact ⟨_, rfl⟩
  | case5 unseen n s ss path hs hb =>
    obtain ⟨hn, hss⟩ := hp _ (List.mem_cons_self ..)
    obtain ⟨b, hb'⟩ := hr s (hn.step (hss s (List.mem_cons_self ..)))
    rw [hb] at hb'
    cases hb'
  | case6 unseen n s ss path hs b hb hu ih => exact ih (hp.push hb)
  | case7 unseen n s ss path hs b hb hu ih => exact ih hp.advance

theorem exists_backEdges (hv : g.Valid) : ∃ edges, g.backEdges = .ok edges := by
  obtain ⟨b, hb⟩ := hv.1.exists_block
  unfold backEdges
  simp only [hb]
  exact exists_closing (fun i hi => hv.exists_block hi) (founded_start hb)

/-! ## loop headers -/

/-- The target of a closing edge. -/
def IsHeader (g : Graph) (h : Node) : Prop := ∃ edges u, g.backEdges = .ok edges ∧ (u, h) ∈ edges

theorem IsHeader.reaches {h : Node} (hh : g.IsHeader h) : g.Reaches h := by
  obtain ⟨edges, u, he, hm⟩ := hh
  obtain ⟨hu, hs⟩ := backEdges_sound he hm
  exact hu.step hs

/-- Along a walk that meets no header the rank falls. -/
def Descends (g : Graph) (rank : Node → Nat) : Prop :=
  ∀ i, g.Reaches i → 0 < rank i ∧ ∀ j, g.Edge i j → g.IsHeader j ∨ rank j < rank i

theorem exists_descends (hv : g.Valid) : ∃ rank, g.Descends rank ∧ ∀ i, rank i ≤ g.nodes.length := by
  obtain ⟨edges, he⟩ := exists_backEdges hv
  obtain ⟨rank, hle, hr⟩ := exists_rank he
  exact ⟨rank, fun i hi => ⟨(hr i hi).1, fun j hij => ((hr i hi).2 j hij).imp_left fun h => ⟨edges, i, he, h⟩⟩, hle⟩

theorem contains_foldl_addLoop (reached : List Node) (es : List (Node × Node))
    (ls : Keyed Node (List Node)) (h : Node) :
    (es.foldl (g.addLoop reached) ls).contains h = true ↔ ls.contains h = true ∨ ∃ u, (u, h) ∈ es := by
  induction es generalizing ls with
  | nil => simp
  | cons e es ih =>
    rw [List.foldl_cons, ih]
    have hput : (g.addLoop reached ls e).contains h = true ↔ e.2 = h ∨ ls.contains h = true := by
      simp only [addLoop, Keyed.contains, Keyed.get?_put]
      by_cases heq : e.2 = h <;> simp [heq]
    rw [hput]
    obtain ⟨u, v⟩ := e
    simp only [List.mem_cons, Prod.mk.injEq]
    constructor
    · rintro ((rfl | h) | ⟨w, h⟩)
      · exact .inr ⟨u, .inl ⟨rfl, rfl⟩⟩
      · exact .inl h
      · exact .inr ⟨w, .inr h⟩
    · rintro (h | ⟨w, ⟨rfl, rfl⟩ | h⟩)
      · exact .inl (.inr h)
      · exact .inl (.inl rfl)
      · exact .inr ⟨w, h⟩

/-- The headers stand in the order of their first closing edges. -/
theorem find?_foldl_addLoop (p : Node → Bool) (reached : List Node) (es : List (Node × Node))
    (ls : Keyed Node (List Node)) :
    (es.foldl (g.addLoop reached) ls).keys.find? p = (ls.keys.find? p).or ((es.map (·.2)).find? p) := by
  induction es generalizing ls with
  | nil => simp
  | cons e es ih =>
    have hkeys : (g.addLoop reached ls e).keys = if e.2 ∈ ls.keys then ls.keys else ls.keys ++
      [e.2] := Keyed.keys_put ..
    rw [List.foldl_cons, ih, List.map_cons, hkeys]
    by_cases hm : e.2 ∈ ls.keys
    · rw [if_pos hm]
      cases hf : ls.keys.find? p with
      | some h => rfl
      | none => rw [List.find?_cons_of_neg (List.find?_eq_none.1 hf e.2 hm)]
    · rw [if_neg hm, List.find?_append, Option.or_assoc, ← List.find?_append, List.singleton_append]

theorem loops_eq {ls : Keyed Node (List Node)} (h : g.loops = .ok ls) :
    ∃ reached edges, g.backEdges = .ok edges ∧ ls = edges.foldl (g.addLoop reached) .empty := by
  unfold loops at h
  simp only [bind, Except.bind] at h
  cases hp : g.predecessors with
  | error f => simp [hp] at h
  | ok ps =>
    cases hr : g.reachable with
    | error f => simp [hp, hr] at h
    | ok reached =>
      cases he : g.backEdges with
      | error f => simp [hp, hr, he] at h
      | ok edges =>
        simp only [hp, hr, he, Except.ok.injEq] at h
        exact ⟨reached, edges, rfl, h.symm⟩

theorem contains_loops {ls : Keyed Node (List Node)} (h : g.loops = .ok ls) {i : Node} :
    ls.contains i = true ↔ g.IsHeader i := by
  obtain ⟨reached, edges, he, rfl⟩ := loops_eq h
  rw [contains_foldl_addLoop]
  simp [IsHeader, he, Keyed.contains]

theorem find?_loops {ls : Keyed Node (List Node)} (h : g.loops = .ok ls)
    (he : g.backEdges = .ok edges) (p : Node → Bool) :
    ls.keys.find? p = (edges.map (·.2)).find? p := by
  obtain ⟨reached, edges', he', rfl⟩ := loops_eq h
  cases he.symm.trans he'
  exact find?_foldl_addLoop p reached edges .empty

/-- The loops of a graph with valid indices, from the searches they are made of. -/
theorem Valid.loops_eq (hv : g.Valid) {reached : List Node} (hr : g.reachable = .ok reached)
    (he : g.backEdges = .ok edges) : g.loops = .ok (edges.foldl (g.addLoop reached) .empty) := by
  have hp : (g.blocks.any fun b => b.successors.any fun s => !decide (g.IsIndex s)) = false := by
    simp only [List.any_eq_false, Bool.not_eq_true, Bool.not_eq_false', decide_eq_true_eq]
    exact fun b hb s hs => hv.2 b hb s hs
  unfold loops predecessors
  rw [hp, hr, he]
  rfl

theorem exists_loops (hv : g.Valid) : ∃ ls, g.loops = .ok ls := by
  obtain ⟨reached, hr⟩ := exists_reachable hv
  obtain ⟨edges, he⟩ := exists_backEdges hv
  exact ⟨_, hv.loops_eq hr he⟩

end ContractVerifier.Flow.Graph
