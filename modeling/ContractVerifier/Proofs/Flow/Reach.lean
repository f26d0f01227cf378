import ContractVerifier.Flow.Search
import Mathlib.Data.List.Nodup
import Mathlib.Logic.Relation

/-!
# The blocks a search visits

`Graph.Reaches` is reachability from the entry along edges.  `mem_reachable` says that the preorder
search visits exactly these blocks, and `exists_reachable` that it succeeds on a graph whose edges
lead to blocks.

The search is described by what it has left behind (`Left`): a node that was seen has only
successors that were seen or wait on the stack.
-/

namespace ContractVerifier.Flow.Graph

open Relation

variable {g : Graph}

/-- Reachable from the entry. -/
def Reaches (g : Graph) (i : Node) : Prop := ReflTransGen g.Edge g.entry i

theorem Reaches.step {i j : Node} (h : g.Reaches i) (he : g.Edge i j) : g.Reaches j :=
  ReflTransGen.tail h he

/-! ## nodes and blocks -/

theorem mem_nodes {i : Int} : i ∈ g.nodes ↔ -(g.blocks.length : Int) ≤ i ∧ i < g.blocks.length := by
  unfold nodes
  simp only [List.mem_map, List.mem_range]
  constructor
  · rintro ⟨k, hk, rfl⟩
    omega
  · rintro ⟨h1, h2⟩
    exact ⟨(i + g.blocks.length).toNat, by omega, by omega⟩

theorem nodup_nodes (g : Graph) : g.nodes.Nodup := by
  refine List.Nodup.map ?_ List.nodup_range
  intro a b h
  have h' : (a : Int) - g.blocks.length = b - g.blocks.length := h
  omega

theorem block?_def (g : Graph) (i : Int) :
    g.block? i = if i < -(g.blocks.length : Int) then none else g.blocks[g.position i]? := rfl

theorem position_def (g : Graph) (i : Int) :
    g.position i = if i < 0 then (g.blocks.length + i).toNat else i.toNat := rfl

theorem block?_natCast (g : Graph) (i : Nat) : g.block? i = g.blocks[i]? := by
  have hnonneg : ¬ (i : Int) < 0 := by omega
  have hstart : ¬ (i : Int) < -(g.blocks.length : Int) := by omega
  rw [block?_def, if_neg hstart, position_def, if_neg hnonneg, Int.toNat_natCast]

theorem mem_nodes_of_block {i : Int} {b : Block} (h : g.block? i = some b) : i ∈ g.nodes := by
  rw [block?_def] at h
  split at h
  · cases h
  · have hp := (List.getElem?_eq_some_iff.1 h).1
    rw [position_def] at hp
    rw [mem_nodes]
    split at hp <;> omega

theorem successors_of_block {i : Node} {b : Block} (h : g.block? i = some b) : g.successors i = b.successors := by
  simp [successors, h]

theorem edge_iff {i j : Node} {b : Block} (h : g.block? i = some b) : g.Edge i j ↔ j ∈ b.successors := by
  rw [Edge, successors_of_block h]

instance (g : Graph) : Decidable g.Valid := inferInstanceAs (Decidable (_ ∧ _))

theorem IsIndex.exists_block {i : Int} (h : g.IsIndex i) : ∃ b, g.block? i = some b := by
  have h0 : (0 : Int) ≤ i := h.1
  have hl : i < (g.blocks.length : Int) := h.2
  have hp : g.position i < g.blocks.length := by rw [position_def]; split <;> omega
  refine ⟨g.blocks[g.position i], ?_⟩
  rw [block?_def, if_neg (by omega)]
  exact List.getElem?_eq_getElem hp

theorem mem_blocks_of_block {i : Node} {b : Block} (h : g.block? i = some b) : b ∈ g.blocks := by
  unfold block? at h
  split at h
  · cases h
  · exact List.mem_of_getElem? h

/-- What is reachable in a graph with valid indices is a block. -/
theorem Valid.isIndex (hv : g.Valid) {i : Node} (h : g.Reaches i) : g.IsIndex i := by
  induction h with
  | refl => exact hv.1
  | @tail j k _ he ih =>
    obtain ⟨b, hb⟩ := ih.exists_block
    exact hv.2 b (mem_blocks_of_block hb) k ((edge_iff hb).1 he)

theorem Valid.exists_block (hv : g.Valid) {i : Node} (h : g.Reaches i) : ∃ b, g.block? i = some b :=
  (hv.isIndex h).exists_block

/-! ## the preorder search -/

theorem preorder_nil (unseen : List Node) : g.preorder unseen [] = .ok [] := by
  unfold preorder
  rfl

/-- What one step of the search does. -/
theorem preorder_cons (unseen stack : List Node) (n : Node) :
    g.preorder unseen (n :: stack) = (g.block? n).elim (.error .noSuchBlock) fun b =>
      if n ∈ unseen then (g.preorder (unseen.erase n) (b.successors ++ stack)).map (n :: ·) else g.preorder unseen stack := by
  conv_lhs => unfold preorder
  cases g.block? n with
  | none => rfl
  | some b =>
    simp only [Option.elim_some]
    cases g.preorder (unseen.erase n) (b.successors ++ stack) <;> rfl

theorem preorder_missing {unseen stack : List Node} {n : Node} (hb : g.block? n = none) :
    g.preorder unseen (n :: stack) = .error .noSuchBlock := by
  rw [preorder_cons, hb, Option.elim_none]

theorem preorder_visit {unseen stack : List Node} {n : Node} {b : Block} (hb : g.block? n = some b)
    (hn : n ∈ unseen) :
    g.preorder unseen (n :: stack) = (g.preorder (unseen.erase n) (b.successors ++ stack)).map (n :: ·) := by
  rw [preorder_cons, hb, Option.elim_some, if_pos hn]

theorem preorder_skip {unseen stack : List Node} {n : Node} {b : Block} (hb : g.block? n = some b)
    (hn : n ∉ unseen) :
    g.preorder unseen (n :: stack) = g.preorder unseen stack := by
  rw [preorder_cons, hb, Option.elim_some, if_neg hn]

/-- A node that is no longer unseen. -/
def Seen (g : Graph) (unseen : List Node) (i : Node) : Prop := i ∈ g.nodes ∧ i ∉ unseen

/-- Successors of seen nodes are seen or wait. -/
def Left (g : Graph) (unseen stack : List Node) : Prop :=
  ∀ d, g.Seen unseen d → ∀ s, g.Edge d s → g.Seen unseen s ∨ s ∈ stack

theorem seen_erase {unseen : List Node} (hu : unseen.Nodup) {n i : Node} :
    g.Seen (unseen.erase n) i ↔ i ∈ g.nodes ∧ (i = n ∨ i ∉ unseen) := by
  unfold Seen
  rw [hu.mem_erase_iff]
  tauto

theorem left_step {unseen stack : List Node} {n : Node} {b : Block} (hu : unseen.Nodup)
    (hb : g.block? n = some b) (hl : g.Left unseen (n :: stack)) :
    g.Left (unseen.erase n) (b.successors ++ stack) := by
  intro d hd s hs
  rw [seen_erase hu] at hd ⊢
  rcases hd with ⟨hd, rfl | hdu⟩
  · exact .inr (List.mem_append_left _ ((edge_iff hb).1 hs))
  · rcases hl d ⟨hd, hdu⟩ s hs with h | h
    · exact .inl ⟨h.1, .inr h.2⟩
    · rcases List.mem_cons.1 h with rfl | h
      · exact .inl ⟨mem_nodes_of_block hb, .inl rfl⟩
      · exact .inr (List.mem_append_right _ h)

theorem left_skip {unseen stack : List Node} {n : Node} {b : Block} (hb : g.block? n = some b)
    (hn : n ∉ unseen) (hl : g.Left unseen (n :: stack)) : g.Left unseen stack := by
  intro d hd s hs
  rcases hl d hd s hs with h | h
  · exact .inl h
  · rcases List.mem_cons.1 h with rfl | h
    · exact .inl ⟨mem_nodes_of_block hb, hn⟩
    · exact .inr h

/-- Nothing is missed: what the search returns, with what it had seen before, holds the stack and is
closed under edges. -/
theorem preorder_closed {unseen stack order : List Node} (h : g.preorder unseen stack = .ok order)
    (hu : unseen.Nodup) (hl : g.Left unseen stack) :
    (∀ n ∈ stack, n ∈ order ∨ g.Seen unseen n) ∧
      ∀ d, d ∈ order ∨ g.Seen unseen d → ∀ s, g.Edge d s → s ∈ order ∨ g.Seen unseen s := by
  fun_induction preorder g unseen stack generalizing order with
  | case1 unseen =>
    cases h
    refine ⟨by simp, fun d hd s hs => ?_⟩
    rcases hl d (by simpa using hd) s hs with h | h
    · exact .inr h
    · simp at h
  | case2 => cases h
  | case3 => cases h
  | case4 unseen n stack b hb hn order' ho ih =>
    cases h
    obtain ⟨h1, h2⟩ := ih ho (hu.erase n) (left_step hu hb hl)
    -- to be seen after the step is to be seen before it, or to be `n`
    have key : ∀ i, i ∈ order' ∨ g.Seen (unseen.erase n) i → i ∈ n :: order' ∨ g.Seen unseen i := by
      rintro i (hi | hi)
      · exact .inl (List.mem_cons_of_mem _ hi)
      · rcases (seen_erase hu).1 hi with ⟨hi, rfl | hiu⟩
        · exact .inl (List.mem_cons_self ..)
        · exact .inr ⟨hi, hiu⟩
    have key' : ∀ i, i ∈ n :: order' ∨ g.Seen unseen i → i ∈ order' ∨ g.Seen (unseen.erase n) i := by
      rintro i (hi | hi)
      · rcases List.mem_cons.1 hi with rfl | hi
        · exact .inr ((seen_erase hu).2 ⟨mem_nodes_of_block hb, .inl rfl⟩)
        · exact .inl hi
      · exact .inr ((seen_erase hu).2 ⟨hi.1, .inr hi.2⟩)
    refine ⟨fun m hm => ?_, fun d hd s hs => key s (h2 d (key' d hd) s hs)⟩
    rcases List.mem_cons.1 hm with rfl | hm
    · exact .inl (List.mem_cons_self ..)
    · exact key m (h1 m (List.mem_append_right _ hm))
  | case5 unseen n stack b hb hn ih =>
    obtain ⟨h1, h2⟩ := ih h hu (left_skip hb hn hl)
    refine ⟨fun m hm => ?_, h2⟩
    rcases List.mem_cons.1 hm with rfl | hm
    · exact .inr ⟨mem_nodes_of_block hb, hn⟩
    · exact h1 m hm

/-- Nothing is invented. -/
theorem preorder_sound {unseen stack order : List Node} (h : g.preorder unseen stack = .ok order)
    {i : Node} (hi : i ∈ order) : ∃ n ∈ stack, ReflTransGen g.Edge n i := by
  fun_induction preorder g unseen stack generalizing order with
  | case1 => cases h; simp at hi
  | case2 => cases h
  | case3 => cases h
  | case4 unseen n stack b hb hn order' ho ih =>
    cases h
    rcases List.mem_cons.1 hi with rfl | hi
    · exact ⟨i, List.mem_cons_self .., .refl⟩
    · obtain ⟨m, hm, hr⟩ := ih ho hi
      rcases List.mem_append.1 hm with hm | hm
      · exact ⟨n, List.mem_cons_self .., ReflTransGen.head ((edge_iff hb).2 hm) hr⟩
      · exact ⟨m, List.mem_cons_of_mem _ hm, hr⟩
  | case5 unseen n stack b hb hn ih =>
    obtain ⟨m, hm, hr⟩ := ih h hi
    exact ⟨m, List.mem_cons_of_mem _ hm, hr⟩

/-- No node is visited twice. -/
theorem preorder_nodup {unseen stack order : List Node} (h : g.preorder unseen stack = .ok order)
    (hu : unseen.Nodup) : order.Nodup ∧ ∀ i ∈ order, i ∈ unseen := by
  fun_induction preorder g unseen stack generalizing order with
  | case1 => cases h; simp
  | case2 => cases h
  | case3 => cases h
  | case4 unseen n stack b hb hn order' ho ih =>
    cases h
    obtain ⟨h1, h2⟩ := ih ho (hu.erase n)
    have hfresh : n ∉ order' := fun hm => (hu.mem_erase_iff.1 (h2 n hm)).1 rfl
    refine ⟨List.nodup_cons.2 ⟨hfresh, h1⟩, fun i hi => ?_⟩
    rcases List.mem_cons.1 hi with rfl | hi
    · exact hn
    · exact List.mem_of_mem_erase (h2 i hi)
  | case5 unseen n stack b hb hn ih => exact ih h hu

theorem exists_preorder {unseen stack : List Node}
    (h : ∀ n ∈ stack, ∀ i, ReflTransGen g.Edge n i → ∃ b, g.block? i = some b) :
    ∃ order, g.preorder unseen stack = .ok order := by
  fun_induction preorder g unseen stack with
  | case1 => exact ⟨[], rfl⟩
  | case2 unseen n stack hb =>
    obtain ⟨b, hb'⟩ := h n (List.mem_cons_self ..) n .refl
    rw [hb] at hb'
    cases hb'
  | case3 unseen n stack b hb hn f hf ih =>
    obtain ⟨order, ho⟩ := ih fun m hm i hi => by
      rcases List.mem_append.1 hm with hm | hm
      · exact h n (List.mem_cons_self ..) i (ReflTransGen.head ((edge_iff hb).2 hm) hi)
      · exact h m (List.mem_cons_of_mem _ hm) i hi
    rw [ho] at hf
    cases hf
  | case4 unseen n stack b hb hn order ho ih => exact ⟨_, rfl⟩
  | case5 unseen n stack b hb hn ih => exact ih fun m hm => h m (List.mem_cons_of_mem _ hm)

/-! ## reachability -/

theorem mem_reachable {order : List Node} (h : g.reachable = .ok order) {i : Node} : i ∈ order ↔ g.Reaches i := by
  have hnone : ∀ j, ¬ g.Seen g.nodes j := fun j hj => hj.2 hj.1
  obtain ⟨h1, h2⟩ := preorder_closed h (nodup_nodes g) fun d hd => absurd hd (hnone d)
  constructor
  · intro hi
    obtain ⟨n, hn, hr⟩ := preorder_sound h hi
    rw [List.mem_singleton] at hn
    subst hn
    exact hr
  · intro hr
    induction hr with
    | refl => exact (h1 g.entry (by simp)).resolve_right (hnone _)
    | @tail j k _ he ih => exact (h2 j (.inl ih) k he).resolve_right (hnone _)

theorem nodup_reachable {order : List Node} (h : g.reachable = .ok order) : order.Nodup :=
  (preorder_nodup h (nodup_nodes g)).1

theorem exists_reachable (hv : g.Valid) : ∃ order, g.reachable = .ok order := by
  apply exists_preorder
  intro n hn i hr
  rw [List.mem_singleton] at hn
  subst hn
  exact hv.exists_block hr

end ContractVerifier.Flow.Graph
