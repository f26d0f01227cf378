import ContractVerifier.Proofs.Flow.NaturalLoop
import ContractVerifier.Proofs.Flow.Writes

/-!
# The live part of a graph

`Agrees g g'` : two graphs have the same entry, and the same blocks where these can be reached.  All
searches from the entry then give the same, whatever else the graphs hold.  A search also keeps the
nodes that it has not seen, and of these it matters only which of the reachable ones are among them.
-/

namespace ContractVerifier.Flow.Graph

/-- The same graph, as far as it can be reached. -/
structure Agrees (g g' : Graph) : Prop where
  entry : g'.entry = g.entry
  block : ∀ i, g.Reaches i → g'.block? i = g.block? i

/-- The same reachable nodes are left. -/
def SameLeft (g : Graph) (unseen unseen' : List Node) : Prop :=
  ∀ i, g.Reaches i → (i ∈ unseen' ↔ i ∈ unseen)

variable {g g' : Graph} {unseen unseen' stack : List Node} {path : List Frame}

theorem SameLeft.erase (h : g.SameLeft unseen unseen') (hu : unseen.Nodup) (hu' : unseen'.Nodup)
    (n : Node) :
    g.SameLeft (unseen.erase n) (unseen'.erase n) := by
  intro i hi
  rw [hu.mem_erase_iff, hu'.mem_erase_iff, h i hi]

namespace Agrees

theorem edge_iff (h : g.Agrees g') {i j : Node} (hi : g.Reaches i) : g'.Edge i j ↔ g.Edge i j := by
  unfold Edge successors
  rw [h.block i hi]

theorem reaches_iff (h : g.Agrees g') {i : Node} : g'.Reaches i ↔ g.Reaches i := by
  constructor
  · intro hi
    induction hi with
    | refl => exact h.entry ▸ .refl
    | tail _ he ih => exact ih.step ((h.edge_iff ih).1 he)
  · intro hi
    induction hi with
    | refl => exact h.entry ▸ .refl
    | @tail i j hi he ih => exact ih.step ((h.edge_iff hi).2 he)

/-! ## preorder -/

theorem preorder_eq (h : g.Agrees g') (hu : unseen.Nodup) (hu' : unseen'.Nodup)
    (hl : g.SameLeft unseen unseen') (hs : ∀ i ∈ stack, g.Reaches i) :
    g'.preorder unseen' stack = g.preorder unseen stack := by
  -- what is put on the stack is reachable again
  have hpush : ∀ {n : Node} {b : Block} {stack : List Node}, g.block? n = some b → (∀ i ∈ n :: stack, g.Reaches i) →
      ∀ i ∈ b.successors ++ stack, g.Reaches i := by
    intro n b stack hb hs i hi
    rcases List.mem_append.1 hi with hi | hi
    · exact (hs n (List.mem_cons_self ..)).step ((Graph.edge_iff hb).2 hi)
    · exact hs i (List.mem_cons_of_mem _ hi)
  fun_induction preorder g unseen stack generalizing unseen' with
  | case1 => exact preorder_nil _
  | case2 unseen n stack hb =>
    have hn := hs n (List.mem_cons_self ..)
    exact preorder_missing ((h.block n hn).trans hb)
  | case3 unseen n stack b hb hmem f hf ih =>
    have hn := hs n (List.mem_cons_self ..)
    rw [preorder_visit ((h.block n hn).trans hb) ((hl n hn).2 hmem),
      ih (hu.erase n) (hu'.erase n) (hl.erase hu hu' n) (hpush hb hs), hf]
    rfl
  | case4 unseen n stack b hb hmem order ho ih =>
    have hn := hs n (List.mem_cons_self ..)
    rw [preorder_visit ((h.block n hn).trans hb) ((hl n hn).2 hmem),
      ih (hu.erase n) (hu'.erase n) (hl.erase hu hu' n) (hpush hb hs), ho]
    rfl
  | case5 unseen n stack b hb hmem ih =>
    have hn := hs n (List.mem_cons_self ..)
    rw [preorder_skip ((h.block n hn).trans hb) fun hm => hmem ((hl n hn).1 hm)]
    exact ih hu hu' hl fun i hi => hs i (List.mem_cons_of_mem _ hi)

/-- Reachable nodes are nodes of both graphs. -/
theorem sameLeft_nodes (h : g.Agrees g') (hv : g.Valid) : g.SameLeft g.nodes g'.nodes := by
  intro i hi
  obtain ⟨b, hb⟩ := hv.exists_block hi
  exact iff_of_true (mem_nodes_of_block ((h.block i hi).trans hb)) (mem_nodes_of_block hb)

theorem reachable_eq (h : g.Agrees g') (hv : g.Valid) : g'.reachable = g.reachable := by
  unfold reachable
  rw [h.entry]
  refine h.preorder_eq (nodup_nodes g) (nodup_nodes g') (h.sameLeft_nodes hv) fun i hi => ?_
  rw [List.mem_singleton.1 hi]
  exact .refl

/-! ## closing edges -/

theorem closing_eq (h : g.Agrees g') (hu : unseen.Nodup) (hu' : unseen'.Nodup)
    (hl : g.SameLeft unseen unseen') (hp : g.Founded path) :
    g'.closing unseen' path = g.closing unseen path := by
  -- the next node of a path is reachable
  have hnext : ∀ {n s : Node} {ss : List Node} {path : List Frame}, g.Founded ((n, s :: ss) :: path) → g.Reaches s := by
    intro n s ss path hp
    obtain ⟨hn, hss⟩ := hp _ (List.mem_cons_self ..)
    exact hn.step (hss s (List.mem_cons_self ..))
  fun_induction closing g unseen path generalizing unseen' with
  | case1 => exact closing_nil _
  | case2 unseen n path ih =>
    rw [closing_pop]
    exact ih hu hu' hl fun f hf => hp f (List.mem_cons_of_mem _ hf)
  | case3 unseen n s ss path hs f hf ih =>
    rw [closing_close hs, ih hu hu' hl hp.advance, hf]
    rfl
  | case4 unseen n s ss path hs es he ih =>
    rw [closing_close hs, ih hu hu' hl hp.advance, he]
    rfl
  | case5 unseen n s ss path hs hb => exact closing_missing hs ((h.block s (hnext hp)).trans hb)
  | case6 unseen n s ss path hs b hb hmem ih =>
    rw [closing_push hs ((h.block s (hnext hp)).trans hb) ((hl s (hnext hp)).2 hmem)]
    exact ih (hu.erase s) (hu'.erase s) (hl.erase hu hu' s) (hp.push hb)
  | case7 unseen n s ss path hs b hb hmem ih =>
    rw [closing_skip hs ((h.block s (hnext hp)).trans hb) fun hm => hmem ((hl s (hnext hp)).1 hm)]
    exact ih hu hu' hl hp.advance

theorem backEdges_eq (h : g.Agrees g') (hv : g.Valid) : g'.backEdges = g.backEdges := by
  obtain ⟨b, hb⟩ := hv.1.exists_block
  unfold backEdges
  rw [h.entry, h.block g.entry .refl, hb]
  have hl := (h.sameLeft_nodes hv).erase (nodup_nodes g) (nodup_nodes g') g.entry
  exact h.closing_eq ((nodup_nodes g).erase _) ((nodup_nodes g').erase _) hl (founded_start hb)

theorem keys_loops_eq (h : g.Agrees g') (hv : g.Valid) (hv' : g'.Valid)
    {ls ls' : Keyed Node (List Node)} (hl : g.loops = .ok ls) (hl' : g'.loops = .ok ls') :
    ls'.keys = ls.keys := by
  obtain ⟨edges, he⟩ := exists_backEdges hv
  have he' : g'.backEdges = .ok edges := (h.backEdges_eq hv).trans he
  rw [(natural_loops hv he hl).keys, (natural_loops hv' he' hl').keys]

/-! ## written variables -/

theorem assigned_eq (h : g.Agrees g') {is : List Node} (his : ∀ i ∈ is, g.Reaches i) : g'.assigned is = g.assigned is := by
  have hsorted : ∀ i ∈ sorted is, g.Reaches i :=
    fun i hi => his i (by simpa [sorted, List.mem_mergeSort] using hi)
  unfold assigned
  generalize sorted is = js at hsorted
  generalize (.empty : Keyed String Var) = vs
  induction js generalizing vs with
  | nil => rfl
  | cons i js ih =>
    obtain ⟨hi, hjs⟩ := List.forall_mem_cons.1 hsorted
    have hblock : g'.block i = g.block i := by
      unfold Graph.block
      rw [h.block i hi]
    rw [List.foldlM_cons, List.foldlM_cons, hblock]
    cases g.block i with
    | error f => rfl
    | ok b => exact ih hjs _

theorem reachable_assigned_eq (h : g.Agrees g') (hv : g.Valid) :
    g'.reachable.bind g'.assigned = g.reachable.bind g.assigned := by
  obtain ⟨order, ho⟩ := exists_reachable hv
  rw [h.reachable_eq hv, ho]
  exact h.assigned_eq fun i hi => (mem_reachable ho).1 hi

end Agrees

end ContractVerifier.Flow.Graph
