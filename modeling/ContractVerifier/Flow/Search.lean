import ContractVerifier.Flow.Graph

/-!
# Searching a flow graph

* `reachable` : the blocks reachable from the entry, in depth-first preorder;
* `backEdges` : the edges that close a cycle of a depth-first search from the entry;
* `loops` : the targets of these edges, each with the blocks of its natural loop;
* `assigned` : the variables that some blocks write.

The searches keep a list of what they have not seen yet, which is what makes them end: to see a node
costs more than what it adds to the nodes that wait, since a block leads to two others at most.
-/

namespace ContractVerifier.Flow.Graph

/-- The indices from zero on. -/
def indices (g : Graph) : List Node := (List.range g.blocks.length).map Int.ofNat

/-- All indices that lead to a block, those below zero first. -/
def nodes (g : Graph) : List Node :=
  (List.range (2 * g.blocks.length)).map fun (k : Nat) => (k : Int) - g.blocks.length

theorem length_erase_lt {n : Node} {unseen : List Node} (h : n ∈ unseen) :
    (unseen.erase n).length < unseen.length := by
  rw [List.length_erase_of_mem h]
  exact Nat.sub_one_lt_of_lt (List.length_pos_of_mem h)

/-! ## preorder -/

/-- Visits the nodes of the stack, the top one first. -/
def preorder (g : Graph) (unseen : List Node) : List Node → Except Fault (List Node)
  | [] => .ok []
  | n :: stack =>
    match g.block? n with
    | none => .error .noSuchBlock
    | some b =>
      if n ∈ unseen then
        match preorder g (unseen.erase n) (b.successors ++ stack) with
        | .error f => .error f
        | .ok order => .ok (n :: order)
      else preorder g unseen stack
termination_by stack => 2 * unseen.length + stack.length
decreasing_by
  · have := b.length_successors_le
    have := length_erase_lt ‹n ∈ unseen›
    simp only [List.length_append, List.length_cons]
    omega
  · simp

def reachable (g : Graph) : Except Fault (List Node) := g.preorder g.nodes [g.entry]

/-! ## closing edges -/

/-- A node of the current path and its successors that are still to be explored. -/
abbrev Frame := Node × List Node

/-- How much of the current path is to be explored. -/
def pending : List Frame → Nat
  | [] => 0
  | f :: path => f.2.length + 1 + pending path

/-- Explores the path, its last node first. -/
def closing (g : Graph) (unseen : List Node) : List Frame → Except Fault (List (Node × Node))
  | [] => .ok []
  | (_, []) :: path => closing g unseen path
  | (n, s :: ss) :: path =>
    if s ∈ n :: path.map (·.1) then
      match closing g unseen ((n, ss) :: path) with
      | .error f => .error f
      | .ok edges => .ok ((n, s) :: edges)
    else
      match g.block? s with
      | none => .error .noSuchBlock
      | some b =>
        if s ∈ unseen then closing g (unseen.erase s) ((s, b.successors) :: (n, ss) :: path)
        else closing g unseen ((n, ss) :: path)
termination_by path => 3 * unseen.length + pending path
decreasing_by
  · simp [pending]
  · simp [pending]
  · have := b.length_successors_le
    have := length_erase_lt ‹s ∈ unseen›
    simp only [pending, List.length_cons]
    omega
  · simp [pending]

/-- Edges `(source, header)` in the order in which the search meets them. -/
def backEdges (g : Graph) : Except Fault (List (Node × Node)) :=
  match g.block? g.entry with
  | none => .error .noSuchBlock
  | some b => g.closing (g.nodes.erase g.entry) [(g.entry, b.successors)]

/-! ## loops -/

/-- The blocks with an edge to `i`, one entry for each edge. -/
def predecessorsOf (g : Graph) (i : Node) : List Node :=
  g.indices.flatMap fun j => ((g.successors j).filter (· == i)).map fun _ => j

theorem length_successors_le (g : Graph) (i : Node) : (g.successors i).length ≤ 2 := by
  unfold successors
  split
  · exact Block.length_successors_le _
  · simp

theorem length_predecessorsOf_le (g : Graph) (i : Node) : (g.predecessorsOf i).length ≤ 2 * g.blocks.length := by
  have hle : ∀ js : List Node,
      (js.flatMap fun j => ((g.successors j).filter (· == i)).map fun _ => j).length ≤ 2 * js.length := by
    intro js
    induction js with
    | nil => simp
    | cons j js ih =>
      have := List.length_filter_le (· == i) (g.successors j)
      have := g.length_successors_le j
      simp only [List.flatMap_cons, List.length_append, List.length_map, List.length_cons]
      omega
  have hlen : g.indices.length = g.blocks.length := by simp [indices]
  exact hlen ▸ hle g.indices

/-- The predecessors of every block; every edge has to lead to an index from zero on. -/
def predecessors (g : Graph) : Except Fault (List (Node × List Node)) :=
  if g.blocks.any fun b => b.successors.any fun s => !decide (g.IsIndex s) then .error .noSuchTarget
  else .ok (g.indices.map fun i => (i, g.predecessorsOf i))

/-- Adds to `body` the blocks of `free` that lead to the waiting ones through `free`. -/
def absorb (g : Graph) (free body : List Node) : List Node → List Node
  | [] => body
  | n :: waiting =>
    if n ∈ free then absorb g (free.erase n) (n :: body) (g.predecessorsOf n ++ waiting)
    else absorb g free body waiting
termination_by waiting => (2 * g.blocks.length + 1) * free.length + waiting.length
decreasing_by
  · have := g.length_predecessorsOf_le n
    have :=
      Nat.mul_le_mul_left (2 * g.blocks.length + 1) (Nat.succ_le_of_lt (length_erase_lt ‹n ∈ free›))
    simp only [List.length_append, List.length_cons, Nat.mul_succ] at *
    omega
  · simp

/-- The loop of `edge` joined to the loop its header already has. -/
def addLoop (g : Graph) (reached : List Node) (ls : Keyed Node (List Node)) (edge : Node × Node) :
    Keyed Node (List Node) :=
  let body := (ls.get? edge.2).getD [edge.2]
  ls.put edge.2 (g.absorb (reached.filter fun n => !body.contains n) body [edge.1])

/-- Header and blocks of each natural loop, headers in the order of discovery. -/
def loops (g : Graph) : Except Fault (Keyed Node (List Node)) := do
  let _ ← g.predecessors
  let reached ← g.reachable
  let edges ← g.backEdges
  .ok (edges.foldl (g.addLoop reached) .empty)

/-! ## written variables -/

def sorted (is : List Node) : List Node := is.mergeSort fun i j => i ≤ j

/-- The targets of the operations of a block, one entry for each name. -/
def addTargets (vs : Keyed String Var) (ops : List Op) : Keyed String Var :=
  ops.foldl (fun vs op =>
    match op.target with
    | some t => vs.putNew t.name t
    | none => vs) vs

/-- The variables the given blocks write, by block index. -/
def assigned (g : Graph) (is : List Node) : Except Fault (Keyed String Var) :=
  (sorted is).foldlM (fun vs i => do
    let b ← g.block i
    .ok (addTargets vs b.ops)) .empty

end ContractVerifier.Flow.Graph
