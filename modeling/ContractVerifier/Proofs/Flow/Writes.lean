import ContractVerifier.Proofs.Flow.Reach
import ContractVerifier.Proofs.Keyed

/-!
# Written variables

`assigned` lists the targets of the operations of some blocks, one for each name (`assigned_spec`).
For the reachable blocks these are the names that a run can change, `Writes`.
-/

namespace ContractVerifier.Flow.Graph

variable {g : Graph}

/-- A reachable block has an operation that writes to the name. -/
def Writes (g : Graph) (x : String) : Prop :=
  ∃ i b op w, g.Reaches i ∧ g.block? i = some b ∧ op ∈ b.ops ∧ op.target = some w ∧ w.name = x

theorem lists_addTargets {vs : Keyed String Var} {P : Var → Prop} (h : vs.Lists Var.name P)
    (ops : List Op) :
    (addTargets vs ops).Lists Var.name fun w => P w ∨ ∃ op ∈ ops, op.target = some w := by
  induction ops generalizing vs P with
  | nil => exact h.congr fun w => by simp
  | cons op ops ih =>
    unfold addTargets
    rw [List.foldl_cons]
    cases ht : op.target with
    | none => exact (ih h).congr fun w => by simp [ht]
    | some t =>
      refine (ih (h.putNew t rfl)).congr fun w => ?_
      simp only [List.mem_cons, exists_eq_or_imp, ht, Option.some.injEq, or_assoc, eq_comm (a := w)]

/-- `w` is written in one of the blocks. -/
def TargetIn (g : Graph) (is : List Node) (w : Var) : Prop :=
  ∃ i ∈ is, ∃ b, g.block? i = some b ∧ ∃ op ∈ b.ops, op.target = some w

theorem lists_foldlM {is : List Node} {vs ws : Keyed String Var} {P : Var → Prop}
    (h : vs.Lists Var.name P)
    (hf : is.foldlM (fun vs i => do
      let b ← g.block i
      (.ok (addTargets vs b.ops) : Except Fault (Keyed String Var))) vs = .ok ws) :
    ws.Lists Var.name fun w => P w ∨ g.TargetIn is w := by
  induction is generalizing vs P with
  | nil =>
    cases hf
    exact h.congr fun w => by simp [TargetIn]
  | cons i is ih =>
    rw [List.foldlM_cons] at hf
    unfold block at hf
    cases hb : g.block? i with
    | none => simp [hb, bind, Except.bind] at hf
    | some b =>
      simp only [hb, bind, Except.bind] at hf
      refine (ih (lists_addTargets h b.ops) hf).congr fun w => ?_
      simp only [TargetIn, List.mem_cons, exists_eq_or_imp, hb, Option.some.injEq, exists_eq_left',
        or_assoc]

theorem assigned_spec {is : List Node} {vs : Keyed String Var} (h : g.assigned is = .ok vs) :
    vs.Lists Var.name (g.TargetIn is) := by
  have h0 : (.empty : Keyed String Var).Lists Var.name fun _ => False :=
    ⟨by simp [Keyed.empty], fun w h => h.elim⟩
  refine (lists_foldlM h0 h).congr fun w => ?_
  simp [TargetIn, sorted, List.mem_mergeSort]

theorem exists_assigned {is : List Node} (h : ∀ i ∈ is, ∃ b, g.block? i = some b) : ∃ vs, g.assigned is = .ok vs := by
  have aux : ∀ (is : List Node) (vs : Keyed String Var), (∀ i ∈ is, ∃ b, g.block? i = some b) →
      ∃ ws, is.foldlM (fun vs i => do
        let b ← g.block i
        (.ok (addTargets vs b.ops) : Except Fault (Keyed String Var))) vs = .ok ws := by
    intro is
    induction is with
    | nil => exact fun vs _ => ⟨vs, rfl⟩
    | cons i is ih =>
      intro vs hi
      obtain ⟨b, hb⟩ := hi i (List.mem_cons_self ..)
      obtain ⟨ws, hws⟩ := ih (addTargets vs b.ops) fun j hj => hi j (List.mem_cons_of_mem _ hj)
      refine ⟨ws, ?_⟩
      rw [List.foldlM_cons]
      unfold block
      simp only [hb]
      exact hws
  refine aux (sorted is) .empty fun i hi => h i ?_
  simpa [sorted, List.mem_mergeSort] using hi

/-- Blocks that are reached in the order of their indices give their targets in that order. -/
theorem assigned_of_reachable {order : List Node} {vs : Keyed String Var}
    (hr : g.reachable = .ok order) (hs : order.Pairwise (· ≤ ·))
    (hvs : order.foldlM (fun vs i => do
      let b ← g.block i
      (.ok (addTargets vs b.ops) : Except Fault (Keyed String Var))) .empty = .ok vs) :
    g.reachable.bind g.assigned = .ok vs := by
  have hsorted : sorted order = order := List.mergeSort_of_pairwise (by simpa using hs)
  rw [hr, Except.bind, assigned, hsorted]
  exact hvs

theorem exists_reachable_assigned (hv : g.Valid) : ∃ vs, g.reachable.bind g.assigned = .ok vs := by
  obtain ⟨order, ho⟩ := exists_reachable hv
  obtain ⟨vs, hvs⟩ := exists_assigned fun i hi => hv.exists_block ((mem_reachable ho).1 hi)
  exact ⟨vs, by rw [ho]; exact hvs⟩

/-- The written variables of the reachable blocks. -/
theorem reachable_assigned {vs : Keyed String Var} (h : g.reachable.bind g.assigned = .ok vs) :
    vs.keys = vs.values.map (·.name) ∧ (∀ v ∈ vs.values, ∃ i b op, g.Reaches i ∧ g.block? i = some b ∧ op ∈ b.ops ∧
      op.target = some v) ∧ ∀ x, x ∈ vs.keys ↔ g.Writes x := by
  cases hr : g.reachable with
  | error f => simp [hr, Except.bind] at h
  | ok order =>
    rw [hr] at h
    have ht := assigned_spec h
    have hin : ∀ w, g.TargetIn order w ↔ ∃ i b op, g.Reaches i ∧ g.block? i = some b ∧ op ∈ b.ops ∧ op.target = some w := by
      intro w
      constructor
      · rintro ⟨i, hi, b, hb, op, hop, hw⟩
        exact ⟨i, b, op, (mem_reachable hr).1 hi, hb, hop, hw⟩
      · rintro ⟨i, b, op, hi, hb, hop, hw⟩
        exact ⟨i, (mem_reachable hr).2 hi, b, hb, op, hop, hw⟩
    refine ⟨?_, fun v hv => ?_, fun x => ⟨fun hx => ?_, ?_⟩⟩
    · unfold Keyed.keys Keyed.values
      rw [List.map_map]
      exact List.map_congr_left fun e he => (ht.entry e he).1.symm
    · obtain ⟨e, he, rfl⟩ := List.mem_map.1 hv
      exact (hin _).1 (ht.entry e he).2
    · obtain ⟨e, he, rfl⟩ := List.mem_map.1 hx
      obtain ⟨hn, hw⟩ := ht.entry e he
      obtain ⟨i, b, op, hi, hb, hop, hw⟩ := (hin _).1 hw
      exact ⟨i, b, op, e.2, hi, hb, hop, hw, hn⟩
    · rintro ⟨i, b, op, w, hi, hb, hop, hw, rfl⟩
      exact ht.complete w ((hin w).2 ⟨i, b, op, hi, hb, hop, hw⟩)

end ContractVerifier.Flow.Graph
