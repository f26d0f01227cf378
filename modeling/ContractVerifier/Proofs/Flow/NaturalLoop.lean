import ContractVerifier.Proofs.Flow.Closing

/-!
# Natural loops

The loop of a header are the blocks that lead to the source of one of its closing edges without
passing the header.

* `Within g S n u` : a path from `n` to `u` all of whose nodes have the property `S`;
* `mem_absorb` : one search against the edges adds what leads to its start inside the nodes that are
  free;
* `InLoop`, `natural_addLoop` : one closing edge after the other.  A path to a later edge may run
  into the loop that earlier edges gave; from there on it can follow one of those;
* `natural_loops`, `loops_natural` : the headers in the order of discovery, each with its loop.
-/

namespace ContractVerifier.Flow.Graph

variable {g : Graph} {S T : Node → Prop} {n m u h : Node} {free body waiting reached : List Node}
  {edges : List (Node × Node)} {ls : Keyed Node (List Node)}

/-! ## paths that stay inside -/

/-- A path from one node to another, all of whose nodes have the property. -/
inductive Within (g : Graph) (S : Node → Prop) : Node → Node → Prop where
  | here {n : Node} : S n → Within g S n n
  | step {n m u : Node} : S n → g.Edge n m → Within g S m u → Within g S n u

namespace Within

theorem start (h : g.Within S n u) : S n := by
  cases h <;> assumption

theorem last (h : g.Within S n u) : S u := by
  induction h with
  | here hn => exact hn
  | step _ _ _ ih => exact ih

theorem mono (h : g.Within S n u) (hs : ∀ i, S i → T i) : g.Within T n u := by
  induction h with
  | here hn => exact .here (hs _ hn)
  | step hn he _ ih => exact .step (hs _ hn) he ih

theorem trans (h : g.Within S n m) (h' : g.Within S m u) : g.Within S n u := by
  induction h with
  | here _ => exact h'
  | step hn he _ ih => exact .step hn he (ih h')

theorem tail (h : g.Within S n m) (he : g.Edge m u) (hu : S u) : g.Within S n u :=
  h.trans (.step h.last he (.here hu))

theorem reaches (h : g.Within S n u) (hn : g.Reaches n) : g.Within (fun i => S i ∧ g.Reaches i) n u := by
  induction h with
  | here hs => exact .here ⟨hs, hn⟩
  | step hs he _ ih => exact .step ⟨hs, hn⟩ he (ih (hn.step he))

/-- A path stays outside of `T`, or it starts there, or there is an edge on which it comes in for
the first time. -/
theorem enter (T : Node → Prop) (h : g.Within S n u) : g.Within (fun i => S i ∧ ¬ T i) n u ∨ T n ∨
    ∃ p b, g.Within (fun i => S i ∧ ¬ T i) n p ∧ g.Edge p b ∧ S b ∧ T b := by
  induction h with
  | @here n hn =>
    by_cases ht : T n
    · exact .inr (.inl ht)
    · exact .inl (.here ⟨hn, ht⟩)
  | @step n m u hn he h ih =>
    by_cases ht : T n
    · exact .inr (.inl ht)
    · rcases ih with hout | hm | ⟨p, b, hp, hpb, hb⟩
      · exact .inl (.step ⟨hn, ht⟩ he hout)
      · exact .inr (.inr ⟨n, m, .here ⟨hn, ht⟩, he, h.start, hm⟩)
      · exact .inr (.inr ⟨p, b, .step ⟨hn, ht⟩ he hp, hpb, hb⟩)

end Within

/-! ## against the edges -/

theorem mem_indices {i : Int} : i ∈ g.indices ↔ g.IsIndex i := by
  unfold indices IsIndex
  rw [List.mem_map]
  constructor
  · rintro ⟨k, hk, rfl⟩
    exact ⟨Int.natCast_nonneg k, Int.ofNat_lt.2 (List.mem_range.1 hk)⟩
  · rintro ⟨h0, hl⟩
    exact ⟨i.toNat, List.mem_range.2 ((Int.toNat_lt h0).2 hl), Int.toNat_of_nonneg h0⟩

theorem mem_predecessorsOf : m ∈ g.predecessorsOf n ↔ g.IsIndex m ∧ g.Edge m n := by
  unfold predecessorsOf Edge
  simp only [List.mem_flatMap, List.mem_map, List.mem_filter, beq_iff_eq, mem_indices]
  constructor
  · rintro ⟨j, hj, s, ⟨hs, rfl⟩, rfl⟩
    exact ⟨hj, hs⟩
  · rintro ⟨hm, hn⟩
    exact ⟨m, hm, n, ⟨hn, rfl⟩, rfl⟩

theorem mem_absorb (hf : free.Nodup) (hi : ∀ i ∈ free, g.IsIndex i) :
    m ∈ g.absorb free body waiting ↔ m ∈ body ∨ ∃ w ∈ waiting, g.Within (· ∈ free) m w := by
  fun_induction absorb g free body waiting with
  | case1 free body => simp
  | case2 free body n waiting hn ih =>
    rw [ih (hf.erase n) fun i h => hi i (List.mem_of_mem_erase h)]
    have herase : ∀ i, i ∈ free.erase n ↔ i ∈ free ∧ ¬ i = n :=
      fun i => by rw [hf.mem_erase_iff, and_comm]
    simp only [herase, List.mem_cons, List.mem_append, exists_eq_or_imp]
    constructor
    · rintro ((rfl | hm) | ⟨w, hw | hw, hp⟩)
      · exact .inr (.inl (.here hn))
      · exact .inl hm
      · exact .inr (.inl ((hp.mono fun i h => h.1).tail (mem_predecessorsOf.1 hw).2 hn))
      · exact .inr (.inr ⟨w, hw, hp.mono fun i h => h.1⟩)
    · -- a path that comes to `n` comes from a predecessor of `n`
      have hin : ∀ w, g.Within (· ∈ free) m w →
          g.Within (fun i => i ∈ free ∧ ¬ i = n) m w ∨ m = n ∨
            ∃ p ∈ g.predecessorsOf n, g.Within (fun i => i ∈ free ∧ ¬ i = n) m p := by
        intro w hw
        rcases hw.enter (· = n) with hout | hm | ⟨p, b, hp, he, -, rfl⟩
        · exact .inl hout
        · exact .inr (.inl hm)
        · exact .inr (.inr ⟨p, mem_predecessorsOf.2 ⟨hi p hp.last.1, he⟩, hp⟩)
      rintro (hm | hpath | ⟨w, hw, hpath⟩)
      · exact .inl (.inr hm)
      · rcases hin n hpath with hout | hm | ⟨p, hp, hpath⟩
        · exact absurd rfl hout.last.2
        · exact .inl (.inl hm)
        · exact .inr ⟨p, .inl hp, hpath⟩
      · rcases hin w hpath with hout | hm | ⟨p, hp, hpath⟩
        · exact .inr ⟨w, .inr hw, hout⟩
        · exact .inl (.inl hm)
        · exact .inr ⟨p, .inl hp, hpath⟩
  | case3 free body n waiting hn ih =>
    rw [ih hf hi]
    simp only [List.mem_cons, exists_eq_or_imp]
    have hnone : ¬ g.Within (· ∈ free) m n := fun hp => hn hp.last
    tauto

theorem nodup_absorb (hf : free.Nodup) (hb : body.Nodup) (hd : ∀ i ∈ free, i ∉ body) :
    (g.absorb free body waiting).Nodup := by
  fun_induction absorb g free body waiting with
  | case1 => exact hb
  | case2 free body n waiting hn ih =>
    refine ih (hf.erase n) (List.nodup_cons.2 ⟨hd n hn, hb⟩) fun i hi hm => ?_
    obtain ⟨hne, hfree⟩ := hf.mem_erase_iff.1 hi
    exact hd i hfree ((List.mem_cons.1 hm).resolve_left hne)
  | case3 free body n waiting hn ih => exact ih hf hb hd

/-! ## one closing edge after the other -/

/-- The header itself, and the reachable blocks that lead to the source of an edge to it without
passing it. -/
def InLoop (g : Graph) (edges : List (Node × Node)) (h n : Node) : Prop :=
  n = h ∨ g.Reaches n ∧ ∃ u, (u, h) ∈ edges ∧ g.Within (· ≠ h) n u

/-- What is known of the loops that were found for some closing edges. -/
structure Natural (g : Graph) (edges : List (Node × Node)) (ls : Keyed Node (List Node)) :
    Prop where
  keys : ls.keys = (edges.map (·.2)).eraseDups
  body : ∀ h body, ls.get? h = some body → body.Nodup ∧ ∀ n, n ∈ body ↔ g.InLoop edges h n

/-- An element that was there before adds nothing. -/
theorem eraseDups_concat (l : List Node) (a : Node) :
    (l ++ [a]).eraseDups = if a ∈ l then l.eraseDups else l.eraseDups ++ [a] := by
  rw [List.eraseDups_append]
  by_cases ha : a ∈ l
  · simp [List.removeAll, ha]
  · simp [List.removeAll, ha, List.eraseDups_cons]

theorem inLoop_append_of_ne {e : Node × Node} (hne : e.2 ≠ h) : g.InLoop (edges ++ [e]) h n ↔ g.InLoop edges h n := by
  have hmem : ∀ u, (u, h) ∈ edges ++ [e] ↔ (u, h) ∈ edges := by
    intro u
    rw [List.mem_append, List.mem_singleton]
    exact or_iff_left fun heq => hne (heq ▸ rfl)
  unfold InLoop
  simp only [hmem]

/-- A header that was not found yet has a loop of one block. -/
theorem Natural.getD (hl : g.Natural edges ls) (h : Node) :
    ((ls.get? h).getD [h]).Nodup ∧ ∀ n, n ∈ (ls.get? h).getD [h] ↔ g.InLoop edges h n := by
  cases hget : ls.get? h with
  | some body => exact hl.body h body hget
  | none =>
    have hnone : ∀ u, (u, h) ∉ edges := by
      intro u hu
      refine (ls.get?_eq_none_iff h).1 hget ?_
      rw [hl.keys, List.mem_eraseDups]
      exact List.mem_map.2 ⟨(u, h), hu, rfl⟩
    refine ⟨List.nodup_singleton h, fun n => ?_⟩
    simp [InLoop, hnone]

/-- The loop of a header grows by what leads to one more edge. -/
theorem inLoop_absorb (hr : ∀ i, i ∈ reached ↔ g.Reaches i) (hn : reached.Nodup) (hv : g.Valid)
    (hb : ∀ i, i ∈ body ↔ g.InLoop edges h i) :
    n ∈ g.absorb (reached.filter fun i => !body.contains i) body [u] ↔ g.InLoop (edges ++ [(u, h)]) h n := by
  have hfree : ∀ i, i ∈ reached.filter (fun i => !body.contains i) ↔ g.Reaches i ∧ i ∉ body := by
    intro i
    simp [List.mem_filter, hr]
  have hself : h ∈ body := (hb h).2 (.inl rfl)
  rw [mem_absorb (hn.filter _) fun i hi => hv.isIndex ((hfree i).1 hi).1]
  simp only [hfree, List.mem_singleton, exists_eq_left]
  constructor
  · rintro (hm | hpath)
    · rcases (hb n).1 hm with rfl | ⟨hreach, w, hw, hpath⟩
      · exact .inl rfl
      · exact .inr ⟨hreach, w, List.mem_append_left _ hw, hpath⟩
    · refine .inr ⟨hpath.start.1, u, List.mem_append_right _ (List.mem_singleton.2 rfl), hpath.mono fun i hi => ?_⟩
      rintro rfl
      exact hi.2 hself
  · rintro (rfl | ⟨hreach, w, hw, hpath⟩)
    · exact .inl hself
    · rcases List.mem_append.1 hw with hw | hw
      · exact .inl ((hb n).2 (.inr ⟨hreach, w, hw, hpath⟩))
      · cases List.mem_singleton.1 hw
        rcases hpath.enter (· ∈ body) with hout | hm | ⟨p, b, hp, he, hne, hm⟩
        · exact .inr ((hout.reaches hreach).mono fun i hi => ⟨hi.2, hi.1.2⟩)
        · exact .inl hm
        · -- the path comes into the loop, and from there on an earlier edge is reached
          obtain ⟨-, v, hv', hpath'⟩ := ((hb b).1 hm).resolve_left hne
          have hlead : g.Within (· ≠ h) n v := ((hp.mono fun i hi => hi.1).tail he hne).trans hpath'
          exact .inl ((hb n).2 (.inr ⟨hreach, v, hv', hlead⟩))

theorem natural_addLoop (hr : ∀ i, i ∈ reached ↔ g.Reaches i) (hn : reached.Nodup) (hv : g.Valid)
    (hl : g.Natural edges ls) (e : Node × Node) : g.Natural (edges ++ [e]) (g.addLoop reached ls e) := by
  obtain ⟨u, h⟩ := e
  obtain ⟨hnodup, hbody⟩ := hl.getD h
  refine ⟨?_, fun k body hk => ?_⟩
  · have hkeys : (g.addLoop reached ls (u, h)).keys = if h ∈ ls.keys then ls.keys else ls.keys ++
      [h] := Keyed.keys_put ..
    have hmem : h ∈ ls.keys ↔ h ∈ edges.map (·.2) := by rw [hl.keys, List.mem_eraseDups]
    rw [hkeys, List.map_append, List.map_singleton, eraseDups_concat, ← hl.keys]
    simp only [hmem]
  · unfold addLoop at hk
    rw [Keyed.get?_put] at hk
    split at hk
    · rename_i heq
      cases heq
      cases hk
      refine ⟨nodup_absorb (hn.filter _) hnodup fun i hi => ?_, fun n => inLoop_absorb hr hn hv hbody⟩
      simpa using (List.mem_filter.1 hi).2
    · rename_i hne
      obtain ⟨hnodup', hbody'⟩ := hl.body k body hk
      exact ⟨hnodup', fun n => (hbody' n).trans (inLoop_append_of_ne hne).symm⟩

theorem natural_foldl (hr : ∀ i, i ∈ reached ↔ g.Reaches i) (hn : reached.Nodup) (hv : g.Valid)
    (edges : List (Node × Node)) : g.Natural edges (edges.foldl (g.addLoop reached) .empty) := by
  induction edges using List.reverseRecOn with
  | nil => exact ⟨rfl, nofun⟩
  | append_singleton edges e ih =>
    rw [List.foldl_append]
    exact natural_addLoop hr hn hv ih e

/-! ## the loops of a graph -/

theorem natural_loops (hv : g.Valid) (he : g.backEdges = .ok edges) (hl : g.loops = .ok ls) : g.Natural edges ls := by
  obtain ⟨reached, hr⟩ := exists_reachable hv
  cases hl.symm.trans (hv.loops_eq hr he)
  exact natural_foldl (fun i => mem_reachable hr) (nodup_reachable hr) hv edges

/-- The headers are the targets of the closing edges, in the order in which these are found, and
each has the blocks from which the source of one of its edges can be reached around it. -/
theorem loops_natural (hv : g.Valid) :
    ∃ edges ls, g.backEdges = .ok edges ∧ g.loops = .ok ls ∧ ls.keys = (edges.map (·.2)).eraseDups ∧
      ∀ h body, ls.get? h = some body → body.Nodup ∧
        ∀ n, n ∈ body ↔ n = h ∨ g.Reaches n ∧ ∃ u, (u, h) ∈ edges ∧ g.Within (· ≠ h) n u := by
  obtain ⟨edges, he⟩ := exists_backEdges hv
  obtain ⟨ls, hl⟩ := exists_loops hv
  have hnat := natural_loops hv he hl
  exact ⟨edges, ls, he, hl, hnat.keys, hnat.body⟩

/-- Two edges to one header, a second way into its loop, a block that leads to itself and one that
is never reached. -/
def shared : Graph where
  blocks := [{ term := some (.branch (.var ⟨"p", .bool⟩) 1 3) }, { term := some (.branch (.var ⟨"q", .bool⟩) 2 5) },
    { term := some (.branch (.var ⟨"p", .bool⟩) 1 3) }, { term := some (.branch (.var ⟨"q", .bool⟩) 1 3) },
    { term := some (.goto 2) }, { term := some (.ret none) }]

theorem shared_loops :
    shared.Valid ∧ shared.backEdges = .ok [(2, 1), (3, 1), (3, 3)] ∧
      ∃ ls outer inner, shared.loops = .ok ls ∧
      ls.keys = [1, 3] ∧ ls.get? 1 = some outer ∧ 0 ∈ outer ∧ 4 ∉ outer ∧ 5 ∉ outer ∧ ls.get? 3 = some inner ∧ 1 ∉ inner := by
  have hv : shared.Valid := by decide
  have hedges : shared.backEdges = .ok [(2, 1), (3, 1), (3, 3)] := by decide +kernel
  have hreach : shared.reachable = .ok [0, 1, 2, 3, 5] := by decide +kernel
  obtain ⟨edges, ls, he, hl, hkeys, hbody⟩ := loops_natural hv
  cases hedges.symm.trans he
  obtain ⟨outer, houter⟩ := (ls.mem_keys_iff 1).1 (by rw [hkeys]; decide)
  obtain ⟨inner, hinner⟩ := (ls.mem_keys_iff 3).1 (by rw [hkeys]; decide)
  have hedge : ∀ i j, j ∈ shared.successors i → shared.Edge i j := fun _ _ h => h
  refine ⟨hv, hedges, ls, outer, inner, hl, hkeys.trans (by decide), houter, ?_, ?_, ?_, hinner, ?_⟩
  · -- through the second way in
    refine ((hbody 1 outer houter).2 0).2 (.inr ⟨.refl, 3, by decide, ?_⟩)
    exact .step (by decide) (hedge 0 3 (by decide)) (.here (by decide))
  · intro h4
    rcases ((hbody 1 outer houter).2 4).1 h4 with h | ⟨h, -⟩
    · cases h
    · exact absurd ((mem_reachable hreach).2 h) (by decide)
  · intro h5
    obtain ⟨-, u, hu, hpath⟩ := (((hbody 1 outer houter).2 5).1 h5).resolve_left (by decide)
    cases hpath with
    | here => exact absurd hu (by decide)
    | step _ he _ => exact absurd he (List.not_mem_nil)
  · intro h1
    obtain ⟨-, u, hu, hpath⟩ := (((hbody 3 inner hinner).2 1).1 h1).resolve_left (by decide)
    have hu : u = 3 := by simpa using hu
    exact hpath.last hu

end ContractVerifier.Flow.Graph
