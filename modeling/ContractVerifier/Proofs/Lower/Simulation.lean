import ContractVerifier.Proofs.Flow.Run
import ContractVerifier.Proofs.Lower.Layout
import ContractVerifier.Proofs.Lower.Translate

/-!
# Statements and their blocks

`Sim K p X` relates the effect `X` of a statement to the graph: from the point `p` the run comes to
an outcome exactly if the statement comes to an end and the run does so from where the statement
leads, as `K` says.  Rounds of loops and steps of runs are counted, and on the way back the count of
steps does not grow, so that loops can be followed by induction on it.
-/

namespace ContractVerifier.Source

open ContractVerifier.Flow

/-- A block and how many of its operations are done. -/
abbrev Point := Nat × Nat

section

variable (z : Int → Int) (I : Callees) (g : Graph)

/-- The run from a point on. -/
def goesTo (n : Nat) (p : Point) (s : Store) (o : Outcome) : Prop :=
  g.resume z I n p.1 p.2 s = some o

/-- What is behind a statement: the point `q`, the innermost loop of `ls`, or the end of the run. -/
def Leads (ls : List (Nat × Nat)) (q : Point) (n : Nat) (sig : Signal) (s : Store) (o : Outcome) :
    Prop :=
  match sig with
  | .next => goesTo z I g n q s o
  | .brk => ∃ l ∈ ls.head?, g.run z I n l.2 s = some o
  | .cont => ∃ l ∈ ls.head?, g.run z I n l.1 s = some o
  | .ret v => o = (v, s)

structure Sim (Γ : String → Ty) (K : Nat → Signal → Store → Outcome → Prop) (p : Point)
    (X : Nat → Effect) : Prop where
  typed : ∀ {m s sig s'}, s.Typed Γ → X m s = some (sig, s') → s'.Typed Γ
  fwd : ∀ {m n s sig s' o}, s.Typed Γ → X m s = some (sig, s') → K n sig s' o → ∃ n', goesTo z I g n' p s o
  bwd : ∀ {n s o}, s.Typed Γ → goesTo z I g n p s o →
    ∃ m sig s' n', X m s = some (sig, s') ∧ n' ≤ n ∧ K n' sig s' o

end

section

variable {z : Int → Int} {I : Callees} {g : Graph} {Γ : String → Ty} {K K' : Nat → Signal → Store → Outcome → Prop}
  {p q r : Point} {X Y : Nat → Effect} {ls : List (Nat × Nat)}

/-- A statement that always ends, and does in no more than one block what it does. -/
theorem Sim.of_step (sig : Store → Signal) (f : Store → Store)
    (hX : ∀ m s, s.Typed Γ → X m s = some (sig s, f s))
    (hf : ∀ s : Store, s.Typed Γ → (f s).Typed Γ)
    (hr : ∀ n s o, s.Typed Γ → (goesTo z I g n p s o ↔ K n (sig s) (f s) o)) :
    Sim z I g Γ K p X where
  typed := by
    intro m s sig' s' hs hx
    rw [hX m s hs] at hx
    cases hx
    exact hf s hs
  fwd := by
    intro m n s sig' s' o hs hx hk
    rw [hX m s hs] at hx
    cases hx
    exact ⟨n, (hr n s o hs).2 hk⟩
  bwd := fun {n s o} hs h => ⟨0, sig s, f s, n, hX 0 s hs, Nat.le_refl n, (hr n s o hs).1 h⟩

theorem sim_skip : Sim z I g Γ (Leads z I g ls p) p fun _ => Effect.skip :=
  .of_step (fun _ => .next) id (fun _ _ _ => rfl) (fun _ h => h) fun _ _ _ _ => Iff.rfl

/-- The same statement, seen from another place behind it. -/
theorem Sim.weaken (h : Sim z I g Γ K p X) (hf : ∀ {n sig s o}, K' n sig s o → ∃ n', K n' sig s o)
    (hb : ∀ {n sig s o}, K n sig s o → ∃ n' ≤ n, K' n' sig s o) : Sim z I g Γ K' p X where
  typed := h.typed
  fwd := by
    intro m n s sig s' o hs hx hk
    obtain ⟨n', hk⟩ := hf hk
    exact h.fwd hs hx hk
  bwd := by
    intro n s o hs hr
    obtain ⟨m, sig, s', n₁, hx, hle, hk⟩ := h.bwd hs hr
    obtain ⟨n₂, hle', hk⟩ := hb hk
    exact ⟨m, sig, s', n₂, hx, Nat.le_trans hle' hle, hk⟩

theorem Sim.andThen (h : Sim z I g Γ (Leads z I g ls q) p X)
    (h' : Sim z I g Γ (Leads z I g ls r) q Y) (hX : ∀ {n m}, n ≤ m → (X n).Le (X m))
    (hY : ∀ {n m}, n ≤ m → (Y n).Le (Y m)) :
    Sim z I g Γ (Leads z I g ls r) p fun n => (X n).andThen (Y n) where
  typed := by
    intro m s sig s' hs hx
    rcases Effect.andThen_eq_some.1 hx with ⟨s₁, hx, hy⟩ | ⟨hx, -⟩
    · exact h'.typed (h.typed hs hx) hy
    · exact h.typed hs hx
  fwd := by
    intro m n s sig s' o hs hx hk
    rcases Effect.andThen_eq_some.1 hx with ⟨s₁, hx, hy⟩ | ⟨hx, hsig⟩
    · obtain ⟨n', hq⟩ := h'.fwd (h.typed hs hx) hy hk
      exact h.fwd hs hx hq
    · refine h.fwd (n := n) hs hx ?_
      cases sig with
      | next => exact absurd rfl hsig
      | _ => exact hk
  bwd := by
    intro n s o hs hr
    obtain ⟨m, sig, s', n₁, hx, hle, hk⟩ := h.bwd hs hr
    cases sig with
    | next =>
      obtain ⟨m', sig', s'', n₂, hy, hle', hk'⟩ := h'.bwd (h.typed hs hx) hk
      refine ⟨max m m', sig', s'', n₂, ?_, Nat.le_trans hle' hle, hk'⟩
      exact Effect.andThen_eq_some.2 (.inl ⟨s', hX (Nat.le_max_left ..) _ _ hx, hY (Nat.le_max_right ..) _ _ hy⟩)
    | _ => exact ⟨m, _, s', n₁, Effect.andThen_eq_some.2 (.inr ⟨hx, nofun⟩), hle, hk⟩

/-! ## blocks -/

theorem goesTo_op {bs : List Block} {i : Nat} {ops : List Op} {op : Op} (hg : Grows bs g.blocks)
    (h : Open bs i (ops ++ [op])) {n : Nat} {s : Store} {o : Outcome} :
    goesTo z I g n (i, ops.length) s o ↔ goesTo z I g n (i, (ops ++ [op]).length) (op.run z I s) o := by
  obtain ⟨k, hk, rest, hrest⟩ := h.front hg
  have hop : k.ops[ops.length]? = some op := by
    rw [← hrest]
    simp
  unfold goesTo
  rw [Graph.resume_op hk hop, List.length_append]
  rfl

theorem goesTo_term {bs : List Block} {i : Nat} {ops : List Op} {t : Terminator}
    (hg : Grows bs g.blocks) (h : Closed bs i ops t) {n : Nat} {s : Store} {o : Outcome} :
    goesTo z I g n (i, ops.length) s o ↔ t.leave z (g.run z I n) s = some o := by
  obtain ⟨k, hk, rfl, ht⟩ := h.grows hg
  unfold goesTo
  rw [Graph.resume_term hk ht]

/-- Entering a block takes a step. -/
theorem run_iff {n i : Nat} {s : Store} {o : Outcome} :
    g.run z I n i s = some o ↔ ∃ m, n = m + 1 ∧ goesTo z I g m (i, 0) s o := by
  constructor
  · exact Graph.exists_of_run
  · rintro ⟨m, rfl, h⟩
    rw [Graph.run_succ]
    exact h

theorem leave_goto {n j : Nat} {s : Store} {o : Outcome} :
    (Terminator.goto j).leave z (g.run z I n) s = some o ↔ ∃ m, n = m + 1 ∧ goesTo z I g m (j, 0) s o := run_iff

/-- A jump behind the statement. -/
theorem Sim.goto {bs : List Block} {ops : List Op} {i j : Nat}
    (h : Sim z I g Γ (Leads z I g ls (i, ops.length)) p X) (hg : Grows bs g.blocks)
    (hc : Closed bs i ops (.goto j)) : Sim z I g Γ (Leads z I g ls (j, 0)) p X := by
  refine h.weaken (fun {n sig s o} hk => ?_) fun {n sig s o} hk => ?_
  · cases sig with
    | next => exact ⟨n + 1, (goesTo_term hg hc).2 (leave_goto.2 ⟨n, rfl, hk⟩)⟩
    | _ => exact ⟨n, hk⟩
  · cases sig with
    | next =>
      obtain ⟨m, rfl, hm⟩ := leave_goto.1 ((goesTo_term hg hc).1 hk)
      exact ⟨m, by omega, hm⟩
    | _ => exact ⟨n, Nat.le_refl n, hk⟩

/-- A jump in front of the statement. -/
theorem Sim.after_goto {j : Nat} (h : Sim z I g Γ K (j, 0) X)
    (hp : ∀ {n s o}, goesTo z I g n p s o ↔ (Terminator.goto j).leave z (g.run z I n) s = some o) :
    Sim z I g Γ K p X where
  typed := h.typed
  fwd := by
    intro m n s sig s' o hs hx hk
    obtain ⟨n', hn⟩ := h.fwd hs hx hk
    exact ⟨n' + 1, hp.2 (leave_goto.2 ⟨n', rfl, hn⟩)⟩
  bwd := by
    intro n s o hs hr
    obtain ⟨n', rfl, hn⟩ := leave_goto.1 (hp.1 hr)
    obtain ⟨m, sig, s', n₁, hx, hle, hk⟩ := h.bwd hs hn
    exact ⟨m, sig, s', n₁, hx, by omega, hk⟩

/-! ## branches -/

theorem leave_branch {e : Expr} {i j n : Nat} {s : Store} {o : Outcome} :
    (Terminator.branch e i j).leave z (g.run z I n) s = some o ↔
      ∃ m, n = m + 1 ∧ goesTo z I g m (if e.Holds z s.read then i else j, 0) s o := by
  rw [← run_iff]
  show g.run z I n (if e.Holds z s.read then (i : Node) else j) s = some o ↔ _
  split <;> rfl

section

variable {test : Store → Option Bool} {e : Expr} {i j : Nat}

theorem Sim.cond (hX : Sim z I g Γ K (i, 0) X) (hY : Sim z I g Γ K (j, 0) Y)
    (ht : ∀ s : Store, s.Typed Γ → test s = some (decide (e.Holds z s.read)))
    (hp : ∀ {n s o}, goesTo z I g n p s o ↔ (Terminator.branch e i j).leave z (g.run z I n) s = some o) :
    Sim z I g Γ K p fun n s => do if ← test s then X n s else Y n s where
  typed := by
    intro m s sig s' hs hx
    simp only [ht s hs, Option.bind_eq_bind, Option.bind_some] at hx
    split at hx
    · exact hX.typed hs hx
    · exact hY.typed hs hx
  fwd := by
    intro m n s sig s' o hs hx hk
    simp only [ht s hs, Option.bind_eq_bind, Option.bind_some, decide_eq_true_eq] at hx
    by_cases hh : e.Holds z s.read
    · rw [if_pos hh] at hx
      obtain ⟨n', hn⟩ := hX.fwd hs hx hk
      exact ⟨n' + 1, hp.2 (leave_branch.2 ⟨n', rfl, by rw [if_pos hh]; exact hn⟩)⟩
    · rw [if_neg hh] at hx
      obtain ⟨n', hn⟩ := hY.fwd hs hx hk
      exact ⟨n' + 1, hp.2 (leave_branch.2 ⟨n', rfl, by rw [if_neg hh]; exact hn⟩)⟩
  bwd := by
    intro n s o hs hr
    obtain ⟨n', rfl, hn⟩ := leave_branch.1 (hp.1 hr)
    simp only [ht s hs, Option.bind_eq_bind, Option.bind_some, decide_eq_true_eq]
    by_cases hh : e.Holds z s.read
    · rw [if_pos hh] at hn
      obtain ⟨m, sig, s', n₁, hx, hle, hk⟩ := hX.bwd hs hn
      exact ⟨m, sig, s', n₁, by rw [if_pos hh]; exact hx, by omega, hk⟩
    · rw [if_neg hh] at hn
      obtain ⟨m, sig, s', n₁, hx, hle, hk⟩ := hY.bwd hs hn
      exact ⟨m, sig, s', n₁, by rw [if_neg hh]; exact hx, by omega, hk⟩

/-! ## loops -/

/-- One round: the test, and where the body leads. -/
theorem rounds_iff {body other : Effect} {n : Nat} {s : Store} {r : Signal × Store}
    (ht : test s = some (decide (e.Holds z s.read))) :
    Effect.rounds test body other (n + 1) s = some r ↔
      (¬ e.Holds z s.read ∧ other s = some r) ∨
      (e.Holds z s.read ∧ ∃ sig s₁, body s = some (sig, s₁) ∧
        match sig with
        | .next | .cont => Effect.rounds test body other n s₁ = some r
        | .brk => r = (.next, s₁)
        | .ret v => r = (.ret v, s₁)) := by
  rw [Effect.rounds_succ, ht, Option.bind_some]
  by_cases hh : e.Holds z s.read
  · simp only [hh, decide_true, if_true, not_true, false_and, true_and, false_or]
    cases hb : body s with
    | none => simp
    | some q =>
      obtain ⟨sig, s₁⟩ := q
      constructor
      · intro h
        refine ⟨sig, s₁, rfl, ?_⟩
        cases sig with
        | next => exact h
        | cont => exact h
        | brk => exact (Option.some.inj h).symm
        | ret v => exact (Option.some.inj h).symm
      · rintro ⟨sig', s₂, heq, h⟩
        cases heq
        cases sig with
        | next => exact h
        | cont => exact h
        | brk => exact congrArg some h.symm
        | ret v => exact congrArg some h.symm
  · simp [hh]

section

variable {head first exit : Nat} {body : Nat → Effect}

/-- From the header, by induction on the rounds. -/
theorem loop_fwd (hB : Sim z I g Γ (Leads z I g ((head, exit) :: ls) (head, 0)) (first, 0) body)
    (ht : ∀ s : Store, s.Typed Γ → test s = some (decide (e.Holds z s.read)))
    (hp : ∀ {n s o}, goesTo z I g n (head, 0) s o ↔ (Terminator.branch e first exit).leave z (g.run z I n) s = some o)
    {m k n : Nat} {s s' : Store} {sig : Signal} {o : Outcome} (hs : s.Typed Γ)
    (hx : Effect.rounds test (body m) Effect.skip k s = some (sig, s'))
    (hk : Leads z I g ls (exit, 0) n sig s' o) :
    ∃ n', goesTo z I g n' (head, 0) s o := by
  induction k generalizing s with
  | zero => cases hx
  | succ k ih =>
    rcases (rounds_iff (ht s hs)).1 hx with ⟨hh, hx⟩ | ⟨hh, sig₁, s₁, hb, hx⟩
    · cases hx
      exact ⟨n + 1, hp.2 (leave_branch.2 ⟨n, rfl, by rw [if_neg hh]; exact hk⟩)⟩
    · -- the body leads back to the header, or leaves the loop
      have hlead : ∃ n', Leads z I g ((head, exit) :: ls) (head, 0) n' sig₁ s₁ o := by
        cases sig₁ with
        | next => exact ih (hB.typed hs hb) hx
        | cont =>
          obtain ⟨n', hn⟩ := ih (hB.typed hs hb) hx
          exact ⟨n' + 1, (head, exit), rfl, run_iff.2 ⟨n', rfl, hn⟩⟩
        | brk =>
          cases hx
          exact ⟨n + 1, (head, exit), rfl, run_iff.2 ⟨n, rfl, hk⟩⟩
        | ret v =>
          cases hx
          exact ⟨n, hk⟩
      obtain ⟨n₁, hn₁⟩ := hlead
      obtain ⟨n₂, hn₂⟩ := hB.fwd hs hb hn₁
      exact ⟨n₂ + 1, hp.2 (leave_branch.2 ⟨n₂, rfl, by rw [if_pos hh]; exact hn₂⟩)⟩

/-- From the header, by induction on the steps of the run. -/
theorem loop_bwd (hB : Sim z I g Γ (Leads z I g ((head, exit) :: ls) (head, 0)) (first, 0) body)
    (hbody : ∀ {n m}, n ≤ m → (body n).Le (body m))
    (ht : ∀ s : Store, s.Typed Γ → test s = some (decide (e.Holds z s.read)))
    (hp : ∀ {n s o}, goesTo z I g n (head, 0) s o ↔ (Terminator.branch e first exit).leave z (g.run z I n) s = some o)
    {n : Nat} {s : Store} {o : Outcome} (hs : s.Typed Γ) (hr : goesTo z I g n (head, 0) s o) :
    ∃ m sig s' n', Effect.rounds test (body m) Effect.skip m s = some (sig, s') ∧ n' ≤ n ∧
      Leads z I g ls (exit, 0) n' sig s' o := by
  induction n using Nat.strongRecOn generalizing s with
  | ind n ih =>
    obtain ⟨n₁, rfl, hn₁⟩ := leave_branch.1 (hp.1 hr)
    by_cases hh : e.Holds z s.read
    · rw [if_pos hh] at hn₁
      obtain ⟨m, sig₁, s₁, n₂, hb, hle, hk⟩ := hB.bwd hs hn₁
      -- a round that leads back to the header
      have hagain : ∀ n₃, n₃ ≤ n₁ → goesTo z I g n₃ (head, 0) s₁ o → (sig₁ = .next ∨ sig₁ = .cont) →
          ∃ m sig s' n', Effect.rounds test (body m) Effect.skip m s = some (sig, s') ∧ n' ≤ n₁ + 1 ∧
            Leads z I g ls (exit, 0) n' sig s' o := by
        intro n₃ hle₃ hn₃ hsig
        obtain ⟨m', sig, s', n', hx, hle', hk'⟩ := ih n₃ (by omega) (hB.typed hs hb) hn₃
        refine ⟨max m m' + 1, sig, s', n', ?_, by omega, hk'⟩
        refine (rounds_iff (ht s hs)).2 (.inr ⟨hh, sig₁, s₁, hbody (by omega) _ _ hb, ?_⟩)
        have hx' : Effect.rounds test (body (max m m' + 1)) Effect.skip (max m m') s₁ = some (sig, s') :=
          Effect.Le.rounds (hbody (by omega)) (Effect.Le.refl _) (Nat.le_max_right m m') _ _ hx
        rcases hsig with rfl | rfl <;> exact hx'
      cases sig₁ with
      | next => exact hagain n₂ hle hk (.inl rfl)
      | cont =>
        obtain ⟨l, hl, hrun⟩ := hk
        cases hl
        obtain ⟨n₃, rfl, hn₃⟩ := run_iff.1 hrun
        exact hagain n₃ (by omega) hn₃ (.inr rfl)
      | brk =>
        obtain ⟨l, hl, hrun⟩ := hk
        cases hl
        obtain ⟨n₃, rfl, hn₃⟩ := run_iff.1 hrun
        refine ⟨m + 1, .next, s₁, n₃, ?_, by omega, hn₃⟩
        exact (rounds_iff (ht s hs)).2 (.inr ⟨hh, .brk, s₁, hbody (Nat.le_succ m) _ _ hb, rfl⟩)
      | ret v =>
        refine ⟨m + 1, .ret v, s₁, n₂, ?_, by omega, hk⟩
        exact (rounds_iff (ht s hs)).2 (.inr ⟨hh, .ret v, s₁, hbody (Nat.le_succ m) _ _ hb, rfl⟩)
    · rw [if_neg hh] at hn₁
      exact ⟨1, .next, s, n₁, (rounds_iff (ht s hs)).2 (.inl ⟨hh, rfl⟩), by omega, hn₁⟩

theorem rounds_typed (hB : Sim z I g Γ K p body)
    (ht : ∀ s : Store, s.Typed Γ → test s = some (decide (e.Holds z s.read))) {m k : Nat}
    {s s' : Store} {sig : Signal} (hs : s.Typed Γ)
    (hx : Effect.rounds test (body m) Effect.skip k s = some (sig, s')) : s'.Typed Γ := by
  induction k generalizing s with
  | zero => cases hx
  | succ k ih =>
    rcases (rounds_iff (ht s hs)).1 hx with ⟨-, hx⟩ | ⟨-, sig₁, s₁, hb, hx⟩
    · cases hx
      exact hs
    · have hs₁ := hB.typed hs hb
      cases sig₁ with
      | next => exact ih hs₁ hx
      | cont => exact ih hs₁ hx
      | brk =>
        cases hx
        exact hs₁
      | ret v =>
        cases hx
        exact hs₁

theorem Sim.loop (hB : Sim z I g Γ (Leads z I g ((head, exit) :: ls) (head, 0)) (first, 0) body)
    (hbody : ∀ {n m}, n ≤ m → (body n).Le (body m))
    (ht : ∀ s : Store, s.Typed Γ → test s = some (decide (e.Holds z s.read)))
    (hp : ∀ {n s o}, goesTo z I g n (head, 0) s o ↔ (Terminator.branch e first exit).leave z (g.run z I n) s = some o) :
    Sim z I g Γ (Leads z I g ls (exit, 0)) (head, 0) fun n => Effect.rounds test (body n) Effect.skip n where
  typed := fun hs hx => rounds_typed hB ht hs hx
  fwd := fun hs hx hk => loop_fwd hB ht hp hs hx hk
  bwd := fun hs hr => loop_bwd hB hbody ht hp hs hr

end

end

end

end ContractVerifier.Source
