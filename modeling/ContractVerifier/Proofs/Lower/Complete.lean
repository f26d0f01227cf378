import ContractVerifier.Proofs.Lower.Layout

/-!
# Lowered graphs are complete

Lowering a statement opens blocks and closes them again.  What it leaves open is the current block,
and whatever was open before and waits; and all jumps, also those out of loops, go to blocks that
exist.

* `Inside` : the jumps of some blocks go to the first `n` blocks;
* `Seals` : what lowering a statement closes;
* `complete_buildGraph` : every block of a lowered body has a terminator, and all targets are
  blocks.
-/

namespace ContractVerifier.Source

open ContractVerifier.Flow Build

/-! ## targets -/

/-- The terminator jumps to one of the first `n` blocks. -/
def JumpsInside (n : Nat) (t : Terminator) : Prop :=
  ∀ j ∈ t.successors, (0 : Int) ≤ j ∧ j < (n : Int)

def Inside (n : Nat) (bs : List Block) : Prop := ∀ k ∈ bs, ∀ t, k.term = some t → JumpsInside n t

section

variable {n m i j : Nat} {bs : List Block} {t : Terminator} {ops : List Op}

theorem jumpsInside_goto (h : i < n) : JumpsInside n (.goto i) := by
  intro j hj
  cases List.mem_singleton.1 hj
  exact ⟨Int.natCast_nonneg i, Int.ofNat_lt.2 h⟩

theorem jumpsInside_branch {e : Expr} (hi : i < n) (hj : j < n) : JumpsInside n (.branch e i j) := by
  intro k hk
  rcases List.mem_cons.1 hk with rfl | hk
  · exact ⟨Int.natCast_nonneg i, Int.ofNat_lt.2 hi⟩
  · cases List.mem_singleton.1 hk
    exact ⟨Int.natCast_nonneg j, Int.ofNat_lt.2 hj⟩

theorem jumpsInside_ret (e : Option Expr) : JumpsInside n (.ret e) := by
  intro j hj
  cases hj

theorem Inside.mono (h : Inside n bs) (hnm : n ≤ m) : Inside m bs := by
  intro k hk t ht j hj
  obtain ⟨hzero, hlt⟩ := h k hk t ht j hj
  exact ⟨hzero, Int.lt_of_lt_of_le hlt (Int.ofNat_le.2 hnm)⟩

theorem Inside.append_new (h : Inside n bs) (line : Option Int) : Inside n (bs ++ [{ line := line }]) := by
  intro k hk t ht
  rcases List.mem_append.1 hk with hk | hk
  · exact h k hk t ht
  · rw [List.mem_singleton.1 hk] at ht
    cases ht

theorem Inside.modify (h : Inside n bs) {f : Block → Block}
    (hf : ∀ k t, (f k).term = some t → k.term = some t ∨ JumpsInside n t) :
    Inside n (bs.modify i f) := by
  intro k hk t ht
  rcases mem_modify hk with hk | ⟨c, hc, rfl⟩
  · exact h k hk t ht
  · exact (hf c t ht).elim (h c hc t) id

theorem Inside.term (h : Inside n bs) (ht : JumpsInside n t) :
    Inside n (bs.modify i fun k => { k with term := some t }) :=
  h.modify fun k u hu => by
    cases hu
    exact .inr ht

theorem Inside.missingTerm (h : Inside n bs) (ht : JumpsInside n t) :
    Inside n (bs.modify i fun k => { k with term := k.term.or (some t) }) :=
  h.modify fun k u hu => by
    rcases Option.or_eq_some_iff.1 hu with hu | ⟨-, hu⟩
    · exact .inl hu
    · cases hu
      exact .inr ht

/-! ## open blocks -/

theorem Open.of_append_new {line : Option Int} (h : Open (bs ++ [{ line := line }]) i ops) :
    i = bs.length ∨ Open bs i ops := by
  obtain ⟨k, hk, hrest⟩ := h
  by_cases hi : i < bs.length
  · rw [List.getElem?_append_left hi] at hk
    exact .inr ⟨k, hk, hrest⟩
  · have hlt := (List.getElem?_eq_some_iff.1 hk).1
    rw [List.length_append, List.length_singleton] at hlt
    exact .inl (by omega)

/-- A block whose terminator stays was open before. -/
theorem Open.of_modify {f : Block → Block} (h : Open (bs.modify j f) i ops)
    (hf : ∀ k, (f k).term = k.term) :
    ∃ ops', Open bs i ops' := by
  obtain ⟨k, hk, -, ht⟩ := h
  rw [List.getElem?_modify] at hk
  obtain ⟨c, hc, rfl⟩ := Option.map_eq_some_iff.1 hk
  refine ⟨c.ops, c, hc, rfl, ?_⟩
  split at ht
  · rw [← hf c]
    exact ht
  · exact ht

/-- A block that gets a terminator is not open any more. -/
theorem Open.of_close {f : Block → Block} (h : Open (bs.modify j f) i ops)
    (hf : ∀ k, (f k).term ≠ none) :
    i ≠ j ∧ Open bs i ops := by
  obtain ⟨k, hk, ho, ht⟩ := h
  rw [List.getElem?_modify] at hk
  obtain ⟨c, hc, rfl⟩ := Option.map_eq_some_iff.1 hk
  by_cases hij : j = i
  · rw [if_pos hij] at ht
    exact absurd ht (hf c)
  · rw [if_neg hij] at ho ht
    exact ⟨Ne.symm hij, c, hc, ho, ht⟩

theorem Open.of_term (h : Open (bs.modify j fun k => { k with term := some t }) i ops) : i ≠ j ∧ Open bs i ops :=
  h.of_close fun k => by simp

theorem Open.of_missingTerm (h : Open (bs.modify j fun k => { k with term := k.term.or (some t) }) i ops) :
    i ≠ j ∧ Open bs i ops :=
  h.of_close fun k => by
    cases k.term <;> simp

end

/-! ## statements -/

/-- All jumps go to blocks, and so do those that leave or repeat a loop around. -/
structure Builder.Bounded (b : Builder) : Prop where
  blocks : Inside b.blocks.length b.blocks
  loops : ∀ l ∈ b.loops, l.1 < b.blocks.length ∧ l.2 < b.blocks.length

/-- Blocks are only added, the loops around are the same, and what is open then is the current block
or was open and waits. -/
structure Seals (b b' : Builder) : Prop where
  length : b.blocks.length ≤ b'.blocks.length
  loops : b'.loops = b.loops
  bounded : b.Bounded → b'.Bounded
  waits : ∀ i ops, Open b'.blocks i ops → i = b'.current ∨ i ≠ b.current ∧ ∃ ops', Open b.blocks i ops'

section

variable {b b' b'' b₂ b₄ : Builder} {line l l' : Int}

theorem Seals.refl (b : Builder) : Seals b b := by
  refine ⟨Nat.le_refl _, rfl, id, fun i ops ho => ?_⟩
  by_cases hi : i = b.current
  · exact .inl hi
  · exact .inr ⟨hi, ops, ho⟩

theorem Seals.trans (h : Seals b b') (h' : Seals b' b'') : Seals b b'' := by
  refine ⟨Nat.le_trans h.length h'.length, h'.loops.trans h.loops, fun hb => h'.bounded (h.bounded hb), fun i ops ho => ?_⟩
  rcases h'.waits i ops ho with hi | ⟨hi, ops', ho'⟩
  · exact .inl hi
  · exact (h.waits i ops' ho').elim (fun he => absurd he hi) .inr

/-- The table does not matter. -/
theorem Seals.of_table {t : Table} (h : Seals { b with table := t } b') : Seals b b' :=
  ⟨h.length, h.loops, fun hb => h.bounded ⟨hb.blocks, hb.loops⟩, h.waits⟩

theorem seals_emit (t : Table) (op : Op) : Seals b (b.emit t op) := by
  refine ⟨?_, rfl, fun hb => ⟨?_, fun l hl => ?_⟩, fun i ops ho => ?_⟩
  · simp [Builder.emit]
  · simp only [Builder.emit, List.length_modify]
    exact hb.blocks.modify fun k u hu => .inl hu
  · simp only [Builder.emit, List.length_modify]
    exact hb.loops l hl
  · have ho : Open (b.blocks.modify b.current fun k => { k with ops := k.ops ++ [op] }) i ops := ho
    obtain ⟨ops', ho'⟩ := ho.of_modify fun _ => rfl
    exact (Seals.refl b).waits i ops' ho'

theorem seals_terminate {t : Terminator} (ht : b.Bounded → JumpsInside b.blocks.length t) :
    Seals b { b with
      blocks := (b.blocks.modify b.current fun k => { k with term := some t }) ++ [({ line := some line } : Block)],
      current := b.blocks.length } := by
  refine ⟨?_, rfl, fun hb => ⟨?_, fun l hl => ?_⟩, fun i ops ho => ?_⟩
  · simp
  · simp only [List.length_append, List.length_modify]
    exact ((hb.blocks.term (ht hb)).append_new _).mono (Nat.le_add_right ..)
  · simp only [List.length_append, List.length_modify, List.length_singleton]
    have := hb.loops l hl
    omega
  · rcases ho.of_append_new with hi | ho
    · rw [List.length_modify] at hi
      exact .inl hi
    · obtain ⟨hi, ho⟩ := ho.of_term
      exact .inr ⟨hi, ops, ho⟩

/-! ## arms of a conditional -/

theorem bounded_newArm (hb : b.Bounded) : (b.newArm line).Bounded := by
  unfold Builder.newArm
  refine ⟨?_, fun l hl => ?_⟩
  · simp only [List.length_append]
    exact (hb.blocks.append_new _).mono (Nat.le_add_right ..)
  · simp only [List.length_append, List.length_singleton]
    have := hb.loops l hl
    omega

/-- Behind an arm its end is open, and what was open in front of it. -/
theorem Seals.arm (h : Seals (b.newArm l) b₂) {i : Nat} {ops : List Op}
    (ho : Open b₂.blocks i ops) :
    i = b₂.current ∨ ∃ ops', Open b.blocks i ops' := by
  rcases h.waits i ops ho with hi | ⟨hi, ops', ho'⟩
  · exact .inl hi
  · exact .inr ⟨ops', ho'.of_append_new.resolve_left hi⟩

theorem Seals.lt_arm (h : Seals (b.newArm l) b₂) : b.blocks.length < b₂.blocks.length := by
  have hlen := h.length
  simp only [Builder.newArm, List.length_append, List.length_singleton] at hlen
  omega

theorem bounded_join {i j : Nat} {t : Nat → Terminator} (hb : b.Bounded)
    (ht : JumpsInside (b.blocks.length + 1) (t b.blocks.length)) : (b.join line i j t).Bounded := by
  unfold Builder.join
  refine ⟨?_, fun l hl => ?_⟩
  · simp only [List.length_append, List.length_modify, List.length_singleton]
    have hnew := (hb.blocks.append_new (some line)).mono (Nat.le_add_right _ 1)
    exact (hnew.term ht).missingTerm (jumpsInside_goto (Nat.lt_succ_self _))
  · simp only [List.length_append, List.length_modify, List.length_singleton]
    have := hb.loops l hl
    omega

/-- Behind the arms the new block is open, and no end of an arm. -/
theorem Open.of_join {i j k : Nat} {t : Nat → Terminator} {ops : List Op}
    (ho : Open (b.join line i j t).blocks k ops) :
    k = b.blocks.length ∨ k ≠ i ∧ k ≠ j ∧ Open b.blocks k ops := by
  obtain ⟨hj, ho⟩ := ho.of_missingTerm
  obtain ⟨hi, ho⟩ := ho.of_term
  exact ho.of_append_new.imp id fun ho => ⟨hi, hj, ho⟩

theorem length_join {i j : Nat} {t : Nat → Terminator} : (b.join line i j t).blocks.length = b.blocks.length + 1 := by
  simp [Builder.join]

/-- A conditional without `else`. -/
theorem seals_if {e : Expr} (h : Seals (b.newArm l) b₂) :
    Seals b (b₂.join line b.current b₂.current fun j => .branch e b.blocks.length j) := by
  have hlt := h.lt_arm
  refine ⟨?_, h.loops, fun hb => ?_, fun i ops ho => ?_⟩
  · rw [length_join]
    omega
  · exact bounded_join (h.bounded (bounded_newArm hb)) (jumpsInside_branch (by omega) (by omega))
  · rcases ho.of_join with hi | ⟨hi, hend, ho⟩
    · exact .inl hi
    · exact .inr ⟨hi, (h.arm ho).resolve_left hend⟩

/-- A conditional with both arms. -/
theorem seals_ifElse {e : Expr} (h : Seals (b.newArm l) b₂) (h' : Seals (b₂.newArm l') b₄) :
    Seals b ((b₄.join line b.current b₂.current fun _ => .branch e b.blocks.length b₂.blocks.length).joinAlso
      b₄.current) := by
  have hlt := h.lt_arm
  have hlt' := h'.lt_arm
  refine ⟨?_, h'.loops.trans h.loops, fun hb => ?_, fun i ops ho => ?_⟩
  · simp only [Builder.joinAlso, List.length_modify, length_join]
    omega
  · have hb₄ := h'.bounded (bounded_newArm (h.bounded (bounded_newArm hb)))
    have hb₅ : (b₄.join line b.current b₂.current fun _ => .branch e b.blocks.length b₂.blocks.length).Bounded :=
      bounded_join hb₄ (jumpsInside_branch (by omega) (by omega))
    refine ⟨?_, fun l hl => ?_⟩
    · simp only [Builder.joinAlso, List.length_modify]
      refine hb₅.blocks.missingTerm (jumpsInside_goto ?_)
      rw [length_join]
      exact Nat.lt_succ_self _
    · simp only [Builder.joinAlso, List.length_modify]
      exact hb₅.loops l hl
  · obtain ⟨hlast, ho⟩ := ho.of_missingTerm
    rcases ho.of_join with hi | ⟨hi, hend, ho⟩
    · exact .inl hi
    · obtain ⟨ops', ho'⟩ := (h'.arm ho).resolve_left hlast
      exact .inr ⟨hi, (h.arm ho').resolve_left hend⟩

/-! ## loops -/

theorem length_enterLoop {l₁ l₂ l₃ : Int} {e : Expr} :
    (b.enterLoop l₁ l₂ l₃ e).blocks.length = b.blocks.length + 1 + 1 + 1 := by
  simp [Builder.enterLoop]

theorem bounded_enterLoop {l₁ l₂ l₃ : Int} {e : Expr} (hb : b.Bounded) : (b.enterLoop l₁ l₂ l₃ e).Bounded := by
  have hin : Inside (b.blocks.length + 1 + 1 + 1) (b.blocks ++ [({ line := some l₁ } : Block)]) :=
    (hb.blocks.append_new _).mono (by omega)
  refine ⟨?_, fun l hl => ?_⟩
  · rw [length_enterLoop]
    exact (((hin.term (jumpsInside_goto (by omega))).append_new _).append_new _).term
      (jumpsInside_branch (by omega) (by omega))
  · rw [length_enterLoop]
    rcases List.mem_cons.1 hl with rfl | hl
    · simp only
      omega
    · have := hb.loops l hl
      omega

/-- At the start of a loop two new blocks are open, the current one and the one behind the loop. -/
theorem Open.of_enterLoop {l₁ l₂ l₃ : Int} {e : Expr} {i : Nat} {ops : List Op}
    (ho : Open (b.enterLoop l₁ l₂ l₃ e).blocks i ops) :
    i = b.blocks.length + 1 ∨ i = b.blocks.length + 1 + 1 ∨ i ≠ b.current ∧ Open b.blocks i ops := by
  obtain ⟨hhead, ho⟩ := ho.of_term
  rcases ho.of_append_new with hi | ho
  · right; left
    simpa using hi
  · rcases ho.of_append_new with hi | ho
    · left
      simpa using hi
    · obtain ⟨hi, ho⟩ := ho.of_term
      exact .inr (.inr ⟨hi, ho.of_append_new.resolve_left hhead⟩)

theorem seals_loop {l₁ l₂ l₃ : Int} {e : Expr} {inv : Option Expr}
    (h : Seals (b.enterLoop l₁ l₂ l₃ e) b₂) :
    Seals b (b₂.leaveLoop b.blocks.length (b.blocks.length + 1 + 1) inv) := by
  have hlen := h.length
  rw [length_enterLoop] at hlen
  have hloops : b₂.loops.drop 1 = b.loops := by
    rw [h.loops]
    rfl
  refine ⟨?_, hloops, fun hb => ?_, fun i ops ho => ?_⟩
  · simp only [Builder.leaveLoop, List.length_modify]
    omega
  · have hb₂ := h.bounded (bounded_enterLoop hb)
    refine ⟨?_, fun l hl => ?_⟩
    · simp only [Builder.leaveLoop, List.length_modify]
      exact (hb₂.blocks.missingTerm (jumpsInside_goto (by omega))).modify fun k u hu => .inl hu
    · simp only [Builder.leaveLoop, List.length_modify]
      exact hb₂.loops l (List.mem_of_mem_drop hl)
  · let closed := b₂.blocks.modify b₂.current fun k => { k with term := k.term.or (some (.goto b.blocks.length)) }
    have ho : Open (closed.modify b.blocks.length fun k => { k with invariant := inv }) i ops := ho
    obtain ⟨ops₁, ho⟩ := ho.of_modify fun _ => rfl
    obtain ⟨hend, ho⟩ := ho.of_missingTerm
    obtain ⟨hstart, ops₂, ho⟩ := (h.waits i ops₁ ho).resolve_left hend
    rcases ho.of_enterLoop with hi | hi | ⟨hi, ho⟩
    · exact absurd hi hstart
    · exact .inl hi
    · exact .inr ⟨hi, ops₂, ho⟩

end

/-! ## one statement after the other -/

section

variable {sp : Span}

theorem seals_store {x : String} {v : Exp} {line : Int} (b : Builder) :
    Spec (store x v line) b fun _ b' => Seals b b' :=
  spec_store fun t op _ _ => seals_emit t op

theorem seals_ret (v : Option Exp) (b : Builder) : Spec (Stmt.ret sp v).lower b fun _ b' => Seals b b' := by
  unfold Stmt.lower
  cases v with
  | none =>
    rw [spec_terminate]
    exact seals_terminate fun _ => jumpsInside_ret none
  | some v =>
    simp only [spec_bind]
    refine spec_expression fun a u _ => ?_
    simp only [spec_get]
    split
    · simp
    · split
      · simp
      · rw [spec_terminate]
        exact seals_terminate fun _ => jumpsInside_ret (some a)

theorem seals_cond {t : Exp} {body orElse : List Stmt} (b : Builder)
    (hbody : ∀ b, Spec (Stmt.lowerL body) b fun _ b' => Seals b b')
    (hother : ∀ b, Spec (Stmt.lowerL orElse) b fun _ b' => Seals b b') :
    Spec (Stmt.cond sp t body orElse).lower b fun _ b' => Seals b b' := by
  unfold Stmt.lower
  rw [spec_bind]
  refine spec_guard fun a u _ => ?_
  simp only [spec_bind, spec_current]
  refine spec_firstLine fun l => ?_
  simp only [spec_newBlock, spec_enter]
  refine (hbody (b.newArm l)).mono fun _ b₂ h => ?_
  by_cases hempty : orElse.isEmpty = true
  · simp only [hempty, if_true, pure_bind, spec_bind, spec_newBlock, spec_setTerm,
      spec_setMissingTerm, spec_enter]
    exact seals_if h
  · simp only [hempty, Bool.false_eq_true, if_false, spec_bind]
    refine spec_firstLine fun l' => ?_
    simp only [spec_newBlock, spec_enter]
    refine (hother (b₂.newArm l')).mono fun _ b₄ h' => ?_
    simp only [spec_current, spec_setTerm, spec_setMissingTerm, spec_pure, spec_bind, spec_enter]
    exact seals_ifElse h h'

theorem seals_while {t : Exp} {body orElse : List Stmt} (b : Builder)
    (hbody : ∀ b, Spec (Stmt.lowerLoopBody body) b fun _ b' => Seals b b') :
    Spec (Stmt.loop sp t body orElse).lower b fun _ b' => Seals b b' := by
  unfold Stmt.lower
  rw [spec_bind]
  refine spec_parseAll fun invs _ => ?_
  simp only [spec_bind, spec_newBlock, spec_current, spec_setTerm, spec_enter]
  refine spec_guard fun a u _ => ?_
  simp only [spec_modify, List.length_append, List.length_modify, List.length_singleton]
  let l := ((body.dropWhile Stmt.isInvariant).head?.map Stmt.line).getD sp.line
  refine (hbody (b.enterLoop sp.line l sp.endLine (asGuard a u))).mono fun _ b₂ h => ?_
  rw [spec_setMissingTerm]
  refine spec_invariant fun inv _ => ?_
  rw [spec_editBlock]
  exact seals_loop h

mutual

theorem seals_lower (s : Stmt) (b : Builder) : Spec s.lower b fun _ b' => Seals b b' := by
  cases s with
  | assign sp ts v =>
    unfold Stmt.lower
    split
    · exact seals_store b
    · exact spec_fault
    · exact spec_fault
  | declare sp t u v =>
    unfold Stmt.lower
    split
    · simp only [spec_bind]
      refine spec_checkDeclared (spec_declareVar fun w t' _ _ _ _ _ => ?_)
      cases v with
      | none => exact spec_pure.2 (Seals.refl _).of_table
      | some v => exact (seals_store _).mono fun _ b' h => h.of_table
    · exact spec_fault
  | exp sp v =>
    unfold Stmt.lower
    split
    · exact spec_invoke fun t op _ _ => seals_emit t op
    · exact spec_fault
  | pass sp => exact spec_pure.2 (Seals.refl b)
  | ret sp v => exact seals_ret v b
  | cond sp t body orElse => exact seals_cond b (seals_lowerL body) (seals_lowerL orElse)
  | loop sp t body orElse => exact seals_while b (seals_lowerLoopBody body)
  | brk sp | cont sp =>
    unfold Stmt.lower
    simp only [spec_bind, spec_get]
    split
    · rename_i head exit rest hloops
      rw [spec_terminate]
      refine seals_terminate fun hb => jumpsInside_goto ?_
      have := hb.loops (head, exit) (hloops ▸ List.mem_cons_self ..)
      omega
    · exact spec_fault
  | augment sp t op v => exact spec_raise
  | function sp x ps more body ds r => exact spec_raise
  | other sp k ps => exact spec_raise

theorem seals_lowerL (ss : List Stmt) (b : Builder) : Spec (Stmt.lowerL ss) b fun _ b' => Seals b b' := by
  cases ss with
  | nil => exact spec_pure.2 (Seals.refl b)
  | cons s ss =>
    unfold Stmt.lowerL
    rw [spec_bind]
    exact (seals_lower s b).mono fun _ b₁ h => (seals_lowerL ss b₁).mono fun _ b₂ h' => h.trans h'

theorem seals_lowerLoopBody (ss : List Stmt) (b : Builder) :
    Spec (Stmt.lowerLoopBody ss) b fun _ b' => Seals b b' := by
  cases ss with
  | nil => exact spec_pure.2 (Seals.refl b)
  | cons s ss =>
    unfold Stmt.lowerLoopBody
    split
    · exact seals_lowerLoopBody ss b
    · rw [spec_bind]
      exact (seals_lower s b).mono fun _ b₁ h => (seals_lowerL ss b₁).mono fun _ b₂ h' => h.trans h'

end

end

/-! ## bodies -/

theorem seals_body (body : List Stmt) (b : Builder) :
    Spec (lowerBody body) b fun _ b' => ∃ b₁, Seals b b₁ ∧
      b' = { b₁ with blocks := b₁.blocks.modify b₁.current fun k => { k with term := k.term.or (some (.ret none)) } } := by
  have hend : ∀ ss, Spec (do
      Stmt.lowerL ss
      setMissingTerm (← current) (.ret none)) b fun _ b' => ∃ b₁, Seals b b₁ ∧
        b' = { b₁ with blocks := b₁.blocks.modify b₁.current fun k => { k with term := k.term.or (some (.ret none)) } } := by
    intro ss
    simp only [spec_bind, spec_current, spec_setMissingTerm]
    exact (seals_lowerL ss b).mono fun _ b₁ h => ⟨b₁, h, rfl⟩
  unfold lowerBody
  cases body with
  | nil => exact hend []
  | cons s ss =>
    simp only
    split
    · exact hend ss
    · exact hend (s :: ss)

/-- The blocks of a body jump to each other, and none is left open. -/
theorem complete_buildGraph {t : Table} {sigs : Signatures} {line : Int} {body : List Stmt}
    {t' : Table} {g : Graph} (h : buildGraph t sigs line body = .ok (t', g)) :
    g.Valid ∧ ∀ k ∈ g.blocks, ∃ u, k.term = some u := by
  let start : Builder := { table := t, signatures := sigs, blocks := [{ line := some line }] }
  obtain ⟨⟨⟨⟩, b'⟩, hrun, h⟩ := exists_of_bind_ok h
  cases h
  obtain ⟨b₁, hseals, rfl⟩ := seals_body body start () b' hrun
  have hstart : start.Bounded := by
    refine ⟨fun k hk u hu => ?_, nofun⟩
    rw [List.mem_singleton.1 hk] at hu
    cases hu
  have hin := (hseals.bounded hstart).blocks.missingTerm (i := b₁.current) (jumpsInside_ret none)
  have hlen : 1 ≤ b₁.blocks.length := hseals.length
  refine ⟨⟨⟨Int.le_refl 0, ?_⟩, fun k hk j hj => ?_⟩, fun k hk => ?_⟩
  · rw [List.length_modify]
    exact Int.ofNat_lt.2 hlen
  · unfold Block.successors at hj
    split at hj
    · rename_i u hu
      have hj := hin k hk u hu j hj
      simp only [Graph.IsIndex, List.length_modify]
      exact hj
    · cases hj
  · -- an open block would be the first one, and it is current or has been closed
    obtain ⟨i, hi⟩ := List.mem_iff_getElem?.1 hk
    cases hu : k.term with
    | some u => exact ⟨u, rfl⟩
    | none =>
      have ho : Open _ i k.ops := ⟨k, hi, rfl, hu⟩
      obtain ⟨hne, ho⟩ := ho.of_missingTerm
      obtain ⟨hfirst, ops, hopen⟩ := (hseals.waits i k.ops ho).resolve_left hne
      exact absurd (Nat.lt_one_iff.1 hopen.lt) hfirst

end ContractVerifier.Source
