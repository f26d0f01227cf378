import ContractVerifier.Proofs.Lower.Typing

/-!
# The layout of blocks

While a body is lowered a block is open until it gets its terminator.  Operations are added to the
current block only, so that a block that waits for its terminator, such as the one in front of a
conditional, is as it was when its time comes.

* `Open`, `Closed` : a block without and with its terminator;
* `Grows` : from one time of lowering to a later one;
* `Lays` : what lowering a statement does to the blocks.
-/

namespace ContractVerifier.Source

open ContractVerifier.Flow

/-- The block `i` holds `ops` so far. -/
def Open (bs : List Block) (i : Nat) (ops : List Op) : Prop :=
  ∃ k, bs[i]? = some k ∧ k.ops = ops ∧ k.term = none

/-- The block `i` is `ops` and the terminator `t`. -/
def Closed (bs : List Block) (i : Nat) (ops : List Op) (t : Terminator) : Prop :=
  ∃ k, bs[i]? = some k ∧ k.ops = ops ∧ k.term = some t

/-- Open blocks may get more operations, closed ones stay. -/
def Grows (bs bs' : List Block) : Prop :=
  ∀ (i : Nat) (k : Block), bs[i]? = some k → ∃ k', bs'[i]? = some k' ∧ k.ops <+: k'.ops ∧
    ∀ t, k.term = some t → k'.term = some t ∧ k'.ops = k.ops

section

variable {bs bs' bs'' : List Block} {i j : Nat} {ops : List Op} {t : Terminator}

theorem Open.lt (h : Open bs i ops) : i < bs.length := by
  obtain ⟨k, hk, -⟩ := h
  exact (List.getElem?_eq_some_iff.1 hk).1

theorem Grows.refl (bs : List Block) : Grows bs bs :=
  fun _ k hk => ⟨k, hk, List.prefix_refl _, fun _ ht => ⟨ht, rfl⟩⟩

theorem Grows.trans (h : Grows bs bs') (h' : Grows bs' bs'') : Grows bs bs'' := by
  intro i k hk
  obtain ⟨k₁, hk₁, hp₁, ht₁⟩ := h i k hk
  obtain ⟨k₂, hk₂, hp₂, ht₂⟩ := h' i k₁ hk₁
  refine ⟨k₂, hk₂, hp₁.trans hp₂, fun t ht => ?_⟩
  obtain ⟨ht', ho⟩ := ht₁ t ht
  obtain ⟨ht'', ho'⟩ := ht₂ t ht'
  exact ⟨ht'', ho'.trans ho⟩

theorem Grows.length_le (h : Grows bs bs') : bs.length ≤ bs'.length := by
  by_contra hlt
  obtain ⟨k, hk, -⟩ := h bs'.length _ (List.getElem?_eq_getElem (by omega))
  exact absurd (List.getElem?_eq_some_iff.1 hk).1 (by omega)

theorem Closed.grows (h : Closed bs i ops t) (hg : Grows bs bs') : Closed bs' i ops t := by
  obtain ⟨k, hk, rfl, ht⟩ := h
  obtain ⟨k', hk', -, hterm⟩ := hg i k hk
  obtain ⟨ht', ho⟩ := hterm t ht
  exact ⟨k', hk', ho, ht'⟩

/-- What an open block holds stays at its front. -/
theorem Open.front (h : Open bs i ops) (hg : Grows bs bs') : ∃ k, bs'[i]? = some k ∧ ops <+: k.ops := by
  obtain ⟨k, hk, rfl, -⟩ := h
  obtain ⟨k', hk', hp, -⟩ := hg i k hk
  exact ⟨k', hk', hp⟩

/-! ## steps -/

theorem grows_append (ks : List Block) : Grows bs (bs ++ ks) := by
  intro i k hk
  refine ⟨k, ?_, List.prefix_refl _, fun _ ht => ⟨ht, rfl⟩⟩
  rw [List.getElem?_append_left (List.getElem?_eq_some_iff.1 hk).1]
  exact hk

theorem grows_modify {f : Block → Block}
    (h : ∀ k, bs[i]? = some k → k.ops <+: (f k).ops ∧ ∀ t, k.term = some t → (f k).term = some t ∧ (f k).ops = k.ops) :
    Grows bs (bs.modify i f) := by
  intro j k hk
  rw [List.getElem?_modify, hk]
  by_cases hij : i = j
  · subst hij
    exact ⟨f k, by simp, h k hk⟩
  · exact ⟨k, by simp [hij], List.prefix_refl _, fun _ ht => ⟨ht, rfl⟩⟩

/-- An open block may be edited if its operations stay at the front. -/
theorem Open.grows_modify (h : Open bs i ops) {f : Block → Block} (hf : ∀ k, k.ops <+: (f k).ops) :
    Grows bs (bs.modify i f) := by
  obtain ⟨k₀, hk₀, -, hterm⟩ := h
  refine Source.grows_modify fun k hk => ⟨hf k, fun t ht => ?_⟩
  cases hk₀.symm.trans hk
  rw [hterm] at ht
  cases ht

theorem Open.append (h : Open bs i ops) (ks : List Block) : Open (bs ++ ks) i ops := by
  obtain ⟨k, hk, hrest⟩ := h
  refine ⟨k, ?_, hrest⟩
  rw [List.getElem?_append_left (List.getElem?_eq_some_iff.1 hk).1]
  exact hk

theorem open_new (line : Option Int) : Open (bs ++ [{ line := line }]) bs.length [] :=
  ⟨{ line := line }, by simp, rfl, rfl⟩

theorem Open.modify_ne (h : Open bs i ops) (hij : j ≠ i) (f : Block → Block) : Open (bs.modify j f) i ops := by
  obtain ⟨k, hk, hrest⟩ := h
  refine ⟨k, ?_, hrest⟩
  rw [List.getElem?_modify, hk]
  simp [hij]

theorem Open.emit (h : Open bs i ops) (op : Op) :
    Open (bs.modify i fun k => { k with ops := k.ops ++ [op] }) i (ops ++ [op]) := by
  obtain ⟨k, hk, rfl, ht⟩ := h
  exact ⟨{ k with ops := k.ops ++ [op] }, by simp [hk], rfl, ht⟩

theorem Open.close (h : Open bs i ops) (t : Terminator) :
    Closed (bs.modify i fun k => { k with term := some t }) i ops t := by
  obtain ⟨k, hk, rfl, -⟩ := h
  exact ⟨{ k with term := some t }, by simp [hk], rfl, rfl⟩

theorem Open.closeMissing (h : Open bs i ops) (t : Terminator) :
    Closed (bs.modify i fun k => { k with term := k.term.or (some t) }) i ops t := by
  obtain ⟨k, hk, rfl, ht⟩ := h
  exact ⟨{ k with term := k.term.or (some t) }, by simp [hk], rfl, by simp [ht]⟩

theorem Open.grows_term (h : Open bs i ops) (t : Terminator) :
    Grows bs (bs.modify i fun k => { k with term := some t }) := h.grows_modify fun _ => List.prefix_refl _

theorem Open.grows_missingTerm (h : Open bs i ops) (t : Terminator) :
    Grows bs (bs.modify i fun k => { k with term := k.term.or (some t) }) := h.grows_modify fun _ => List.prefix_refl _

end

/-! ## statements -/

/-- The blocks grow, the loops around are the same, the block that is current then is open with
`ops`, and open blocks that were not current are as they were. -/
structure Lays (b b' : Builder) (ops : List Op) : Prop where
  grows : Grows b.blocks b'.blocks
  loops : b'.loops = b.loops
  current : b'.current = b.current ∨ b.blocks.length ≤ b'.current
  frame : ∀ i os, i ≠ b.current → Open b.blocks i os → Open b'.blocks i os
  ready : Open b'.blocks b'.current ops

section

variable {b b' b'' : Builder} {ops ops' : List Op}

theorem Lays.refl (h : Open b.blocks b.current ops) : Lays b b ops :=
  ⟨Grows.refl _, rfl, .inl rfl, fun _ _ _ h => h, h⟩

/-- A block that waits is not current later either. -/
theorem Lays.ne_current (h : Lays b b' ops) {i : Nat} {os : List Op} (hi : i ≠ b.current)
    (ho : Open b.blocks i os) :
    i ≠ b'.current := by
  have hlt := ho.lt
  rcases h.current with hc | hc
  · rw [hc]
    exact hi
  · omega

theorem Lays.trans (h : Lays b b' ops) (h' : Lays b' b'' ops') : Lays b b'' ops' := by
  refine ⟨h.grows.trans h'.grows, h'.loops.trans h.loops, ?_, fun i os hi ho => ?_, h'.ready⟩
  · rcases h'.current with hc | hc
    · rw [hc]
      exact h.current
    · exact .inr (Nat.le_trans h.grows.length_le hc)
  · exact h'.frame i os (h.ne_current hi ho) (h.frame i os hi ho)

/-- One operation more. -/
theorem lays_emit (h : Open b.blocks b.current ops) (t : Table) (op : Op) :
    Lays b (b.emit t op) (ops ++ [op]) where
  grows := h.grows_modify fun _ => List.prefix_append ..
  loops := rfl
  current := .inl rfl
  frame := fun _ _ hi ho => ho.modify_ne (Ne.symm hi) _
  ready := h.emit op

/-- The current block gets its terminator, and a new one is current. -/
theorem lays_terminate (h : Open b.blocks b.current ops) (t : Terminator) (line : Int) :
    Lays b { b with
      blocks := (b.blocks.modify b.current fun k => { k with term := some t }) ++ [({ line := some line } : Block)],
      current := b.blocks.length } [] where
  grows := (h.grows_term t).trans (grows_append _)
  loops := rfl
  current := .inr (Nat.le_refl _)
  frame := fun _ _ hi ho => (ho.modify_ne (Ne.symm hi) _).append _
  ready := by
    let bs := b.blocks.modify b.current fun k => { k with term := some t }
    have hnew : Open (bs ++ [({ line := some line } : Block)]) bs.length [] := open_new _
    rwa [List.length_modify] at hnew

/-! ## arms of a conditional -/

/-- A new block is current. -/
def Builder.newArm (b : Builder) (line : Int) : Builder :=
  { b with blocks := b.blocks ++ [({ line := some line } : Block)], current := b.blocks.length }

theorem open_newArm (b : Builder) (line : Int) : Open (b.newArm line).blocks (b.newArm line).current [] := open_new _

/-- What was open in front of an arm is open behind it, and not its end. -/
theorem Lays.wait {line : Int} (h : Lays (b.newArm line) b' ops) {i : Nat} {os : List Op}
    (ho : Open b.blocks i os) :
    Open b'.blocks i os ∧ i ≠ b'.current := by
  have hlt : i ≠ (b.newArm line).current := Nat.ne_of_lt ho.lt
  have ho' : Open (b.newArm line).blocks i os := ho.append _
  exact ⟨h.frame i os hlt ho', h.ne_current hlt ho'⟩

theorem Lays.grows_arm {line : Int} (h : Lays (b.newArm line) b' ops) : Grows b.blocks b'.blocks :=
  (grows_append _).trans h.grows

/-- The block `i` branches, the block `j` goes on, and a new block behind both is current. -/
def Builder.join (b : Builder) (line : Int) (i j : Nat) (t : Nat → Terminator) : Builder :=
  { b with
    blocks := ((b.blocks ++ [({ line := some line } : Block)]).modify i fun k =>
      { k with term := some (t b.blocks.length) }).modify j fun k =>
        { k with term := k.term.or (some (.goto b.blocks.length)) },
    current := b.blocks.length }

/-- One more block goes on to the current one, which is new. -/
def Builder.joinAlso (b : Builder) (j : Nat) : Builder :=
  { b with blocks := b.blocks.modify j fun k => { k with term := k.term.or (some (.goto b.current)) } }

section

variable {i j : Nat} {line : Int} {t : Nat → Terminator} {os : List Op}

theorem grows_join (hi : Open b.blocks i ops) (hj : Open b.blocks j ops') (hij : i ≠ j) :
    Grows b.blocks (b.join line i j t).blocks :=
  (grows_append _).trans (((hi.append _).grows_term _).trans (((hj.append _).modify_ne hij _).grows_missingTerm _))

theorem closed_join_branch (hi : Open b.blocks i ops) (hj : Open b.blocks j ops') (hij : i ≠ j) :
    Closed (b.join line i j t).blocks i ops (t b.blocks.length) :=
  ((hi.append _).close _).grows (((hj.append _).modify_ne hij _).grows_missingTerm _)

theorem closed_join_end (hj : Open b.blocks j ops') (hij : i ≠ j) :
    Closed (b.join line i j t).blocks j ops' (.goto b.blocks.length) :=
  ((hj.append _).modify_ne hij _).closeMissing _

theorem open_join (ho : Open b.blocks i ops') (hoj : Open b.blocks j os) :
    Open (b.join line i j t).blocks b.blocks.length [] :=
  (((open_new _).modify_ne (Nat.ne_of_lt ho.lt) _).modify_ne (Nat.ne_of_lt hoj.lt) _)

theorem open_join_other {k : Nat} (ho : Open b.blocks k os) (hi : k ≠ i) (hj : k ≠ j) :
    Open (b.join line i j t).blocks k os :=
  ((ho.append _).modify_ne (Ne.symm hi) _).modify_ne (Ne.symm hj) _

end

/-! ## loops -/

/-- The current block goes on to the header of a loop, a new block, which branches to two more.  The
first of these is current. -/
def Builder.enterLoop (b : Builder) (l₁ l₂ l₃ : Int) (e : Expr) : Builder :=
  let head := b.blocks.length
  { b with
    blocks := ((((b.blocks ++ [({ line := some l₁ } : Block)]).modify b.current fun k =>
        { k with term := some (.goto head) }) ++
      [({ line := some l₂ } : Block)]) ++ [({ line := some l₃ } : Block)]).modify head fun k =>
        { k with term := some (.branch e (head + 1 : Nat) (head + 1 + 1 : Nat)) },
    current := head + 1,
    loops := (head, head + 1 + 1) :: b.loops }

/-- The current block goes back to the header, and the block behind the loop is current. -/
def Builder.leaveLoop (b : Builder) (head exit : Nat) (inv : Option Expr) : Builder :=
  { b with
    blocks := (b.blocks.modify b.current fun k => { k with term := k.term.or (some (.goto head)) }).modify head fun k =>
      { k with invariant := inv },
    current := exit,
    loops := b.loops.drop 1 }

section

variable {l₁ l₂ l₃ : Int} {e : Expr} {inv : Option Expr}

/-- The blocks at the start of a loop. -/
theorem enterLoop_blocks (ho : Open b.blocks b.current ops) :
    let b₁ := b.enterLoop l₁ l₂ l₃ e
    Grows b.blocks b₁.blocks ∧ Closed b₁.blocks b.current ops (.goto b.blocks.length) ∧
    Closed b₁.blocks b.blocks.length [] (.branch e (b.blocks.length + 1 : Nat) (b.blocks.length + 1 + 1 : Nat)) ∧
    Open b₁.blocks (b.blocks.length + 1) [] ∧ Open b₁.blocks (b.blocks.length + 1 + 1) [] ∧
    ∀ i os, i ≠ b.current → Open b.blocks i os → Open b₁.blocks i os := by
  let bs₁ := b.blocks ++ [({ line := some l₁ } : Block)]
  let bs₂ := bs₁.modify b.current fun k => { k with term := some (.goto b.blocks.length) }
  let bs₃ := bs₂ ++ [({ line := some l₂ } : Block)]
  let bs₄ := bs₃ ++ [({ line := some l₃ } : Block)]
  have hlen₂ : bs₂.length = b.blocks.length + 1 := by simp [bs₂, bs₁]
  have hlen₃ : bs₃.length = b.blocks.length + 1 + 1 := by simp [bs₃, hlen₂]
  have hclosed : Closed bs₂ b.current ops (.goto b.blocks.length) := (ho.append _).close _
  have hhead : Open bs₄ b.blocks.length [] :=
    (((open_new _).modify_ne (Nat.ne_of_lt ho.lt) _).append _).append _
  have hfirst : Open bs₄ bs₂.length [] := (open_new _).append _
  have hexit : Open bs₄ bs₃.length [] := open_new _
  have hgrows : Grows bs₂ bs₄ := (grows_append _).trans (grows_append _)
  rw [hlen₂] at hfirst
  rw [hlen₃] at hexit
  -- the header is closed last
  refine ⟨?_, (hclosed.grows hgrows).grows (hhead.grows_term _), hhead.close _, hfirst.modify_ne (by omega) _,
    hexit.modify_ne (by omega) _, fun i os hi hoi => ?_⟩
  · exact ((grows_append _).trans ((ho.append _).grows_term _)).trans
      (hgrows.trans (hhead.grows_term _))
  · have hlt := hoi.lt
    exact ((((hoi.append _).modify_ne (Ne.symm hi) _).append _).append _).modify_ne (by omega) _

/-- The blocks at the end of a loop. -/
theorem leaveLoop_blocks {head exit : Nat} (ho : Open b.blocks b.current ops) :
    let b₁ := b.leaveLoop head exit inv
    Grows b.blocks b₁.blocks ∧ Closed b₁.blocks b.current ops (.goto head) ∧
    ∀ i os, i ≠ b.current → i ≠ head → Open b.blocks i os → Open b₁.blocks i os := by
  have hinv : ∀ bs : List Block, Grows bs (bs.modify head fun k => { k with invariant := inv }) :=
    fun bs => grows_modify fun k _ => ⟨List.prefix_refl _, fun _ ht => ⟨ht, rfl⟩⟩
  refine ⟨(ho.grows_missingTerm _).trans (hinv _), (ho.closeMissing _).grows (hinv _), fun i os hi hh hoi => ?_⟩
  exact (hoi.modify_ne (Ne.symm hi) _).modify_ne (Ne.symm hh) _

end

end

end ContractVerifier.Source
