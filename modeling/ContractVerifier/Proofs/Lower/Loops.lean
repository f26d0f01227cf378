import ContractVerifier.Proofs.Lower.Complete
import ContractVerifier.Proofs.Lower.Skeleton
import ContractVerifier.Proofs.Flow.Reach
import ContractVerifier.Proofs.Source.Run

/-!
# The loops of a lowered body

Lowering lays out the blocks of a body as `Stmt.order` says.  Each of its loops has a header of its
own, and blocks go on to others by jumps only.

* `Loop.IsHead` : what the header of a loop holds;
* `Adds` : the terminators that were set from one time to a later one;
* `Wired` : what lowering a statement does to the blocks, and `Wires` of all builders;
* `Laid` : the graph of a body, as `laid_buildGraph` says.
-/

namespace ContractVerifier.Source

open ContractVerifier.Flow Build

/-! ## headers -/

/-- The block only branches on the test of the loop, and its invariant is what the conditions at the
start of the body say. -/
structure Loop.IsHead (t : Table) (l : Loop) (k : Block) : Prop where
  line : k.line = some l.span.line
  ops : k.ops = []
  branches : ∃ a u, Translates t l.test a u ∧ k.term = some (.branch (asGuard a u) (l.head + 1 : Nat) (l.head + 2 : Nat))
  invariant : ∃ es, Parses (leadingInvariants l.body) es ∧ Conjoins t es k.invariant

/-- The header of `l` is among the blocks. -/
def Loop.Headed (t : Table) (bs : List Block) (l : Loop) : Prop :=
  ∃ k, bs[l.head]? = some k ∧ l.IsHead t k

theorem Loop.Headed.mono {t t' : Table} {bs bs' : List Block} {l : Loop} (h : l.Headed t bs)
    (ht : t.Le t') (hb : bs'[l.head]? = bs[l.head]?) : l.Headed t' bs' := by
  obtain ⟨k, hk, hline, hops, ⟨a, u, ha, hterm⟩, es, hes, hinv⟩ := h
  exact ⟨k, hb.trans hk, hline, hops, ⟨a, u, ha.mono ht, hterm⟩, es, hes, hinv.mono ht⟩

/-! ## terminators -/

/-- All targets of the terminator are jumps. -/
def Goes (J : Nat → Nat → Prop) (i : Nat) (t : Terminator) : Prop :=
  ∀ s ∈ t.successors, ∃ j : Nat, s = j ∧ J i j

/-- The terminators that were not there before go along `J`. -/
def Adds (J : Nat → Nat → Prop) (bs bs' : List Block) : Prop :=
  ∀ (i : Nat) (k' : Block) (t : Terminator), bs'[i]? = some k' → k'.term = some t →
    (∃ k, bs[i]? = some k ∧ k.term = some t) ∨ Goes J i t

section

variable {J J' : Nat → Nat → Prop} {bs bs' bs'' : List Block} {i j k : Nat} {t : Terminator}

theorem goes_goto (h : J i j) : Goes J i (.goto j) := by
  intro s hs
  exact ⟨j, List.mem_singleton.1 hs, h⟩

theorem goes_branch {e : Expr} (hj : J i j) (hk : J i k) : Goes J i (.branch e j k) := by
  intro s hs
  rcases List.mem_pair.1 hs with rfl | rfl
  · exact ⟨j, rfl, hj⟩
  · exact ⟨k, rfl, hk⟩

theorem goes_ret (e : Option Expr) : Goes J i (.ret e) := by
  intro s hs
  cases hs

theorem Adds.refl (bs : List Block) : Adds J bs bs := fun _ k _ hk ht => .inl ⟨k, hk, ht⟩

theorem Adds.trans (h : Adds J bs bs') (h' : Adds J bs' bs'') : Adds J bs bs'' := by
  intro i k' t hk ht
  rcases h' i k' t hk ht with ⟨k₁, hk₁, ht₁⟩ | hgoes
  · exact h i k₁ t hk₁ ht₁
  · exact .inr hgoes

theorem Adds.mono (h : Adds J bs bs') (hJ : ∀ i j, J i j → J' i j) : Adds J' bs bs' := by
  intro i k' t hk ht
  refine (h i k' t hk ht).imp_right fun hgoes s hs => ?_
  obtain ⟨j, hsj, hj⟩ := hgoes s hs
  exact ⟨j, hsj, hJ i j hj⟩

theorem adds_new (line : Option Int) : Adds J bs (bs ++ [{ line := line }]) := by
  intro i k' t hk ht
  by_cases hi : i < bs.length
  · rw [List.getElem?_append_left hi] at hk
    exact .inl ⟨k', hk, ht⟩
  · rw [List.getElem?_append_right (Nat.le_of_not_lt hi)] at hk
    rw [List.mem_singleton.1 (List.mem_of_getElem? hk)] at ht
    cases ht

theorem adds_modify {f : Block → Block} (hf : ∀ k t, (f k).term = some t → k.term = some t ∨ Goes J i t) :
    Adds J bs (bs.modify i f) := by
  intro j k' t hk ht
  rw [List.getElem?_modify] at hk
  obtain ⟨c, hc, rfl⟩ := Option.map_eq_some_iff.1 hk
  by_cases hij : i = j
  · rw [if_pos hij] at ht
    exact (hf c t ht).imp (fun h => ⟨c, hc, h⟩) fun h => hij ▸ h
  · rw [if_neg hij] at ht
    exact .inl ⟨c, hc, ht⟩

theorem goes_of_or (h : Goes J i t) (v : Option Terminator) (u : Terminator)
    (hu : v.or (some t) = some u) :
    v = some u ∨ Goes J i u := by
  rcases Option.or_eq_some_iff.1 hu with hu | ⟨-, hu⟩
  · exact .inl hu
  · exact .inr (Option.some.inj hu ▸ h)

theorem adds_term (h : Goes J i t) : Adds J bs (bs.modify i fun k => { k with term := some t }) :=
  adds_modify fun _ _ hu => .inr (Option.some.inj hu ▸ h)

theorem adds_missingTerm (h : Goes J i t) : Adds J bs (bs.modify i fun k => { k with term := k.term.or (some t) }) :=
  adds_modify fun k => goes_of_or h k.term

end

/-! ## statements -/

/-- The current block and the loops around are there. -/
structure Builder.Ready (b : Builder) : Prop where
  current : b.current < b.blocks.length
  loops : ∀ p ∈ b.loops, p.1 < b.blocks.length ∧ p.2 < b.blocks.length

/-- From `b` to `b'` the blocks of `order` were laid out, with their loops.  Of the blocks before
only `start` was changed. -/
structure Wired (start : Option Nat) (b b' : Builder) (count : Nat) (order : List Nat)
    (loops : List Loop) : Prop where
  length : b'.blocks.length = b.blocks.length + count
  spans : Spans b.blocks.length b'.blocks.length order loops
  context : b'.loops = b.loops
  table : b.table.Le b'.table
  current : b'.current ∈ start.toList ++ order
  notHead : ∀ l ∈ loops, b'.current ≠ l.head
  frame : ∀ i, i < b.blocks.length → i ∉ start → b'.blocks[i]? = b.blocks[i]?
  jumps : Adds (Jump (start.toList ++ order) loops b.loops) b.blocks b'.blocks
  headed : ∀ l ∈ loops, l.Headed b'.table b'.blocks

section

variable {b b' b'' : Builder} {c c' i j m : Nat} {st st' : Option Nat} {o o' : List Nat} {ls ls' : List Loop}

namespace Wired

theorem refl (b : Builder) : Wired (some b.current) b b 0 [] [] where
  length := rfl
  spans := spans_nil _
  context := rfl
  table := Table.Le.refl _
  current := List.mem_cons_self ..
  notHead := by simp
  frame := fun _ _ _ => rfl
  jumps := Adds.refl _
  headed := by simp

theorem ready (h : Wired (some b.current) b b' c o ls) (hr : b.Ready) : b'.Ready := by
  have hlen := h.length
  refine ⟨?_, fun p hp => ?_⟩
  · have hc := hr.current
    rcases List.mem_cons.1 h.current with he | hm
    · omega
    · exact (h.spans.blocks _ hm).2
  · rw [h.context] at hp
    have := hr.loops p hp
    omega

/-- One after the other. -/
theorem trans (h : Wired st b b' c o ls) (h' : Wired st' b' b'' c' o' ls') (hr : b.Ready)
    (hstart : ∀ i ∈ st', i ∈ st.toList ++ o) (hfree : ∀ l ∈ ls, l.head ∉ st') :
    Wired st b b'' (c + c') (o ++ o') (ls ++ ls') := by
  have hlen := h.length
  have hlen' := h'.length
  have hsub : (st'.toList ++ o').Sublist (st.toList ++ (o ++ o')) := by
    rw [← List.append_assoc]
    refine List.Sublist.append ?_ (.refl o')
    cases st' with
    | none => exact List.nil_sublist _
    | some i => exact List.singleton_sublist.2 (hstart i rfl)
  refine ⟨by omega, h.spans.append h'.spans (by omega) (by omega), h'.context.trans h.context, h.table.trans h'.table,
    hsub.subset h'.current, fun l hl => ?_, fun i hi hne => ?_, ?_, fun l hl => ?_⟩
  · rcases List.mem_append.1 hl with hl | hl
    · intro he
      rcases List.mem_append.1 h'.current with hm | hm
      · exact hfree l hl (he ▸ Option.mem_toList.1 hm)
      · have := h.spans.heads l hl
        have := h'.spans.blocks _ hm
        unfold Loop.stop at *
        omega
    · exact h'.notHead l hl
  · rw [h'.frame i (by omega) fun hm => ?_, h.frame i hi hne]
    have := h.spans.blocks i ((List.mem_append.1 (hstart i hm)).resolve_left fun hm => hne (Option.mem_toList.1 hm))
    omega
  · -- the jumps of each part enter no loop of the other one
    have hout : ∀ p ∈ b.loops.head?, p.1 < b.blocks.length ∧ p.2 < b.blocks.length := fun p hp =>
      hr.loops p (List.mem_of_head? hp)
    refine (h.jumps.mono fun i j hj => ?_).trans (h'.jumps.mono fun i j hj => ?_)
    · refine hj.weaken ((List.Sublist.refl _).append (List.sublist_append_left ..))
        (fun l hl => List.mem_append_left _ hl) fun l hl => (List.mem_append.1 hl).imp_right fun hl => ?_
      have := h'.spans.heads l hl
      exact hj.not_contains h.spans hout (by omega) (by omega)
    · rw [h.context] at hj
      refine hj.weaken hsub (fun l hl => List.mem_append_right _ hl)
        fun l hl => (List.mem_append.1 hl).symm.imp_right fun hl => ?_
      have := h.spans.heads l hl
      exact hj.not_contains h'.spans hout (by omega) (by omega)
  · rcases List.mem_append.1 hl with hl | hl
    · have := h.spans.heads l hl
      unfold Loop.stop at this
      exact (h.headed l hl).mono h'.table (h'.frame _ (by omega) (hfree l hl))
    · exact h'.headed l hl

/-- A block that is no header gets its terminator, or an operation. -/
theorem edit (h : Wired st b b' c o ls) (hj : j ∈ st ∨ j ∈ o) (hfree : ∀ l ∈ ls, j ≠ l.head)
    {f : Block → Block}
    (hf : ∀ k t, (f k).term = some t → k.term = some t ∨ Goes (Jump (st.toList ++ o) ls b.loops) j t) :
    Wired st b { b' with blocks := b'.blocks.modify j f } c o ls := by
  have hlen : (b'.blocks.modify j f).length = b'.blocks.length := List.length_modify ..
  refine ⟨hlen.trans h.length, hlen.symm ▸ h.spans, h.context, h.table, h.current, h.notHead, fun i hi hne => ?_,
    h.jumps.trans (adds_modify hf),
    fun l hl => (h.headed l hl).mono (Table.Le.refl _) (List.getElem?_modify_ne _ _ (hfree l hl))⟩
  have hij : j ≠ i := by
    rintro rfl
    have := h.spans.blocks j (hj.resolve_left hne)
    omega
  exact (List.getElem?_modify_ne _ _ hij).trans (h.frame i hi hne)

theorem term {t : Terminator} (h : Wired st b b' c o ls) (hj : j ∈ st ∨ j ∈ o)
    (hfree : ∀ l ∈ ls, j ≠ l.head) (ht : Goes (Jump (st.toList ++ o) ls b.loops) j t) :
    Wired st b { b' with blocks := b'.blocks.modify j fun k => { k with term := some t } } c o ls :=
  h.edit hj hfree fun _ _ hu => .inr (Option.some.inj hu ▸ ht)

theorem missingTerm {t : Terminator} (h : Wired st b b' c o ls) (hj : j ∈ st ∨ j ∈ o)
    (hfree : ∀ l ∈ ls, j ≠ l.head) (ht : Goes (Jump (st.toList ++ o) ls b.loops) j t) :
    Wired st b { b' with blocks := b'.blocks.modify j fun k => { k with term := k.term.or (some t) } } c o ls :=
  h.edit hj hfree fun k => goes_of_or ht k.term

theorem of_table {t : Table} (ht : b.table.Le t) (h : Wired st { b with table := t } b' c o ls) : Wired st b b' c o ls :=
  ⟨h.length, h.spans, h.context, ht.trans h.table, h.current, h.notHead, h.frame, h.jumps, h.headed⟩

/-- What changed no block may change one. -/
theorem widen (h : Wired none b b' c o ls) (i : Nat) : Wired (some i) b b' c o ls where
  length := h.length
  spans := h.spans
  context := h.context
  table := h.table
  current := List.mem_cons_of_mem _ h.current
  notHead := h.notHead
  frame := fun j hj _ => h.frame j hj (by simp)
  jumps := h.jumps.mono fun j k hjk => hjk.weaken (.cons _ (.refl _)) (fun _ hl => hl) fun _ hl => .inl hl
  headed := h.headed

end Wired

theorem wired_emit {t : Table} (ht : b.table.Le t) (op : Op) :
    Wired (some b.current) b (b.emit t op) 0 [] [] :=
  ((Wired.refl { b with table := t }).edit (f := fun k => { k with ops := k.ops ++ [op] }) (.inl rfl) (by simp)
    fun _ _ hu => .inl hu).of_table ht

theorem length_newArm {line : Int} : (b.newArm line).blocks.length = b.blocks.length + 1 := by
  simp [Builder.newArm]

theorem wired_newArm (line : Int) : Wired none b (b.newArm line) 1 [b.blocks.length] [] where
  length := length_newArm
  spans := length_newArm.symm ▸ spans_new _
  context := rfl
  table := Table.Le.refl _
  current := List.mem_singleton_self _
  notHead := by simp
  frame := fun i hi _ => List.getElem?_append_left hi
  jumps := adds_new _
  headed := by simp

/-- A new block is current. -/
theorem Wired.newBlock (h : Wired st b b' c o ls) (hr : b.Ready) (line : Int) :
    Wired st b (b'.newArm line) (c + 1) (o ++ [b'.blocks.length]) ls := by
  have hnew := h.trans (wired_newArm line) hr (by simp) (by simp)
  rwa [List.append_nil] at hnew

theorem wired_terminate {t : Terminator} (hr : b.Ready)
    (ht : Goes (Jump [b.current] [] b.loops) b.current t) (line : Int) :
    Wired (some b.current) b { b with
      blocks := (b.blocks.modify b.current fun k => { k with term := some t }) ++ [({ line := some line } : Block)],
      current := b.blocks.length } 1 [b.blocks.length] [] := by
  have h := ((Wired.refl b).term (.inl rfl) (by simp) ht).newBlock hr line
  simpa only [Builder.newArm, List.length_modify, Nat.zero_add, List.nil_append] using h

/-! ## arms of a conditional -/

/-- An arm with its first block. -/
theorem Wired.arm {line : Int} (h : Wired (some b.blocks.length) (b.newArm line) b' c o ls)
    (hr : b.Ready) :
    Wired none b b' (1 + c) (b.blocks.length :: o) ls :=
  (wired_newArm line).trans h hr (fun i hi => Option.mem_toList.2 hi) (by simp)

/-- The current block goes on to the arms, and the end of an arm to a new block. -/
theorem Wired.join {t : Nat → Terminator} (h : Wired none b b' c o ls) (hr : b.Ready) (hj : j ∈ o)
    (hfree : ∀ l ∈ ls, j ≠ l.head)
    (ht : Goes (Jump (b.current :: (o ++ [b'.blocks.length])) ls b.loops) b.current (t b'.blocks.length)) (line : Int) :
    Wired (some b.current) b (b'.join line b.current j t) (c + 1) (o ++ [b'.blocks.length]) ls := by
  have hcur : ∀ l ∈ ls, b.current ≠ l.head := fun l hl => by
    have := h.spans.heads l hl
    have := hr.current
    omega
  have hbranch := ((h.newBlock hr line).widen b.current).term (.inl rfl) hcur ht
  exact hbranch.missingTerm (.inr (List.mem_append_left _ hj)) hfree
    (goes_goto (jump_behind h.spans (List.mem_cons_of_mem _ hj)))

/-- A conditional without `else`. -/
theorem wired_if {e : Expr} {line l : Int} (hr : b.Ready)
    (h : Wired (some b.blocks.length) (b.newArm l) b' c o ls) :
    Wired (some b.current) b (b'.join line b.current b'.current fun j => .branch e b.blocks.length j) (1 + c + 1)
      (b.blocks.length :: (o ++ [b'.blocks.length])) ls := by
  have harm := h.arm hr
  exact harm.join hr h.current h.notHead
    (goes_branch (jump_into harm.spans) (jump_behind harm.spans (List.mem_cons_self ..))) line

/-- A conditional with both arms. -/
theorem wired_ifElse {e : Expr} {line l l' : Int} (hr : b.Ready)
    (h : Wired (some b.blocks.length) (b.newArm l) b' c o ls)
    (h' : Wired (some b'.blocks.length) (b'.newArm l') b'' c' o' ls') :
    Wired (some b.current) b
      ((b''.join line b.current b'.current fun _ => .branch e b.blocks.length b'.blocks.length).joinAlso b''.current)
      (1 + c + (1 + c') + 1)
      (b.blocks.length :: (o ++ b'.blocks.length :: (o' ++ [b''.blocks.length]))) (ls ++ ls') := by
  have harm := h.arm hr
  have hr' : b'.Ready := (harm.widen b.current).ready hr
  have harm' := h'.arm hr'
  have hboth := harm.trans harm' hr (by simp) (by simp)
  have hend : ∀ l ∈ ls ++ ls', b'.current ≠ l.head := fun l hl => by
    rcases List.mem_append.1 hl with hl | hl
    · exact h.notHead l hl
    · have := harm'.spans.heads l hl
      have := hr'.current
      omega
  have hsecond : Jump (b.current :: (b.blocks.length :: o ++ b'.blocks.length :: o' ++ [b''.blocks.length])) (ls ++ ls')
      b.loops b.current b'.blocks.length := by
    rw [List.append_assoc]
    exact jump_over harm.spans harm'.spans _
  have hjoin := hboth.join hr (List.mem_append_left _ harm.current) hend
    (t := fun _ => .branch e b.blocks.length b'.blocks.length) (goes_branch (jump_into hboth.spans) hsecond) line
  have hmem : b''.current ∈ b.blocks.length :: o ++ b'.blocks.length :: o' := hboth.current
  have h := hjoin.missingTerm (.inr (List.mem_append_left _ hmem)) hboth.notHead
    (goes_goto (jump_behind hboth.spans (List.mem_cons_of_mem _ hmem)))
  simp only [List.cons_append, List.append_assoc] at h
  exact h

/-! ## loops -/

section

variable {l₁ l₂ l₃ : Int} {e : Expr}

theorem adds_enterLoop {J : Nat → Nat → Prop} (hcur : J b.current b.blocks.length)
    (hbody : J b.blocks.length (b.blocks.length + 1))
    (hexit : J b.blocks.length (b.blocks.length + 1 + 1)) :
    Adds J b.blocks (b.enterLoop l₁ l₂ l₃ e).blocks :=
  (adds_new _).trans <| (adds_term (goes_goto hcur)).trans <| (adds_new _).trans <| (adds_new _).trans <|
    adds_term (goes_branch hbody hexit)

theorem frame_enterLoop (hi : i < b.blocks.length) (hne : i ≠ b.current) :
    (b.enterLoop l₁ l₂ l₃ e).blocks[i]? = b.blocks[i]? := by
  unfold Builder.enterLoop
  rw [List.getElem?_modify_ne _ _ (Nat.ne_of_gt hi), List.getElem?_append_left,
    List.getElem?_append_left, List.getElem?_modify_ne _ _ hne.symm, List.getElem?_append_left hi]
  all_goals
    simp only [List.length_append, List.length_modify, List.length_singleton]
    omega

theorem head_enterLoop (hcur : b.current < b.blocks.length) :
    (b.enterLoop l₁ l₂ l₃ e).blocks[b.blocks.length]? = some
      { line := some l₁, term := some (.branch e (b.blocks.length + 1 : Nat) (b.blocks.length + 1 + 1 : Nat)) } := by
  unfold Builder.enterLoop
  rw [List.getElem?_modify_eq, List.getElem?_append_left, List.getElem?_append_left,
    List.getElem?_modify_ne _ _ (Nat.ne_of_lt hcur), List.getElem?_concat_length]
  · rfl
  all_goals
    simp only [List.length_append, List.length_modify, List.length_singleton]
    omega

end

theorem ready_enterLoop {l₁ l₂ l₃ : Int} {e : Expr} (hr : b.Ready) : (b.enterLoop l₁ l₂ l₃ e).Ready := by
  refine ⟨?_, fun p hp => ?_⟩
  · rw [length_enterLoop]
    exact Nat.lt_succ_of_lt (Nat.lt_succ_self _)
  · rw [length_enterLoop]
    rcases List.mem_cons.1 hp with rfl | hp
    · simp only
      omega
    · have := hr.loops p hp
      omega

theorem frame_leaveLoop {head exit : Nat} {inv : Option Expr} (hcur : b.current ≠ i)
    (hhead : head ≠ i) :
    (b.leaveLoop head exit inv).blocks[i]? = b.blocks[i]? :=
  (List.getElem?_modify_ne _ _ hhead).trans (List.getElem?_modify_ne _ _ hcur)

theorem wired_loop {l₂ l₃ : Int} {a : Expr} {u : Ty} {sp : Span} {t : Exp} {body : List Stmt}
    {es : List Expr}
    {inv : Option Expr} (hr : b.Ready) (ht : Translates b.table t a u)
    (hes : Parses (leadingInvariants body) es)
    (h : Wired (some (b.blocks.length + 1)) (b.enterLoop sp.line l₂ l₃ (asGuard a u)) b' (Stmt.blockCountL body) o ls)
    (hinv : Conjoins b'.table es inv) :
    Wired (some b.current) b (b'.leaveLoop b.blocks.length (b.blocks.length + 1 + 1) inv) (3 + Stmt.blockCountL body)
      (b.blocks.length :: (b.blocks.length + 1) :: (o ++ [b.blocks.length + 2]))
      (⟨b.blocks.length, sp, t, body⟩ :: ls) := by
  have hcur := hr.current
  have hlen := h.length
  have hs := h.spans
  rw [hlen, length_enterLoop] at hs
  rw [length_enterLoop] at hlen
  have hlen' : (b'.leaveLoop b.blocks.length (b.blocks.length + 1 + 1) inv).blocks.length =
      b.blocks.length + (3 + Stmt.blockCountL body) := by
    simp only [Builder.leaveLoop, List.length_modify]
    omega
  have hend : b.blocks.length < b'.current := by
    rcases List.mem_cons.1 h.current with he | hm
    · omega
    · have := hs.blocks _ hm
      omega
  refine ⟨hlen', hlen' ▸ hs.loop, ?_, h.table, ?_, fun l hl => ?_, fun i hi hne => ?_, ?_, fun l hl => ?_⟩
  · rw [Builder.leaveLoop, h.context]
    rfl
  · simp [Builder.leaveLoop]
  · simp only [Builder.leaveLoop]
    rcases List.mem_cons.1 hl with rfl | hl
    · simp only
      omega
    · have := hs.heads l hl
      omega
  · rw [frame_leaveLoop (by omega) (by omega), h.frame i (by rw [length_enterLoop]; omega) ?_,
      frame_enterLoop hi fun he => hne (he ▸ rfl)]
    intro he
    cases he
    omega
  · exact (adds_enterLoop (jump_into hs.loop) (jump_start hs) (jump_exit hs)).trans <|
      (h.jumps.mono fun i j hj => hj.of_body hs).trans <|
      (adds_missingTerm (goes_goto (jump_back hs h.current))).trans (adds_modify fun _ _ hu => .inl hu)
  · rcases List.mem_cons.1 hl with rfl | hl
    · have hhead := h.frame b.blocks.length (by rw [length_enterLoop]; omega) (by simp)
      rw [head_enterLoop hcur] at hhead
      refine ⟨{ line := some sp.line, term := some (.branch _ _ _), invariant := inv }, ?_, rfl, rfl,
        ⟨a, u, ht.mono h.table, rfl⟩, es, hes, hinv⟩
      rw [Builder.leaveLoop, List.getElem?_modify_eq,
        List.getElem?_modify_ne _ _ (Nat.ne_of_gt hend), hhead]
      rfl
    · have := hs.heads l hl
      exact (h.headed l hl).mono (Table.Le.refl _) (frame_leaveLoop (h.notHead l hl) (by omega))

end

/-! ## one statement after the other -/

section

variable {sp : Span}

/-- Lowering lays out these blocks and loops, whatever was there before. -/
def Wires (m : Build Unit) (count : Nat) (order : Nat → List Nat) (loops : Nat → List Loop) :
    Prop :=
  ∀ b, b.Ready → Spec m b fun _ b' =>
    Wired (some b.current) b b' count (order b.blocks.length) (loops b.blocks.length)

theorem wires_store {x : String} {v : Exp} {line : Int} :
    Wires (store x v line) 0 (fun _ => []) fun _ => [] :=
  fun _ _ => spec_store fun _ op hle _ => wired_emit hle op

theorem wires_ret (v : Option Exp) : Wires (Stmt.ret sp v).lower 1 (fun n => [n]) fun _ => [] := by
  intro b hr
  unfold Stmt.lower
  cases v with
  | none =>
    rw [spec_terminate]
    exact wired_terminate hr (goes_ret none) _
  | some v =>
    simp only [spec_bind]
    refine spec_expression fun a u _ => ?_
    simp only [spec_get]
    split
    · simp
    · split
      · simp
      · rw [spec_terminate]
        exact wired_terminate hr (goes_ret (some a)) _

theorem ready_newArm {b : Builder} {line : Int} (hr : b.Ready) : (b.newArm line).Ready :=
  ((wired_newArm line).widen b.current).ready hr

theorem wires_cond {t : Exp} {body orElse : List Stmt}
    (hbody : Wires (Stmt.lowerL body) (Stmt.blockCountL body) (Stmt.orderL · body) (Stmt.loopsL · body))
    (hother : Wires (Stmt.lowerL orElse) (Stmt.blockCountL orElse) (Stmt.orderL · orElse) (Stmt.loopsL · orElse)) :
    Wires (Stmt.cond sp t body orElse).lower (Stmt.cond sp t body orElse).blockCount
      (Stmt.order · (.cond sp t body orElse)) (Stmt.loops · (.cond sp t body orElse)) := by
  intro b hr
  unfold Stmt.lower
  rw [spec_bind]
  refine spec_guard fun a u _ => ?_
  simp only [spec_bind, spec_current]
  refine spec_firstLine fun l => ?_
  simp only [spec_newBlock, spec_enter]
  refine (hbody (b.newArm l) (ready_newArm hr)).mono fun _ b₂ h => ?_
  rw [length_newArm] at h
  have harm := Wired.arm h hr
  have hlen : b₂.blocks.length = b.blocks.length + 1 + Stmt.blockCountL body :=
    harm.length.trans (Nat.add_assoc ..).symm
  unfold Stmt.blockCount Stmt.order Stmt.loops
  by_cases hempty : orElse.isEmpty = true
  · simp only [hempty, if_true, pure_bind, spec_bind, spec_newBlock, spec_setTerm,
      spec_setMissingTerm, spec_enter]
    rw [← hlen, List.isEmpty_iff.1 hempty, Stmt.loopsL, List.append_nil]
    exact wired_if hr h
  · simp only [hempty, Bool.false_eq_true, if_false, spec_bind]
    refine spec_firstLine fun l' => ?_
    simp only [spec_newBlock, spec_enter]
    refine (hother (b₂.newArm l') (ready_newArm ((harm.widen b.current).ready hr))).mono fun _ b₄ h' => ?_
    rw [length_newArm] at h'
    have hlen' : b₄.blocks.length = b₂.blocks.length + 1 + Stmt.blockCountL orElse := by
      have := h'.length
      rwa [length_newArm] at this
    simp only [spec_current, spec_setTerm, spec_setMissingTerm, spec_pure, spec_bind, spec_enter]
    rw [← hlen, ← hlen']
    exact wired_ifElse hr h h'

theorem wires_while {t : Exp} {body orElse : List Stmt}
    (hbody : Wires (Stmt.lowerLoopBody body) (Stmt.blockCountL body) (Stmt.orderL · body) (Stmt.loopsL · body)) :
    Wires (Stmt.loop sp t body orElse).lower (Stmt.loop sp t body orElse).blockCount
      (Stmt.order · (.loop sp t body orElse)) (Stmt.loops · (.loop sp t body orElse)) := by
  intro b hr
  unfold Stmt.lower
  rw [spec_bind]
  refine spec_parseAll fun invs hinvs => ?_
  simp only [spec_bind, spec_newBlock, spec_current, spec_setTerm, spec_enter]
  refine spec_guard fun a u ht => ?_
  simp only [spec_modify, List.length_append, List.length_modify, List.length_singleton]
  let l := ((body.dropWhile Stmt.isInvariant).head?.map Stmt.line).getD sp.line
  refine (hbody (b.enterLoop sp.line l sp.endLine (asGuard a u)) (ready_enterLoop hr)).mono fun _ b₂ h => ?_
  rw [length_enterLoop] at h
  rw [spec_setMissingTerm]
  refine spec_invariant fun inv hinv => ?_
  rw [spec_editBlock]
  exact wired_loop hr ht hinvs h hinv

theorem wires_nil : Wires (pure ()) 0 (fun _ => []) fun _ => [] :=
  fun b _ => spec_pure.2 (Wired.refl b)

theorem Wires.append {x y : Build Unit} {c c' : Nat} {o o' : Nat → List Nat}
    {ls ls' : Nat → List Loop} (h : Wires x c o ls) (h' : Wires y c' o' ls') :
    Wires (do x; y) (c + c') (fun n => o n ++ o' (n + c)) fun n => ls n ++ ls' (n + c) := by
  intro b hr
  rw [spec_bind]
  refine (h b hr).mono fun _ b₁ h => (h' b₁ (h.ready hr)).mono fun _ b₂ h' => ?_
  rw [h.length] at h'
  refine h.trans h' hr (fun i hi => ?_) fun l hl hm => h.notHead l hl (Option.mem_some_iff.1 hm)
  cases hi
  exact h.current

/-- A note has no blocks. -/
theorem Wires.note {x : Build Unit} {s : Stmt} {ss : List Stmt} (hs : s.isNote)
    (h : Wires x (Stmt.blockCountL ss) (Stmt.orderL · ss) (Stmt.loopsL · ss)) :
    Wires x (Stmt.blockCountL (s :: ss)) (Stmt.orderL · (s :: ss)) (Stmt.loopsL · (s :: ss)) := by
  obtain ⟨sp, v, rfl⟩ := Stmt.eq_exp_of_isNote hs
  simpa only [Stmt.blockCountL, Stmt.blockCount, Stmt.orderL, Stmt.order, Stmt.loopsL, Stmt.loops,
    Nat.zero_add, Nat.add_zero, List.nil_append] using h

mutual

theorem wires_lower (s : Stmt) : Wires s.lower s.blockCount (Stmt.order · s) (Stmt.loops · s) := by
  cases s with
  | assign sp ts v =>
    intro b hr
    unfold Stmt.lower
    split
    · exact wires_store b hr
    · exact spec_fault
    · exact spec_fault
  | declare sp t u v =>
    intro b hr
    unfold Stmt.lower
    split
    · simp only [spec_bind]
      refine spec_checkDeclared (spec_declareVar fun w t' _ _ hle _ _ => ?_)
      cases v with
      | none => exact spec_pure.2 ((Wired.refl { b with table := t' }).of_table hle)
      | some v => exact (wires_store { b with table := t' } ⟨hr.current, hr.loops⟩).mono fun _ b' h => h.of_table hle
    · exact spec_fault
  | exp sp v =>
    intro b _
    unfold Stmt.lower
    split
    · exact spec_invoke fun t op hle _ => wired_emit hle op
    · exact spec_fault
  | pass sp => exact wires_nil
  | ret sp v => exact wires_ret v
  | cond sp t body orElse => exact wires_cond (wires_lowerL body) (wires_lowerL orElse)
  | loop sp t body orElse => exact wires_while (wires_lowerLoopBody body)
  | brk sp | cont sp =>
    intro b hr
    unfold Stmt.lower
    simp only [spec_bind, spec_get]
    split
    · rename_i head exit rest hloops
      rw [spec_terminate]
      refine wired_terminate hr (goes_goto ⟨List.mem_singleton_self _, .inr (.inr ⟨(head, exit), ?_, ?_⟩), by simp⟩) _
      · rw [hloops]
        rfl
      · simp
    · exact spec_fault
  | augment sp t op v => exact fun _ _ => spec_raise
  | function sp x ps more body ds r => exact fun _ _ => spec_raise
  | other sp k ps => exact fun _ _ => spec_raise

theorem wires_lowerL (ss : List Stmt) :
    Wires (Stmt.lowerL ss) (Stmt.blockCountL ss) (Stmt.orderL · ss) (Stmt.loopsL · ss) := by
  cases ss with
  | nil => exact wires_nil
  | cons s ss => exact (wires_lower s).append (wires_lowerL ss)

theorem wires_lowerLoopBody (ss : List Stmt) :
    Wires (Stmt.lowerLoopBody ss) (Stmt.blockCountL ss) (Stmt.orderL · ss) (Stmt.loopsL · ss) := by
  cases ss with
  | nil => exact wires_nil
  | cons s ss =>
    unfold Stmt.lowerLoopBody
    split
    · exact (wires_lowerLoopBody ss).note (Stmt.isNote_of_isInvariant ‹_›)
    · exact (wires_lower s).append (wires_lowerL ss)

end

end

/-! ## bodies -/

theorem wires_body (body : List Stmt) :
    Wires (lowerBody body) (Stmt.blockCountL body) (Stmt.orderL · body) (Stmt.loopsL · body) := by
  have hend : ∀ {x : Build Unit}, Wires x (Stmt.blockCountL body) (Stmt.orderL · body) (Stmt.loopsL · body) →
      Wires (do x; setMissingTerm (← current) (.ret none)) (Stmt.blockCountL body) (Stmt.orderL · body)
        (Stmt.loopsL · body) := by
    intro x hx b hr
    simp only [spec_bind, spec_current, spec_setMissingTerm]
    refine (hx b hr).mono fun _ b₁ h => h.missingTerm ?_ h.notHead (goes_ret none)
    exact (List.mem_append.1 h.current).imp_left Option.mem_toList.1
  unfold lowerBody
  cases body with
  | nil => exact hend wires_nil
  | cons s ss =>
    simp only
    split
    · exact hend ((wires_lowerL ss).note (Stmt.isNote_of_isDocstring ‹_›))
    · exact hend (wires_lowerL (s :: ss))

/-- The graph of a body: its blocks and loops are those of the statements, and all edges are
jumps. -/
structure Laid (body : List Stmt) (t : Table) (g : Graph) : Prop where
  entry : g.entry = 0
  spans : Spans 1 g.blocks.length (Stmt.orderL 1 body) (Stmt.loopsL 1 body)
  jumps : ∀ (i : Nat) (u : Node), g.Edge i u →
    ∃ j : Nat, u = j ∧ Jump (0 :: Stmt.orderL 1 body) (Stmt.loopsL 1 body) [] i j
  headed : ∀ l ∈ Stmt.loopsL 1 body, l.Headed t g.blocks

theorem laid_buildGraph {t : Table} {sigs : Signatures} {line : Int} {body : List Stmt} {t' : Table}
    {g : Graph} (h : buildGraph t sigs line body = .ok (t', g)) : Laid body t' g := by
  let start : Builder := { table := t, signatures := sigs, blocks := [{ line := some line }] }
  obtain ⟨⟨⟨⟩, b'⟩, hrun, h⟩ := exists_of_bind_ok h
  cases h
  have hwired : Wired (some 0) start b' _ _ _ :=
    wires_body body start ⟨Nat.zero_lt_one, fun p hp => by cases hp⟩ () b' hrun
  refine ⟨rfl, hwired.spans, fun i u he => ?_, hwired.headed⟩
  unfold Graph.Edge Graph.successors at he
  rw [Graph.block?_natCast] at he
  split at he
  · rename_i k hk
    unfold Block.successors at he
    split at he
    · rename_i t ht
      rcases hwired.jumps i k t hk ht with ⟨k₀, hk₀, ht₀⟩ | hgoes
      · rw [List.mem_singleton.1 (List.mem_of_getElem? hk₀)] at ht₀
        cases ht₀
      · exact hgoes u he
    · cases he
  · cases he

end ContractVerifier.Source
