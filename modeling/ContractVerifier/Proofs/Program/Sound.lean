import ContractVerifier.Proofs.Program.Entry

/-!
# Modular soundness

If the verification conditions of all functions of a program are valid, then every run of a function
whose precondition holds makes only calls whose preconditions hold, and returns a value that
satisfies the postcondition.

A run is followed by walks of the graph.  The walks start in a store with the entry values under
`p#0`; where a function may return without a value, they also know the value that the run is going
to return, which is why the function may not read it.

* `ghost` : the store of a walk, from that of the run and the values that the run does not see;
* `foresee` : the store in which a walk starts;
* `Tracks` : what holds along the run;
* `Exec.tracked` : from any point of a run, by induction on the run.
-/

namespace ContractVerifier

open ContractVerifier.Flow ContractVerifier.Flow.Graph Wp

/-- A function has a contract and a valid verification condition for it. -/
structure Proved (z : Int → Int) (cs : Contracts) (d : Decl) (c : Contract) : Prop where
  params : c.params = d.params
  result : c.result = d.result
  scope : c.Scoped
  pre : c.pre.Source d.types
  post : c.post.Source d.types
  typed : d.WellTyped cs
  /-- Where the value returned is arbitrary it is not looked at before. -/
  quiet : d.graph.BareReturn → ¬ d.graph.Reads resultName
  valid : ∃ vc, functionVc c.pre c.post d.graph cs = .ok vc ∧ vc.Valid z

/-! ## stores of walks -/

/-- A name that the run sees; `r` says that it does not see the result. -/
def Visible (r : Bool) (x : String) : Prop := '#' ∉ x.toList ∧ (r = true → x ≠ resultName)

instance (r : Bool) (x : String) : Decidable (Visible r x) := inferInstanceAs (Decidable (_ ∧ _))

/-- What the run does not see is as in `g`. -/
def ghost (r : Bool) (g s : Store) : Store := fun x => if Visible r x then s x else g x

section

variable {z : Int → Int} {r : Bool} {g s : Store}

theorem ghost_set {x : String} (hx : Visible r x) (v : Value) : (ghost r g s).set x v = ghost r g (s.set x v) := by
  funext y
  unfold ghost Store.set
  by_cases h : x = y
  · simp [← h, hx]
  · simp [h]

theorem ghost_bind {t : Option Var} (ht : ∀ w, t = some w → Visible r w.name) (v : Value) :
    (ghost r g s).bind t v = ghost r g (s.bind t v) := by
  cases t with
  | none => rfl
  | some w => exact ghost_set (ht w rfl) v

theorem value_ghost {e : Expr} (he : ∀ v ∈ e.vars, Visible r v.name) :
    e.value z (ghost r g s) = e.value z s :=
  Expr.value_congr fun v hv => if_pos (he v hv)

theorem holds_ghost {e : Expr} (he : ∀ v ∈ e.vars, Visible r v.name) :
    e.Holds z (ghost r g s).read ↔ e.Holds z s.read :=
  Expr.holds_congr fun v hv => if_pos (he v hv)

theorem typed_ghost {Γ : String → Ty} (hs : s.Typed Γ) (hg : g.Typed (atEntry Γ)) :
    (ghost r g s).Typed (atEntry Γ) := by
  intro x
  unfold ghost
  split
  · rename_i hx
    rw [atEntry_of_notMem Γ hx.1]
    exact hs x
  · exact hg x

end

/-! ## where a walk starts -/

/-- The entry values are known, and if `r` also a value that is going to be returned. -/
noncomputable def foresee (r : Bool) (t : Ty) (s : Store) (v : Value) : Store :=
  if r = true ∧ v.Fits t then Store.set (atEntry s) resultName v else atEntry s

section

variable {r : Bool} {t : Ty} {s : Store} {v : Value}

theorem hash_notMem_result : '#' ∉ resultName.toList := by decide

theorem foresee_result (hr : r = true) (hv : v.Fits t) : foresee r t s v resultName = v := by
  unfold foresee
  rw [if_pos ⟨hr, hv⟩]
  exact Store.set_same ..

theorem foresee_eq {x : String} (hx : x ≠ resultName) : foresee r t s v x = atEntry s x := by
  unfold foresee
  split
  · exact Store.set_of_ne _ _ (Ne.symm hx)
  · rfl

theorem foresee_of_ne {x : String} (hx : x ≠ resultName) (hh : '#' ∉ x.toList) : foresee r t s v x = s x := by
  rw [foresee_eq hx, atEntry_of_notMem s hh]

theorem foresee_entryName (x : String) : foresee r t s v (entryName x) = s x := by
  rw [foresee_eq fun h => hash_notMem_result (h ▸ hash_mem_entryName x), atEntry_entryName]

theorem ghost_foresee : ghost r (foresee r t s v) s = foresee r t s v := by
  funext x
  unfold ghost
  split
  · rename_i hx
    by_cases hxr : x = resultName
    · have hfalse : ¬ r = true := fun hr => hx.2 hr hxr
      unfold foresee
      rw [if_neg fun h => hfalse h.1, atEntry_of_notMem s hx.1]
    · rw [foresee_of_ne hxr hx.1]
  · rfl

theorem typed_foresee {Γ : String → Ty} (hs : s.Typed Γ) (v : Value) :
    (foresee r (Γ resultName) s v).Typed (atEntry Γ) := by
  unfold foresee
  split
  · rename_i h
    refine (typed_atEntry hs).set ?_
    rw [atEntry_of_notMem _ hash_notMem_result]
    exact h.2
  · exact typed_atEntry hs

end

/-! ## points of a graph -/

/-- The operations and the terminator end a reachable block. -/
def Within (d : Decl) (ops : List Op) (t : Option Terminator) : Prop :=
  ∃ i b before, d.graph.Reaches i ∧ d.graph.block? i = some b ∧ b.ops = before ++ ops ∧ b.term = t

section

variable {cs : Contracts} {d : Decl} {op : Op} {ops : List Op} {t : Option Terminator} {r : Bool}

theorem Within.tail (h : Within d (op :: ops) t) : Within d ops t := by
  obtain ⟨i, b, before, hi, hb, ho, ht⟩ := h
  exact ⟨i, b, before ++ [op], hi, hb, by rw [ho]; simp, ht⟩

theorem Within.wellTyped_op (h : Within d (op :: ops) t) (hd : d.WellTyped cs) : op.WellTyped d.types cs := by
  obtain ⟨i, b, before, hi, hb, ho, -⟩ := h
  exact (hd.block i b hi hb).ops op (by rw [ho]; simp)

theorem Within.wellTyped_term {u : Terminator} (h : Within d ops (some u)) (hd : d.WellTyped cs) : u.WellTyped d.types := by
  obtain ⟨i, b, before, hi, hb, -, ht⟩ := h
  exact (hd.block i b hi hb).term u ht

theorem Within.writes (h : Within d (op :: ops) t) {w : Var} (hw : op.target = some w) : d.graph.Writes w.name := by
  obtain ⟨i, b, before, hi, hb, ho, -⟩ := h
  exact ⟨i, b, op, w, hi, hb, by rw [ho]; simp, hw, rfl⟩

theorem Within.next {z : Int → Int} {s : Store} {u : Terminator} {j : Node} {b : Block}
    (h : Within d ops (some u)) (hn : u.next? z s = some j) (hb : d.graph.block? j = some b) :
    Within d b.ops b.term := by
  obtain ⟨i, b', before, hi, hb', -, ht⟩ := h
  have hj : d.graph.Edge i j := (edge_iff hb').2 (mem_successors ht (Terminator.next?_mem hn))
  exact ⟨j, b, [], hi.step hj, hb, rfl, rfl⟩

/-- The run sees what an operation evaluates. -/
theorem Within.visible_op (h : Within d (op :: ops) t) (hr : r = true → ¬ d.graph.Reads resultName)
    {e : Expr} (he : e ∈ op.exprs) (hs : e.Source d.types) : ∀ v ∈ e.vars, Visible r v.name := by
  obtain ⟨i, b, before, hi, hb, ho, -⟩ := h
  refine fun v hv => ⟨(hs v hv).1, fun htrue hname => hr htrue ⟨i, b, e, v, hi, hb, ?_, hv, hname⟩⟩
  refine List.mem_append_left _ (List.mem_flatMap.2 ⟨op, ?_, he⟩)
  rw [ho]
  simp

theorem Within.visible_term {u : Terminator} (h : Within d ops (some u))
    (hr : r = true → ¬ d.graph.Reads resultName) {e : Expr} (he : e ∈ u.exprs)
    (hs : e.Source d.types) : ∀ v ∈ e.vars, Visible r v.name := by
  obtain ⟨i, b, before, hi, hb, -, ht⟩ := h
  refine fun v hv => ⟨(hs v hv).1, fun htrue hname => hr htrue ⟨i, b, e, v, hi, hb, ?_, hv, hname⟩⟩
  refine List.mem_append_right _ (List.mem_flatMap.2 ⟨u, ?_, he⟩)
  rw [ht]
  simp

/-- Only source names other than the result are written. -/
theorem Writes.visible (hd : d.WellTyped cs) {x : String} (h : d.graph.Writes x) : Visible r x := by
  obtain ⟨i, b, op, w, hi, hb, hop, ht, rfl⟩ := h
  have hw := (hd.block i b hi hb).ops op hop
  cases op with
  | assign y e =>
    cases ht
    exact ⟨hw.1.1, fun _ => hw.2.1⟩
  | call y f args =>
    obtain ⟨hs, hne, -⟩ := hw.1 w ht
    exact ⟨hs.1, fun _ => hne⟩

end

/-! ## along a run -/

/-- What holds of a run that is in `s` and is going to return `v`, beside a walk that started in
`g`. -/
structure Tracks (z : Int → Int) (cs : Contracts) (d : Decl) (c : Contract) (r : Bool) (g s : Store)
    (v : Value) :
    Prop where
  hidden : r = true → ¬ d.graph.Reads resultName
  bare : d.graph.BareReturn → v.Fits d.result → g resultName = v
  typed : s.Typed d.types
  start : g.Typed (atEntry d.types)
  frame : ∀ x, ¬ d.graph.Writes x → ghost r g s x = g x
  headers : ∀ h, d.graph.IsHeader h → Preserved z (atEntry d.types) (functionSetting d cs c.post) h g

/-- All calls were made with arguments that satisfy the precondition. -/
def Admitted (z : Int → Int) (cs : Contracts) (calls : List (String × List Value)) : Prop :=
  ∀ q ∈ calls, ∃ c, cs.get? q.1 = some c ∧ c.Pre z q.2

section

variable {z : Int → Int} {P : Program} {cs : Contracts} {d : Decl} {c : Contract} {r : Bool} {g s : Store} {v : Value}

theorem Tracks.set (h : Tracks z cs d c r g s v) {x : Var} {u : Value} (hw : d.graph.Writes x.name)
    (hu : u.Fits (d.types x.name)) : Tracks z cs d c r g (s.set x.name u) v := by
  refine ⟨h.hidden, h.bare, h.typed.set hu, h.start, fun y hy => ?_, h.headers⟩
  have hne : x.name ≠ y := fun heq => hy (heq ▸ hw)
  rw [← h.frame y hy]
  unfold ghost
  rw [Store.set_of_ne s u hne]

/-- At a header the invariant is enough to go on. -/
theorem Tracks.arrive (h : Tracks z cs d c r g s v) {j : Node} {b : Block}
    (hb : d.graph.block? j = some b) (hs : SafeAt z (functionSetting d cs c.post) j (ghost r g s)) :
    Safe z (functionSetting d cs c.post) b.ops b.term (ghost r g s) := by
  by_cases hj : d.graph.IsHeader j
  · exact h.headers j hj _ (typed_ghost h.typed h.start) h.frame (hs.1 hj) b hb
  · exact hs.2 hj b hb

theorem name_of_mem_toEntry {Γ : String → Ty} {post : Expr} (hpost : post.Source Γ) {w : Var}
    (hw : w ∈ (post.substitute (toEntry post)).vars) : w.name = resultName ∨ ∃ x, w.name = entryName x := by
  rcases Expr.mem_vars_substitute hw with ⟨hv, hn⟩ | ⟨v, hv, t, ht, hw⟩
  · by_cases hr : w.name = resultName
    · exact .inl hr
    · rw [get?_toEntry hpost hv hr] at hn
      cases hn
  · by_cases hr : v.name = resultName
    · rw [hr, get?_toEntry_result] at ht
      cases ht
    · rw [get?_toEntry hpost hv hr] at ht
      cases ht
      cases List.mem_singleton.1 hw
      exact .inr ⟨v.name, rfl⟩

/-- The postcondition sees the result and the entry values, which are not written. -/
theorem Tracks.post (h : Tracks z cs d c r g s v) (hp : Proved z cs d c) {u : Value} :
    (functionSetting d cs c.post).post.Holds z ((ghost r g s).set resultName u).read ↔
      (functionSetting d cs c.post).post.Holds z (g.set resultName u).read := by
  refine Expr.holds_congr fun w hw => ?_
  unfold Store.read
  rcases name_of_mem_toEntry hp.post hw with hn | ⟨x, hn⟩
  · simp [hn]
  · have hne : resultName ≠ w.name := fun hx => absurd (hx ▸ hn ▸ hash_mem_entryName x) (by decide)
    rw [Store.set_of_ne _ _ hne, Store.set_of_ne _ _ hne]
    refine h.frame _ fun hwr => ?_
    exact (Writes.visible (r := r) hp.typed hwr).1 (hn ▸ hash_mem_entryName x)

/-- Where a run starts, a walk starts that is safe. -/
theorem exists_tracks (hcs : ∀ f c, cs.get? f = some c → c.Scoped) (hp : Proved z cs d c)
    {vals : List Value} (hs : d.Starts vals s) (hpre : c.Pre z vals) (v : Value) :
    ∃ r g, Tracks z cs d c r g s v ∧ SafeAt z (functionSetting d cs c.post) d.graph.entry (ghost r g s) ∧
      ∀ p ∈ c.params, g (entryName p.name) = Store.ofArgs c.params vals p.name := by
  classical
  let r : Bool := decide d.graph.BareReturn
  have hparam : ∀ p ∈ c.params, s p.name = Store.ofArgs c.params vals p.name := by
    rw [hp.params]
    exact hs.params
  have htyped := typed_foresee (r := r) hs.typed v
  obtain ⟨vc, hvc, hvalid⟩ := hp.valid
  have hver := functionVc_verified hp.typed hcs hp.pre hp.post hvc hvalid htyped fun w hw hne => by
    rw [foresee_entryName, foresee_of_ne hne (hp.post w hw).1]
  have hholds : c.pre.Holds z (foresee r d.result s v).read := by
    refine (Expr.holds_congr fun w hw => ?_).1 hpre
    obtain ⟨p, hmem, hn⟩ := List.mem_map.1 (hp.scope.pre w hw)
    have hne : w.name ≠ resultName := hn ▸ hp.typed.params p (hp.params ▸ hmem)
    unfold Store.read
    rw [foresee_of_ne hne (hp.pre w hw).1, ← hn, hparam p hmem]
  obtain ⟨hsafe, hheaders⟩ := hver hholds
  refine ⟨r, foresee r d.result s v, ⟨fun hr => hp.quiet (of_decide_eq_true hr), fun hb hv => ?_, hs.typed, htyped,
    fun x _ => by rw [ghost_foresee], hheaders⟩, by rw [ghost_foresee]; exact hsafe,
    fun p hmem => by rw [foresee_entryName, hparam p hmem]⟩
  exact foresee_result (decide_eq_true hb) hv

/-- An expression that is typed at its place has a value of its type. -/
theorem Tracks.value_fits (h : Tracks z cs d c r g s v) {e : Expr} {u : Ty} (he : e.Source d.types)
    (hty : e.typeOf = .ok u) : (e.value z s).Fits u := by
  refine .inr (Expr.type_eval hty fun w hw => ?_)
  rw [(he w hw).2]
  exact h.typed w.name

/-- A bare return yields what the walk foresees. -/
theorem Tracks.ghost_result (h : Tracks z cs d c r g s v) (hp : Proved z cs d c)
    (hb : d.graph.BareReturn) (hv : v.Fits d.result) : ghost r g s resultName = v := by
  rw [h.frame, h.bare hb hv]
  intro hwr
  exact (Writes.visible (r := true) hp.typed hwr).2 rfl rfl

theorem Tracks.next?_ghost (h : Tracks z cs d c r g s v) (hp : Proved z cs d c) {t : Terminator}
    {j : Node} (hw : Within d [] (some t)) (hn : t.next? z s = some j) :
    t.next? z (ghost r g s) = some j := by
  cases t with
  | goto k => exact hn
  | branch e k l =>
    have he := holds_ghost (z := z) (g := g) (s := s)
      (hw.visible_term h.hidden (e := e) (by simp [Terminator.exprs]) (hw.wellTyped_term hp.typed))
    simp only [Terminator.next?] at hn ⊢
    rw [if_congr he rfl rfl]
    exact hn
  | ret e => cases hn

/-- From any point of a run: its calls are admitted, and what it returns has the result type and
satisfies the postcondition. -/
theorem Exec.tracked (hcs : ∀ f c, cs.get? f = some c → c.Scoped)
    (hP : ∀ f d, P f = some d → ∃ c, cs.get? f = some c ∧ Proved z cs d c) {ops : List Op}
    {t : Option Terminator} {calls : List (String × List Value)} (h : Exec z P d ops t s calls v)
    (hp : Proved z cs d c) (ht : Tracks z cs d c r g s v) (hw : Within d ops t)
    (hs : Safe z (functionSetting d cs c.post) ops t (ghost r g s)) :
    Admitted z cs calls ∧ v.Fits d.result ∧
      (functionSetting d cs c.post).post.Holds z (g.set resultName v).read := by
  induction h generalizing c r g with
  | @assign d x e ops t s calls v h ih =>
    obtain ⟨hx, hne, he, hty⟩ := hw.wellTyped_op hp.typed
    have hwr : d.graph.Writes x.name := hw.writes rfl
    have hval : (e.value z s).Fits (d.types x.name) := hx.2 ▸ ht.value_fits he hty
    refine ih hp (ht.set hwr hval) hw.tail ?_
    rw [safe_assign, value_ghost (hw.visible_op ht.hidden (List.mem_singleton.2 rfl) he),
      ghost_set (Writes.visible hp.typed hwr)] at hs
    exact hs
  | @call d e x f args ops t s s₁ b calls₁ calls₂ u v hf hstart hb h₁ h₂ ih₁ ih₂ =>
    obtain ⟨k, hk, hpk⟩ := hP f e hf
    obtain ⟨hx, hargs⟩ := hw.wellTyped_op hp.typed
    have hvals : args.map (·.value z (ghost r g s)) = args.map (·.value z s) :=
      List.map_congr_left fun a ha => value_ghost (hw.visible_op ht.hidden ha (hargs a ha))
    have hsafe := (safe_call (S := functionSetting d cs c.post) hk).1 hs
    rw [hvals] at hsafe
    -- the callee keeps its contract
    obtain ⟨r₁, g₁, ht₁, hs₁, hentry₁⟩ := exists_tracks hcs hpk hstart hsafe.1 u
    obtain ⟨hcalls₁, hfit, hpost⟩ :=
      ih₁ hpk ht₁ ⟨e.graph.entry, b, [], .refl, hb, rfl, rfl⟩ (ht₁.arrive hb hs₁)
    have hpost := (holds_toEntry hpk.scope hpk.post hentry₁).1 hpost
    -- and the caller goes on
    have hrest := hsafe.2 u (hpk.result ▸ hfit) hpost
    have hvis : ∀ w, x = some w → Visible r w.name :=
      fun w hxw => Writes.visible hp.typed (hw.writes hxw)
    rw [ghost_bind hvis] at hrest
    have ht₂ : Tracks z cs d c r g (s.bind x u) v := by
      cases x with
      | none => exact ht
      | some w =>
        obtain ⟨hsrc, -, hres⟩ := hx w rfl
        refine ht.set (hw.writes rfl) ?_
        rw [← hsrc.2, hres k hk, hpk.result]
        exact hfit
    obtain ⟨hcalls₂, hfin⟩ := ih₂ hp ht₂ hw.tail hrest
    refine ⟨fun q hq => ?_, hfin⟩
    rcases List.mem_cons.1 hq with rfl | hq
    · exact ⟨k, hk, hsafe.1⟩
    · rcases List.mem_append.1 hq with hq | hq
      · exact hcalls₁ q hq
      · exact hcalls₂ q hq
  | @ret d e s =>
    obtain ⟨he, hty⟩ := hw.wellTyped_term hp.typed e rfl
    refine ⟨by simp [Admitted], ht.value_fits he hty, ?_⟩
    rw [safe_ret] at hs
    have hs : (functionSetting d cs c.post).post.Holds z
      ((ghost r g s).set resultName (e.value z (ghost r g s))).read := hs
    rw [value_ghost (hw.visible_term ht.hidden (by simp [Terminator.exprs]) he)] at hs
    exact (ht.post hp).1 hs
  | @bare d s v hv =>
    refine ⟨by simp [Admitted], hv, ?_⟩
    obtain ⟨i, b, before, hi, hb, -, hterm⟩ := hw
    have hgs : ghost r g s resultName = v := ht.ghost_result hp ⟨i, b, hi, hb, hterm⟩ hv
    rw [safe_ret] at hs
    refine (ht.post hp).1 ?_
    rw [← hgs, Store.set_self]
    exact hs
  | @jump d t s j b calls v hn hb h ih =>
    have hn' : t.next? z (ghost r g s) = some j := ht.next?_ghost hp hw hn
    rw [safe_jump hn'] at hs
    exact ih hp ht (hw.next hn hb) (ht.arrive hb hs)

/-- A program whose functions are all proved keeps its contracts. -/
theorem Returns.sound (hcs : ∀ f c, cs.get? f = some c → c.Scoped)
    (hP : ∀ f d, P f = some d → ∃ c, cs.get? f = some c ∧ Proved z cs d c) {f : String}
    {vals : List Value} {calls : List (String × List Value)} (h : Returns z P f vals calls v)
    (hc : cs.get? f = some c) (hpre : c.Pre z vals) : Admitted z cs calls ∧ c.Post z vals v := by
  obtain ⟨d, s, b, hf, hs, hb, h⟩ := h
  obtain ⟨c', hc', hp⟩ := hP f d hf
  cases hc.symm.trans hc'
  obtain ⟨r, g, ht, hsafe, hentry⟩ := exists_tracks hcs hp hs hpre v
  obtain ⟨hcalls, -, hpost⟩ :=
    h.tracked hcs hP hp ht ⟨d.graph.entry, b, [], .refl, hb, rfl, rfl⟩ (ht.arrive hb hsafe)
  exact ⟨hcalls, (holds_toEntry hp.scope hp.post hentry).1 hpost⟩

end

end ContractVerifier
