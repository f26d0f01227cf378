import ContractVerifier.Proofs.Program.Run
import ContractVerifier.Proofs.Wp.Exact
import ContractVerifier.Verifier

/-!
# Entry values

In the postcondition of a function a parameter stands for its value on entry, under the name `p#0`.

* `entryTypes`, `entryStore` : types and values of the names `p#0`, those of `p`;
* `functionVc_verified` : a valid condition of a function says what a verification condition says,
  of every store in which the names `p#0` have the values of `p`;
* `holds_toEntry` : the postcondition that it speaks of is that of the contract.
-/

namespace ContractVerifier

open ContractVerifier.Flow Wp

/-! ## variables of a postcondition -/

theorem mem_entryVars {post : Expr} {v : Var} (h : v ∈ entryVars post) : v ∈ post.vars ∧ v.name ≠ resultName := by
  unfold entryVars at h
  rw [List.mem_filter] at h
  obtain ⟨e, he, rfl⟩ := List.mem_map.1 h.1
  exact ⟨((lists_freeVars post).entry e he).2, by simpa using h.2⟩

theorem exists_entryVar {post : Expr} {v : Var} (hv : v ∈ post.vars) (hr : v.name ≠ resultName) :
    ∃ u ∈ entryVars post, u.name = v.name := by
  obtain ⟨e, he, hn⟩ := List.mem_map.1 ((lists_freeVars post).complete v hv)
  have hname : e.2.name = v.name := ((lists_freeVars post).entry e he).1.trans hn
  refine ⟨e.2, ?_, hname⟩
  unfold entryVars
  rw [List.mem_filter]
  exact ⟨List.mem_map.2 ⟨e, he, rfl⟩, by simpa [hname] using hr⟩

theorem get?_toEntry {Γ : String → Ty} {post : Expr} (hpost : post.Source Γ) {v : Var}
    (hv : v ∈ post.vars) (hr : v.name ≠ resultName) :
    (toEntry post).get? v.name = some (.var ⟨entryName v.name, v.type⟩) := by
  obtain ⟨u, hu, hn⟩ := exists_entryVar hv hr
  have hmem : v.name ∈ (toEntry post).keys := by
    unfold toEntry Keyed.keys
    rw [List.map_map]
    exact List.mem_map.2 ⟨u, hu, hn⟩
  obtain ⟨t, ht⟩ := (Keyed.mem_keys_iff ..).1 hmem
  obtain ⟨w, hw, he⟩ := List.mem_map.1 (Keyed.mem_of_get? ht)
  obtain ⟨hname, rfl⟩ := Prod.mk.inj he
  have hty : w.type = v.type := by rw [(hpost w (mem_entryVars hw).1).2, (hpost v hv).2, hname]
  rw [ht, hname, hty]

theorem get?_toEntry_result (post : Expr) : (toEntry post).get? resultName = none := by
  rw [Keyed.get?_eq_none_iff]
  intro hm
  unfold toEntry Keyed.keys at hm
  rw [List.map_map] at hm
  obtain ⟨v, hv, hn⟩ := List.mem_map.1 hm
  exact (mem_entryVars hv).2 hn

theorem get?_fromEntry {post : Expr} {y : String} {t : Expr}
    (h : (fromEntry post).get? y = some t) :
    ∃ v ∈ post.vars, v.name ≠ resultName ∧ y = entryName v.name ∧ t = .var v := by
  obtain ⟨v, hv, he⟩ := List.mem_map.1 (Keyed.mem_of_get? h)
  obtain ⟨rfl, rfl⟩ := Prod.mk.inj he
  exact ⟨v, (mem_entryVars hv).1, (mem_entryVars hv).2, rfl, rfl⟩

/-! ## types and values on entry -/

theorem entryName_inj {x y : String} (h : entryName x = entryName y) : x = y :=
  (Fresh.nameOf_inj h).1

theorem hash_mem_entryName (x : String) : '#' ∈ (entryName x).toList := by
  unfold entryName
  rw [Fresh.toList_nameOf]
  simp

open Classical in
/-- `x#0` has what `x` has. -/
noncomputable def atEntry {α : Type} (f : String → α) (y : String) : α :=
  if h : ∃ x, y = entryName x then f h.choose else f y

theorem atEntry_entryName {α : Type} (f : String → α) (x : String) : atEntry f (entryName x) = f x := by
  have h : ∃ y, entryName x = entryName y := ⟨x, rfl⟩
  unfold atEntry
  rw [dif_pos h, ← entryName_inj h.choose_spec]

theorem atEntry_of_notMem {α : Type} (f : String → α) {x : String} (hx : '#' ∉ x.toList) : atEntry f x = f x := by
  unfold atEntry
  rw [dif_neg]
  rintro ⟨y, rfl⟩
  exact hx (hash_mem_entryName y)

theorem typed_atEntry {Γ : String → Ty} {s : Store} (h : s.Typed Γ) : Store.Typed (atEntry Γ) (atEntry s) := by
  intro y
  unfold atEntry
  split
  · exact h _
  · exact h y

theorem Var.Source.declared {Γ : String → Ty} {v : Var} (h : v.Source Γ) : v.Declared (atEntry Γ) :=
  ⟨Fresh.plain_of_notMem h.1, h.2.trans (atEntry_of_notMem Γ h.1).symm⟩

theorem Expr.Source.declared {Γ : String → Ty} {e : Expr} (h : e.Source Γ) :
    e.Declared (atEntry Γ) :=
  fun v hv => (h v hv).declared

/-! ## the condition of a function -/

/-- What the graph of a function is checked against. -/
def functionSetting (d : Decl) (cs : Contracts) (post : Expr) : Setting :=
  ⟨d.graph, cs, post.substitute (toEntry post)⟩

section

variable {z : Int → Int} {cs : Contracts} {d : Decl} {pre post : Expr}

theorem declared_toEntry {Γ : String → Ty} (hpost : post.Source Γ) : (post.substitute (toEntry post)).Declared (atEntry Γ) := by
  intro w hw
  rcases Expr.mem_vars_substitute hw with ⟨hv, -⟩ | ⟨v, hv, t, ht, hw⟩
  · exact (hpost w hv).declared
  · by_cases hr : v.name = resultName
    · rw [hr, get?_toEntry_result] at ht
      cases ht
    · rw [get?_toEntry hpost hv hr] at ht
      cases ht
      cases List.mem_singleton.1 hw
      exact ⟨Fresh.plain_nameOf_zero _, (hpost v hv).2.trans (atEntry_entryName Γ v.name).symm⟩

theorem functionSetting_scoped (hd : d.WellTyped cs) (hcs : ∀ f c, cs.get? f = some c → c.Scoped)
    (hpost : post.Source d.types) : (functionSetting d cs post).Scoped (atEntry d.types) := by
  refine ⟨declared_toEntry hpost, fun i b hi hb => ?_⟩
  have hb' := hd.block i b hi hb
  refine ⟨fun op hop => ?_, fun t ht => ?_, fun e he => (hb'.invariant e he).declared⟩
  · have h := hb'.ops op hop
    cases op with
    | assign x e => exact ⟨h.1.declared, h.2.2.1.declared⟩
    | call t f args =>
      exact ⟨fun w hw => (h.1 w hw).1.declared, fun e he => (h.2 e he).declared,
        fun c hc => ⟨hcs f c hc, fun w hw => (h.1 w hw).2.2 c hc⟩⟩
  · have h := hb'.term t ht
    cases t with
    | goto j => trivial
    | branch e j k => exact h.declared
    | ret e => exact fun v hv => (h v hv).1.declared

theorem functionVc_ok {vc : Expr} {g : Graph} (h : functionVc pre post g cs = .ok vc) :
    ∃ vc₀, buildVc pre (post.substitute (toEntry post)) g cs = .ok vc₀ ∧ vc = vc₀.substitute (fromEntry post) := by
  unfold functionVc traceFunctionVc at h
  unfold buildVc
  cases hr : (traceVc pre (post.substitute (toEntry post)) g cs).1 with
  | error f =>
    simp only [hr, Except.map] at h
    cases h
  | ok vc₀ =>
    simp only [hr, Except.map, Except.ok.injEq] at h
    exact ⟨vc₀, rfl, h.symm⟩

/-- A valid condition says that the graph is verified from every store in which the names `p#0` have
the values of `p`. -/
theorem functionVc_verified {vc : Expr} (hd : d.WellTyped cs)
    (hcs : ∀ f c, cs.get? f = some c → c.Scoped) (hpre : pre.Source d.types)
    (hpost : post.Source d.types) (h : functionVc pre post d.graph cs = .ok vc) (hv : vc.Valid z)
    {s : Store} (hs : s.Typed (atEntry d.types))
    (he : ∀ v ∈ post.vars, v.name ≠ resultName → s (entryName v.name) = s v.name) :
    Verified z (atEntry d.types) (functionSetting d cs post) pre s := by
  obtain ⟨vc₀, h₀, rfl⟩ := functionVc_ok h
  obtain ⟨⟨c, hknown⟩, halways⟩ :=
    condition_always z (functionSetting_scoped hd hcs hpost) hpre.declared h₀
  refine (halways s hs).1 fun a ha => ?_
  have h1 := hv _ (fitting_overlay ha hs)
  unfold Expr.Holds at h1 ⊢
  rw [Expr.eval_substitute] at h1
  refine (congrArg Value.toBool (Expr.eval_congr fun w hw => ?_)).symm.trans h1
  -- the names `p#0` have the values that are put in for them
  unfold Expr.update
  cases ht : (fromEntry post).get? w.name with
  | none => rfl
  | some t =>
    obtain ⟨v, hmem, hr, hn, rfl⟩ := get?_fromEntry ht
    have hplain : Fresh.Plain w.name := hn ▸ Fresh.plain_nameOf_zero _
    have hdecl : w.Declared (atEntry d.types) :=
      (hknown w hw).resolve_right fun hg => Fresh.not_plain_of_given hg hplain
    show overlay _ s a v = overlay _ s a w
    rw [overlay_declared hdecl, overlay_declared (hpost v hmem).declared, hn, he v hmem hr]

/-- The postcondition over entry values is that of the contract. -/
theorem holds_toEntry {c : Contract} {vals : List Value} {v : Value} {s : Store} (hc : c.Scoped)
    (hpost : c.post.Source d.types)
    (hs : ∀ p ∈ c.params, s (entryName p.name) = Store.ofArgs c.params vals p.name) :
    (c.post.substitute (toEntry c.post)).Holds z (s.set resultName v).read ↔ c.Post z vals v := by
  unfold Contract.Post Expr.Holds
  rw [Expr.eval_substitute]
  refine iff_of_eq (congrArg (fun v : Value => v.toBool = true) (Expr.eval_congr fun w hw => ?_))
  unfold Expr.update Store.read
  by_cases hr : w.name = resultName
  · rw [hr, get?_toEntry_result]
    simp
  · obtain ⟨p, hp, hn⟩ := List.mem_map.1 ((hc.post w hw).resolve_left hr)
    have hne : resultName ≠ entryName w.name :=
      fun h => absurd (h ▸ hash_mem_entryName w.name) (by decide)
    rw [get?_toEntry hpost hw hr, Store.set_of_ne _ _ (Ne.symm hr),
      Store.set_of_ne _ _ (Ne.symm hr), ← hn, ← hs p hp, hn]
    exact Store.set_of_ne _ _ hne

end

end ContractVerifier
