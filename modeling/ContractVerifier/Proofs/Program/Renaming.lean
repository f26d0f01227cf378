import ContractVerifier.Proofs.Program.Entry
import ContractVerifier.Proofs.Wp.Live
import ContractVerifier.Proofs.Wp.Relate

/-!
# Entry values leave no trace

The condition of a function is built for a postcondition over the names `p#0`, and `p` is put back
in for `p#0` at the end.

* `substitute_fromEntry_toEntry` : to the entry values and back gives the postcondition again;
* `carries_fromEntry` : where no variable of the postcondition is written, putting `p` back in
  commutes with all that is done to a formula on the way;
* `carries_restorable` : the names `p#0` on the way are those that are put back;
* `functionVc_transparent` : no name `p#0` is left in the condition, and it is the condition for the
  postcondition as it stands if nothing of it is written.
-/

namespace ContractVerifier

open ContractVerifier.Flow Wp

/-! ## entry names -/

theorem exists_eq_entryName {y : String} (h : "#0".toList <:+ y.toList) : ∃ x, y = entryName x := by
  obtain ⟨cs, hcs⟩ := h
  refine ⟨String.ofList cs, String.toList_inj.1 ?_⟩
  unfold entryName
  rw [Fresh.toList_nameOf, String.toList_ofList, ← hcs]
  rfl

theorem Fresh.Ordinary.ne_entryName {x : String} (h : Fresh.Ordinary x) (y : String) : x ≠ entryName y := by
  rintro rfl
  rcases h with hmark | hplain
  · exact hmark (hash_mem_entryName y)
  · exact hplain (Fresh.plain_nameOf_zero y)

theorem get?_toEntry_some {post : Expr} {x : String} {t : Expr}
    (h : (toEntry post).get? x = some t) :
    ∃ v ∈ entryVars post, x = v.name ∧ t = .var ⟨entryName v.name, v.type⟩ := by
  obtain ⟨v, hv, he⟩ := List.mem_map.1 (Keyed.mem_of_get? h)
  obtain ⟨rfl, rfl⟩ := Prod.mk.inj he
  exact ⟨v, hv, rfl, rfl⟩

theorem get?_fromEntry_ordinary {post : Expr} {x : String} (hx : Fresh.Ordinary x) : (fromEntry post).get? x = none := by
  cases h : (fromEntry post).get? x with
  | none => rfl
  | some t =>
    obtain ⟨v, -, -, hn, -⟩ := get?_fromEntry h
    exact absurd hn (hx.ne_entryName v.name)

theorem exists_get?_fromEntry {post : Expr} {v : Var} (hv : v ∈ entryVars post) :
    ∃ t, (fromEntry post).get? (entryName v.name) = some t := by
  refine (Keyed.mem_keys_iff ..).1 ?_
  unfold fromEntry Keyed.keys
  rw [List.map_map]
  exact List.mem_map.2 ⟨v, hv, rfl⟩

/-! ## to the entry values and back -/

/-- One type for each name. -/
def Expr.Uniform (e : Expr) : Prop := ∀ v ∈ e.vars, ∀ w ∈ e.vars, v.name = w.name → v.type = w.type

instance (e : Expr) : Decidable e.Uniform :=
  inferInstanceAs (Decidable (∀ v ∈ e.vars, ∀ w ∈ e.vars, v.name = w.name → v.type = w.type))

theorem Expr.Uniform.source {e : Expr} (hone : e.Uniform) (hmark : e.Unmarked) : ∃ Γ, e.Source Γ := by
  refine ⟨fun x => ((e.freeVars.get? x).map Var.type).getD .unknown, fun v hv => ⟨hmark v hv, ?_⟩⟩
  obtain ⟨u, hu⟩ := (Keyed.mem_keys_iff ..).1 ((lists_freeVars e).complete v hv)
  obtain ⟨hname, hmem⟩ := (lists_freeVars e).entry _ (Keyed.mem_of_get? hu)
  simp only [hu, Option.map_some, Option.getD_some]
  exact hone v hv u hmem hname.symm

/-- What is put back for a variable has its name, and so its type. -/
theorem substitute_fromEntry_var {post : Expr} (hone : post.Uniform) (hmark : post.Unmarked)
    {v : Var} (hv : v ∈ post.vars) :
    ((Expr.var v).substitute (toEntry post)).substitute (fromEntry post) = .var v := by
  by_cases hr : v.name = resultName
  · have hto : (toEntry post).get? v.name = none := by rw [hr, get?_toEntry_result]
    rw [Expr.substitute_var_none hto,
      Expr.substitute_var_none (get?_fromEntry_ordinary (.inl (hmark v hv)))]
  · obtain ⟨Γ, hsource⟩ := hone.source hmark
    obtain ⟨u, hu, hname⟩ := exists_entryVar hv hr
    obtain ⟨t, ht⟩ := exists_get?_fromEntry hu
    rw [hname] at ht
    rw [Expr.substitute_var_some (get?_toEntry hsource hv hr), Expr.substitute_var_some ht]
    obtain ⟨w, hw, -, hn, rfl⟩ := get?_fromEntry ht
    have hsame : v.name = w.name := entryName_inj hn
    have htype : v.type = w.type := hone v hv w hw hsame
    rw [show v = w by cases v; cases w; cases hsame; cases htype; rfl]

theorem substitute_fromEntry_toEntry {post : Expr} (hone : post.Uniform) (hmark : post.Unmarked) :
    (post.substitute (toEntry post)).substitute (fromEntry post) = post := by
  have hnothing : ∀ v ∈ post.vars, (Keyed.empty : Keyed String Expr).get? v.name = none :=
    fun _ _ => rfl
  calc
    _ = (post.substitute .empty).substitute .empty :=
      Expr.substitute_substitute_congr fun v hv => substitute_fromEntry_var hone hmark hv
    _ = post := by rw [Expr.substitute_eq_self hnothing, Expr.substitute_eq_self hnothing]

/-! ## the way between -/

section

variable {S : Setting} {post : Expr}

/-- Putting the parameters back in commutes with the run for a graph that does not write them. -/
theorem carries_fromEntry (hS : S.Unmarked)
    (hkept : ∀ v ∈ post.vars, v.name ≠ resultName → ¬ S.graph.Writes v.name) :
    Carries S.graph fun p q => p.substitute (fromEntry post) = q := by
  have hordinary : ∀ e : Expr, e.Ordinary → e.substitute (fromEntry post) = e :=
    fun e he => Expr.substitute_eq_self fun v hv => get?_fromEntry_ordinary (he v hv)
  refine ⟨?_, hordinary, ?_⟩
  · rintro op p q p' q' rfl rfl
    rfl
  · rintro m p q hm rfl
    refine Expr.substitute_substitute_congr fun v _ => ?_
    cases hv : m.get? v.name with
    | some t =>
      obtain ⟨hwritten, ht⟩ := hm v.name t hv
      have hmark : '#' ∉ v.name.toList := by
        rcases hwritten with hr | hw
        · rw [hr]
          decide
        · exact hS.writes hw
      rw [Expr.substitute_var_some hv, hordinary t ht,
        Expr.substitute_var_none (get?_fromEntry_ordinary (.inl hmark)),
        Expr.substitute_var_some hv]
    | none =>
      rw [Expr.substitute_var_none hv]
      cases hback : (fromEntry post).get? v.name with
      | none => rw [Expr.substitute_var_none hback, Expr.substitute_var_none hv]
      | some t =>
        obtain ⟨u, hu, hr, -, rfl⟩ := get?_fromEntry hback
        have hfree : m.get? u.name = none := by
          cases hmu : m.get? u.name with
          | none => rfl
          | some t => exact absurd (hm u.name t hmu).1 (not_or.2 ⟨hr, hkept u hu hr⟩)
        rw [Expr.substitute_var_some hback, Expr.substitute_var_none hfree]

/-- Every entry name in a formula is put back. -/
def Restorable (post e : Expr) : Prop :=
  ∀ v ∈ e.vars, ∀ x, v.name = entryName x → ∃ t, (fromEntry post).get? v.name = some t

theorem restorable_toEntry (hmark : post.Unmarked) : Restorable post (post.substitute (toEntry post)) := by
  intro w hw x hx
  rcases Expr.mem_vars_substitute hw with ⟨hw, -⟩ | ⟨v, -, t, ht, hw⟩
  · exact absurd (hx ▸ hash_mem_entryName x) (hmark w hw)
  · obtain ⟨u, hu, -, rfl⟩ := get?_toEntry_some ht
    rw [List.mem_singleton.1 hw]
    exact exists_get?_fromEntry hu

theorem restorable_ordinary {e : Expr} (he : e.Ordinary) : Restorable post e :=
  fun v hv x hx => absurd hx ((he v hv).ne_entryName x)

theorem carries_restorable (g : Graph) (post : Expr) : Carries g fun p q => p = q ∧ Restorable post p := by
  refine ⟨?_, fun e he => ⟨rfl, restorable_ordinary he⟩, ?_⟩
  · rintro op p q p' q' ⟨rfl, hp⟩ ⟨rfl, hp'⟩
    refine ⟨rfl, fun v hv => ?_⟩
    rcases List.mem_append.1 hv with hv | hv
    · exact hp v hv
    · exact hp' v hv
  · rintro m p q hm ⟨rfl, hp⟩
    refine ⟨rfl, fun w hw => ?_⟩
    rcases Expr.mem_vars_substitute hw with ⟨hw, -⟩ | ⟨v, -, t, ht, hw⟩
    · exact hp w hw
    · exact restorable_ordinary (hm v.name t ht).2 w hw

theorem Restorable.no_entryName {e : Expr} (he : Restorable post e) (hmark : post.Unmarked)
    {w : Var} (hw : w ∈ (e.substitute (fromEntry post)).vars) (x : String) :
    w.name ≠ entryName x := by
  intro hx
  rcases Expr.mem_vars_substitute hw with ⟨hw, hnone⟩ | ⟨v, -, t, ht, hw⟩
  · obtain ⟨t, ht⟩ := he w hw x hx
    rw [ht] at hnone
    cases hnone
  · obtain ⟨u, hu, -, -, rfl⟩ := get?_fromEntry ht
    cases List.mem_singleton.1 hw
    exact hmark w hu (hx ▸ hash_mem_entryName x)

end

/-! ## the condition of a function -/

theorem functionVc_eq_map (pre post : Expr) (g : Graph) (cs : Contracts) :
    functionVc pre post g cs =
      (buildVc pre (post.substitute (toEntry post)) g cs).map (·.substitute (fromEntry post)) := rfl

/-- In the condition of a function no name `p#0` is left.  If the function writes no variable of its
postcondition but the returned value, the condition, or the reason why there is none, is that for
the postcondition as it stands. -/
theorem functionVc_transparent {pre post : Expr} {g : Graph} {cs : Contracts} (hpre : pre.Unmarked)
    (hpost : post.Unmarked) (hone : post.Uniform)
    (hg : ∀ i b, g.Reaches i → g.block? i = some b → b.Unmarked)
    (hcs : ∀ f c, cs.get? f = some c → c.Unmarked) :
    (∀ vc, functionVc pre post g cs = .ok vc → ∀ v ∈ vc.vars, ¬ "#0".toList <:+ v.name.toList) ∧
    ((∀ v ∈ post.vars, v.name ≠ resultName → ¬ g.Writes v.name) → functionVc pre post g cs = buildVc pre post g cs) := by
  let S : Setting := ⟨g, cs, post.substitute (toEntry post)⟩
  have hS : S.Unmarked := ⟨hg, hcs⟩
  constructor
  · intro vc hvc v hv hend
    obtain ⟨vc₀, hvc₀, rfl⟩ := functionVc_ok hvc
    obtain ⟨x, hx⟩ := exists_eq_entryName hend
    rcases buildVc_related (carries_restorable g post) hS hpre ⟨rfl, restorable_toEntry hpost⟩ with
      ⟨f, hf, -⟩ | ⟨vc₁, -, hvc₁, -, -, hrest⟩
    · cases hf.symm.trans hvc₀
    · cases hvc₁.symm.trans hvc₀
      exact hrest.no_entryName hpost hv x hx
  · intro hkept
    rw [functionVc_eq_map]
    rcases buildVc_related (carries_fromEntry hS hkept) hS hpre (substitute_fromEntry_toEntry hone hpost) with
      ⟨f, hf, hf'⟩ | ⟨vc, vc', hvc, hvc', hback⟩
    · rw [hf', show buildVc pre (post.substitute (toEntry post)) g cs = .error f from hf]
      rfl
    · rw [hvc', show buildVc pre (post.substitute (toEntry post)) g cs = .ok vc from hvc, ← hback]
      rfl

/-- The bound is met, and it is not written on the way. -/
def metBound : Expr := .bin .eq (.var ⟨resultName, .int⟩) (.var ⟨"k", .int⟩)

def nextContract : Contract where
  name := "next"
  params := [⟨"n", .int⟩]
  result := .int
  pre := .truth
  post := .bin .eq (.var ⟨resultName, .int⟩) (.bin .add (.var ⟨"n", .int⟩) (.num 1))

theorem exists_metBound_vc : ∃ vc, buildVc .truth metBound approach ⟨[("next", nextContract)]⟩ = .ok vc := by
  have hloops : approach.loops = .ok ⟨[(1, [2, 1])]⟩ := by decide +kernel
  have hreach : approach.reachable = .ok [0, 1, 2, 3] := by decide +kernel
  have hassigned : approach.reachable.bind approach.assigned = .ok ⟨[("n", ⟨"n", .int⟩)]⟩ :=
    Graph.assigned_of_reachable hreach (by decide) rfl
  simp only [buildVc_def, hloops, Generator.condition, Generator.generate, Keyed.keys,
    List.map_cons, List.map_nil, Generator.addObligations, Generator.loopObligations, hassigned]
  exact ⟨_, rfl⟩

theorem approach_transparent : ∃ vc, functionVc .truth metBound approach ⟨[("next", nextContract)]⟩ = .ok vc ∧
    buildVc .truth metBound approach ⟨[("next", nextContract)]⟩ = .ok vc ∧
    ∀ v ∈ vc.vars, ¬ "#0".toList <:+ v.name.toList := by
  have hreach : approach.reachable = .ok [0, 1, 2, 3] := by decide +kernel
  have hblock : ∀ i ∈ [0, 1, 2, 3], ∀ b ∈ approach.block? i, b.Unmarked ∧
      ∀ op ∈ b.ops, ∀ w ∈ op.target, w.name ≠ "k" := by decide
  have hcs : ∀ f c, Keyed.get? ⟨[("next", nextContract)]⟩ f = some c → c.Unmarked := by
    intro f c hc
    cases List.mem_singleton.1 (Keyed.mem_of_get? hc)
    decide
  have hvars : ∀ v ∈ metBound.vars, v.name = resultName ∨ v.name = "k" := by decide
  have hpre : Expr.truth.Unmarked := by decide
  have hpost : metBound.Unmarked ∧ metBound.Uniform := by decide
  obtain ⟨hclean, heq⟩ := functionVc_transparent hpre hpost.1 hpost.2
    (fun i b hi hb => (hblock i ((Graph.mem_reachable hreach).2 hi) b hb).1) hcs
  have hkept : ∀ v ∈ metBound.vars, v.name ≠ resultName → ¬ approach.Writes v.name := by
    rintro v hv hr ⟨i, b, op, w, hi, hb, hop, hw, hn⟩
    have hk : v.name = "k" := (hvars v hv).resolve_left hr
    exact (hblock i ((Graph.mem_reachable hreach).2 hi) b hb).2 op hop w hw (hn.trans hk)
  obtain ⟨vc, hvc⟩ := exists_metBound_vc
  have hfun := (heq hkept).trans hvc
  exact ⟨vc, hfun, hvc, hclean vc hfun⟩

end ContractVerifier
