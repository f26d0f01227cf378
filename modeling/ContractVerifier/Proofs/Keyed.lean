import ContractVerifier.Keyed
import Mathlib.Data.List.Induction
import Mathlib.Logic.Basic

/-!
# Looking up entries

What `get?` finds after `put`, `putNew` and `ofList`.
-/

namespace ContractVerifier.Keyed

variable {α β γ : Type} [DecidableEq α]

@[simp] theorem get?_empty (k : α) : (empty : Keyed α β).get? k = none := rfl

theorem get?_nil (k : α) : (⟨[]⟩ : Keyed α β).get? k = none := rfl

theorem get?_cons (a k : α) (b : β) (r : List (α × β)) :
    (⟨(a, b) :: r⟩ : Keyed α β).get? k = if a = k then some b else (⟨r⟩ : Keyed α β).get? k := rfl

theorem lookup_putList (k x : α) (v : β) (l : List (α × β)) :
    lookup x (putList k v l) = if k = x then some v else lookup x l := by
  induction l with
  | nil => simp [putList, lookup]
  | cons e r ih =>
    obtain ⟨a, b⟩ := e
    by_cases hak : a = k
    · subst hak
      by_cases hax : a = x <;> simp [putList, lookup, hax]
    · by_cases hax : a = x
      · subst hax
        simp [putList, lookup, hak, Ne.symm hak]
      · simp [putList, lookup, hak, hax, ih]

theorem get?_put (m : Keyed α β) (k x : α) (v : β) :
    (m.put k v).get? x = if k = x then some v else m.get? x := lookup_putList k x v m.entries

/-- A new key goes to the end. -/
theorem putList_of_notMem {k : α} {v : β} {l : List (α × β)} (h : k ∉ l.map (·.1)) : putList k v l = l ++ [(k, v)] := by
  induction l with
  | nil => rfl
  | cons e r ih =>
    obtain ⟨a, b⟩ := e
    simp only [List.map_cons, List.mem_cons, not_or] at h
    simp only [putList, if_neg (Ne.symm h.1), ih h.2, List.cons_append]

theorem keys_put (m : Keyed α β) (k : α) (v : β) : (m.put k v).keys = if k ∈ m.keys then m.keys else m.keys ++ [k] := by
  by_cases hk : k ∈ m.keys
  · rw [if_pos hk]
    obtain ⟨es⟩ := m
    show (putList k v es).map (·.1) = es.map (·.1)
    induction es with
    | nil => cases hk
    | cons e es ih =>
      obtain ⟨a, b⟩ := e
      unfold putList
      by_cases ha : a = k
      · rw [if_pos ha]
        simp [ha]
      · rw [if_neg ha, List.map_cons, List.map_cons,
          ih ((List.mem_cons.1 hk).resolve_left (Ne.symm ha))]
  · rw [if_neg hk]
    show (putList k v m.entries).map (·.1) = _
    rw [putList_of_notMem hk, List.map_append]
    rfl

theorem contains_iff (m : Keyed α β) (k : α) : m.contains k = true ↔ ∃ v, m.get? k = some v := by
  simp [contains, Option.isSome_iff_exists]

theorem get?_eq_none_iff (m : Keyed α β) (k : α) : m.get? k = none ↔ k ∉ m.keys := by
  unfold get? keys
  induction m.entries with
  | nil => simp [lookup]
  | cons e r ih =>
    by_cases h : e.1 = k
    · simp [lookup, h]
    · simp [lookup, h, ih, Ne.symm h]

theorem mem_keys_iff (m : Keyed α β) (k : α) : k ∈ m.keys ↔ ∃ v, m.get? k = some v := by
  rw [← not_iff_not, ← get?_eq_none_iff, Option.eq_none_iff_forall_ne_some]
  simp

theorem get?_append (l r : List (α × β)) (x : α) :
    (⟨l ++ r⟩ : Keyed α β).get? x = ((⟨l⟩ : Keyed α β).get? x).or ((⟨r⟩ : Keyed α β).get? x) := by
  induction l with
  | nil => rfl
  | cons e l ih =>
    obtain ⟨a, b⟩ := e
    rw [List.cons_append, get?_cons, get?_cons, ih]
    split <;> rfl

theorem get?_putNew (m : Keyed α β) (k x : α) (v : β) :
    (m.putNew k v).get? x = if k = x then some ((m.get? k).getD v) else m.get? x := by
  unfold putNew contains
  cases h : m.get? k with
  | none =>
    rw [if_neg (by simp), get?_append, get?_cons, get?_nil]
    by_cases hx : k = x
    · subst hx
      have hm : (⟨m.entries⟩ : Keyed α β).get? k = none := h
      simp [hm]
    · simp [hx]
  | some w =>
    rw [if_pos (by simp)]
    by_cases hx : k = x
    · rw [if_pos hx, ← hx, h]
      rfl
    · rw [if_neg hx]

theorem putNew_of_mem {m : Keyed α β} {k : α} (v : β) (h : k ∈ m.keys) : m.putNew k v = m := by
  unfold putNew
  rw [if_pos ((contains_iff ..).2 ((mem_keys_iff ..).1 h))]

theorem putNew_of_notMem {m : Keyed α β} {k : α} (v : β) (h : k ∉ m.keys) : m.putNew k v = ⟨m.entries ++ [(k, v)]⟩ := by
  unfold putNew
  rw [if_neg fun hc => h ((mem_keys_iff ..).2 ((contains_iff ..).1 hc))]

theorem mem_keys_putNew {m : Keyed α β} {k x : α} {v : β} : x ∈ (m.putNew k v).keys ↔ x ∈ m.keys ∨ x = k := by
  by_cases h : k ∈ m.keys
  · rw [putNew_of_mem v h]
    exact ⟨.inl, fun hx => hx.elim id fun hk => hk ▸ h⟩
  · rw [putNew_of_notMem v h]
    simp [keys]

/-! ## lists of entries -/

theorem get?_foldl_put (es : List (α × β)) (m : Keyed α β) (x : α) :
    (es.foldl (fun m e => m.put e.1 e.2) m).get? x =
      ((es.foldl (fun m e => m.put e.1 e.2) empty).get? x).or (m.get? x) := by
  induction es using List.reverseRecOn generalizing m with
  | nil => simp
  | append_singleton es e ih =>
    simp only [List.foldl_append, List.foldl_cons, List.foldl_nil, get?_put]
    by_cases h : e.1 = x
    · simp [h]
    · simp [h, ih m]

theorem get?_ofList_cons (a x : α) (b : β) (es : List (α × β)) :
    (ofList ((a, b) :: es)).get? x = ((ofList es).get? x).or (if a = x then some b else none) := by
  unfold ofList
  rw [List.foldl_cons, get?_foldl_put, get?_put]
  rfl

theorem get?_ofList_map (f : β → γ) (es : List (α × β)) (x : α) :
    (ofList (es.map fun e => (e.1, f e.2))).get? x = ((ofList es).get? x).map f := by
  induction es with
  | nil => rfl
  | cons e es ih =>
    obtain ⟨a, b⟩ := e
    rw [List.map_cons, get?_ofList_cons, get?_ofList_cons, ih]
    cases (ofList es).get? x <;> by_cases h : a = x <;> simp [h]

/-- The values of a list of keys, one by one through `f`. -/
theorem get?_ofList_zip_map (f : β → γ) (ks : List α) (vs : List β) (x : α) :
    (ofList (ks.zip (vs.map f))).get? x = ((ofList (ks.zip vs)).get? x).map f := by
  rw [← get?_ofList_map f (ks.zip vs) x]
  congr 2
  induction ks generalizing vs with
  | nil => rfl
  | cons k ks ih =>
    cases vs with
    | nil => rfl
    | cons v vs => simp [ih]

theorem mem_of_get?_ofList {es : List (α × β)} {x : α} {v : β} (h : (ofList es).get? x = some v) :
    (x, v) ∈ es := by
  induction es with
  | nil => simp [ofList] at h
  | cons e es ih =>
    obtain ⟨a, b⟩ := e
    rw [get?_ofList_cons, Option.or_eq_some_iff] at h
    rcases h with h | ⟨-, h⟩
    · exact List.mem_cons_of_mem _ (ih h)
    · by_cases hax : a = x
      · simp [hax] at h
        simp [hax, h]
      · simp [hax] at h

theorem exists_get?_ofList {es : List (α × β)} {x : α} (h : x ∈ es.map (·.1)) :
    ∃ v, (ofList es).get? x = some v := by
  induction es with
  | nil => simp at h
  | cons e es ih =>
    obtain ⟨a, b⟩ := e
    rw [get?_ofList_cons]
    by_cases hx : x ∈ es.map (·.1)
    · obtain ⟨v, hv⟩ := ih hx
      exact ⟨v, by rw [hv]; rfl⟩
    · have hax : a = x := by
        rcases List.mem_cons.1 h with h | h
        · exact h.symm
        · exact absurd h hx
      cases (ofList es).get? x with
      | none => exact ⟨b, by simp [hax]⟩
      | some v => exact ⟨v, rfl⟩

/-- The last entry of a key counts. -/
theorem get?_ofList_append_cons (es : List (α × β)) {fs : List (α × β)} {x : α} {v : β}
    (h : x ∉ fs.map (·.1)) :
    (ofList (es ++ (x, v) :: fs)).get? x = some v := by
  induction es with
  | nil =>
    have hnone : (ofList fs).get? x = none := by
      rw [Option.eq_none_iff_forall_ne_some]
      intro w hw
      exact h (List.mem_map.2 ⟨(x, w), mem_of_get?_ofList hw, rfl⟩)
    rw [List.nil_append, get?_ofList_cons, hnone]
    simp
  | cons e es ih => rw [List.cons_append, get?_ofList_cons, ih, Option.some_or]

/-! ## keys beside values -/

theorem mem_of_get? {m : Keyed α β} {x : α} {v : β} (h : m.get? x = some v) : (x, v) ∈ m.entries := by
  obtain ⟨es⟩ := m
  induction es with
  | nil => cases h
  | cons e r ih =>
    obtain ⟨a, b⟩ := e
    rw [get?_cons] at h
    split at h
    · rename_i hax
      cases h
      simp [hax]
    · exact List.mem_cons_of_mem _ (ih h)

/-- The values through `f`, which may look at their keys. -/
theorem get?_map (f : α → β → γ) (m : Keyed α β) (x : α) :
    (⟨m.entries.map fun e => (e.1, f e.1 e.2)⟩ : Keyed α γ).get? x = (m.get? x).map (f x) := by
  obtain ⟨es⟩ := m
  induction es with
  | nil => rfl
  | cons e r ih =>
    obtain ⟨a, b⟩ := e
    simp only [List.map_cons, get?_cons, ih]
    by_cases h : a = x
    · simp [h]
    · simp [h]

theorem get?_filter (p : α → Bool) (es : List (α × β)) (x : α) :
    (⟨es.filter fun e => p e.1⟩ : Keyed α β).get? x = if p x then (⟨es⟩ : Keyed α β).get? x else none := by
  induction es with
  | nil => simp [get?_nil]
  | cons e es ih =>
    obtain ⟨a, b⟩ := e
    by_cases hx : a = x
    · subst hx
      cases hp : p a with
      | true => simp [hp, get?_cons]
      | false => simpa [hp] using ih
    · cases hp : p a with
      | true => simp [hp, get?_cons, hx, ih]
      | false => simp [hp, get?_cons, hx, ih]

theorem get?_zip_of_notMem {ks : List α} {vs : List β} {x : α} (h : x ∉ ks) :
    (⟨ks.zip vs⟩ : Keyed α β).get? x = none := by
  rw [get?_eq_none_iff]
  intro hm
  obtain ⟨e, he, rfl⟩ := List.mem_map.1 hm
  exact h (List.of_mem_zip he).1

theorem get?_zip_map (f : β → γ) (ks : List α) (vs : List β) (x : α) :
    (⟨ks.zip (vs.map f)⟩ : Keyed α γ).get? x = ((⟨ks.zip vs⟩ : Keyed α β).get? x).map f := by
  induction ks generalizing vs with
  | nil => rfl
  | cons k ks ih =>
    cases vs with
    | nil => rfl
    | cons v vs =>
      simp only [List.map_cons, List.zip_cons_cons, get?_cons, ih]
      split <;> rfl

theorem get?_zip_map_self (f : α → β) (ks : List α) (x : α) :
    (⟨ks.zip (ks.map f)⟩ : Keyed α β).get? x = if x ∈ ks then some (f x) else none := by
  induction ks with
  | nil => rfl
  | cons k ks ih =>
    simp only [List.map_cons, List.zip_cons_cons, get?_cons, ih]
    by_cases h : k = x
    · simp [h]
    · simp [h, Ne.symm h]

/-- Different keys find their own values. -/
theorem map_get?_zip {ks : List α} {vs : List β} (f : α → β) (hn : ks.Nodup)
    (hl : ks.length = vs.length) :
    ks.map (fun k => ((⟨ks.zip vs⟩ : Keyed α β).get? k).getD (f k)) = vs := by
  induction ks generalizing vs with
  | nil =>
    cases vs with
    | nil => rfl
    | cons v vs => cases hl
  | cons k ks ih =>
    cases vs with
    | nil => cases hl
    | cons v vs =>
      rw [List.nodup_cons] at hn
      simp only [List.map_cons, List.zip_cons_cons, get?_cons, if_true, Option.getD_some,
        List.cons.injEq, true_and]
      refine Eq.trans (List.map_congr_left fun y hy => ?_) (ih hn.2 (Nat.succ.inj hl))
      have hky : k ≠ y := fun h => hn.1 (h ▸ hy)
      rw [if_neg hky]

/-! ## values under keys of their own -/

/-- The values are some of those with property `P`, one for each key of such a value. -/
structure Lists (m : Keyed α β) (k : β → α) (P : β → Prop) : Prop where
  entry : ∀ e ∈ m.entries, k e.2 = e.1 ∧ P e.2
  complete : ∀ w, P w → k w ∈ m.keys

variable {m : Keyed α β} {k : β → α} {P Q : β → Prop}

omit [DecidableEq α] in
theorem lists_empty (k : β → α) : (empty : Keyed α β).Lists k fun _ => False := ⟨by simp [empty], fun _ h => h.elim⟩

omit [DecidableEq α] in
theorem Lists.congr (h : m.Lists k P) (hpq : ∀ w, P w ↔ Q w) : m.Lists k Q :=
  ⟨fun e he => ⟨(h.entry e he).1, (hpq _).1 (h.entry e he).2⟩, fun w hw => h.complete w ((hpq w).2 hw)⟩

theorem Lists.putNew (h : m.Lists k P) {x : α} (t : β) (hx : k t = x) : (m.putNew x t).Lists k fun w => P w ∨ w = t := by
  unfold Keyed.putNew
  by_cases hc : m.contains x = true
  · rw [if_pos hc]
    refine ⟨fun e he => ⟨(h.entry e he).1, .inl (h.entry e he).2⟩, ?_⟩
    rintro w (hw | rfl)
    · exact h.complete w hw
    · rw [hx]
      exact (mem_keys_iff ..).2 ((contains_iff ..).1 hc)
  · rw [if_neg hc]
    refine ⟨fun e he => ?_, ?_⟩
    · rcases List.mem_append.1 he with he | he
      · exact ⟨(h.entry e he).1, .inl (h.entry e he).2⟩
      · rw [List.mem_singleton.1 he]
        exact ⟨hx, .inr rfl⟩
    · rintro w (hw | rfl)
      · have := h.complete w hw
        simp only [keys, List.map_append, List.mem_append] at this ⊢
        exact .inl this
      · simp [keys, hx]

end ContractVerifier.Keyed
