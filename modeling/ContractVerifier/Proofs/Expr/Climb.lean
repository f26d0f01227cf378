import ContractVerifier.Proofs.Expr.Grammar
import ContractVerifier.Proofs.Store

/-!
# Precedence climbing reads the layered grammar

The reader knows strengths only: one loop joins operands as long as the next operator is strong
enough.  It stays inside a layer because of what may come next (`Before`): behind an operand of
strength `k` stands no operator whose left operand would have to bind tighter than `k`.

* `sound` : what is read derives from the layer of the asked strength, and the next operator is
  weaker;
* `complete` : what derives from a layer is read, whatever weaker stands behind it, if the bound on
  the depth of calls is twice the number of tokens;
* `condition_sound`, `condition_complete` : a token list is read as a condition exactly if it
  derives from one;
* `condition_refused` : otherwise it is refused, unless an integer is too long.
-/

namespace ContractVerifier.Parser

open Token

variable {len : Nat}

/-- An operator that comes next has the property. -/
def Before (P : BinOp → Prop) (rest : List Token) : Prop := ∀ t ∈ rest.head?, ∀ op ∈ t.binary?, P op

/-- Integers that are short enough to be read. -/
def Short (ts : List Token) : Prop := ∀ t ∈ ts, t.kind = .integer → t.text.length ≤ Text.maxDigits

/-- Booleans are spelled as such. -/
def Spelled (ts : List Token) : Prop :=
  ∀ t ∈ ts, t.kind = .boolean → (booleanSpellings.lookup t.text).isSome = true

/-- `e` was read off the front of `ts`. -/
def Took (layer : Layer) (ts : List Token) (e : Expr) (rest : List Token) : Prop :=
  ∃ xs, ts = xs ++ rest ∧ Derives layer xs e ∧ Short xs

theorem Before.mono {P Q : BinOp → Prop} {rest : List Token} (h : Before P rest)
    (hpq : ∀ op, P op → Q op) :
    Before Q rest := fun t ht op ho => hpq op (h t ht op ho)

theorem before_cons {P : BinOp → Prop} {t : Token} {ts : List Token} : Before P (t :: ts) ↔ ∀ op ∈ t.binary?, P op := by
  simp [Before]

theorem numeral_eq_ok {t : Token} {n : Nat} (h : numeral t.text = .ok n) :
    n = t.value ∧ t.text.length ≤ Text.maxDigits := by
  unfold numeral at h
  split at h
  · cases h
  · cases h
    exact ⟨rfl, by omega⟩

theorem numeral_of_short {t : Token} (h : t.text.length ≤ Text.maxDigits) : numeral t.text = .ok t.value := by
  unfold numeral
  rw [if_neg (by omega)]
  rfl

/-! ## one call of a reader -/

/-- An operand is joined to the tree on its left. -/
def joined (len n level : Nat) (op : BinOp) (l : Expr) (p : Expr × List Token) : Result :=
  operators len n level (.bin op l p.1) p.2

theorem climb_succ (n level : Nat) (ts : List Token) :
    climb len (n + 1) level ts = unary len n ts >>= fun p => operators len n level p.1 p.2 := by
  rw [climb]

theorem operators_stop {n level : Nat} {e : Expr} {ts : List Token}
    (h : Before (·.precedence < level) ts) :
    operators len (n + 1) level e ts = .ok (e, ts) := by
  cases ts with
  | nil => rw [operators]
  | cons t ts =>
    rw [before_cons] at h
    rw [operators]
    cases hb : t.binary? with
    | none => rfl
    | some op => simp only [if_pos (h op hb)]

theorem operators_join {n level : Nat} {e : Expr} {t : Token} {ts : List Token} {op : BinOp}
    (ht : t.binary? = some op) (hl : level ≤ op.precedence) :
    operators len (n + 1) level e (t :: ts) = climb len n (nextLevel op) ts >>= joined len n level op e := by
  rw [operators]
  simp only [ht, if_neg (Nat.not_lt.2 hl)]
  rfl

theorem unary_bare {n : Nat} {t : Token} {ts : List Token} (ht : t.unary? = none) :
    unary len (n + 1) (t :: ts) = atom len (climb len n 1) t ts := by
  rw [unary]
  simp only [ht]

theorem unary_negative {n : Nat} {t i : Token} {ts : List Token} (ht : t.unary? = some .neg)
    (hi : i.kind = .integer) :
    unary len (n + 1) (t :: i :: ts) = numeral i.text >>= fun k => .ok (.num (-k), ts) := by
  rw [unary]
  simp only [ht, if_pos hi]

/-- A sign that is not part of a literal. -/
theorem unary_signed {n : Nat} {t : Token} {ts : List Token} {op : UnOp} (ht : t.unary? = some op)
    (hn : op = .neg → ∀ i ∈ ts.head?, i.kind ≠ .integer) :
    unary len (n + 1) (t :: ts) = unary len n ts >>= fun p => .ok (.un op p.1, p.2) := by
  rw [unary]
  simp only [ht]
  cases op with
  | not => rfl
  | neg =>
    cases ts with
    | nil => rfl
    | cons i ts =>
      have hi : i.kind ≠ .integer := hn rfl i (by simp)
      simp only [if_neg hi]

/-- The ways a sign can stand in front of something. -/
theorem sign_cases (op : UnOp) (ts : List Token) :
    (∃ i ts', op = .neg ∧ ts = i :: ts' ∧ i.kind = .integer) ∨ (op = .neg → ∀ i ∈ ts.head?, i.kind ≠ .integer) := by
  cases ts with
  | nil => exact .inr (by simp)
  | cons i ts =>
    by_cases h : op = .neg ∧ i.kind = .integer
    · exact .inl ⟨i, ts, h.1, rfl, h.2⟩
    · refine .inr fun ho j hj hk => h ⟨ho, ?_⟩
      simp only [List.head?_cons, Option.mem_def, Option.some.injEq] at hj
      rw [hj]
      exact hk

/-- The next token is an operator of the asked strength, or the loop ends. -/
theorem next_cases (level : Nat) (ts : List Token) : Before (·.precedence < level) ts ∨
    ∃ t ts' op, ts = t :: ts' ∧ t.binary? = some op ∧ level ≤ op.precedence := by
  cases ts with
  | nil => exact .inl (by simp [Before])
  | cons t ts =>
    cases hb : t.binary? with
    | none => exact .inl (by simp [before_cons, hb])
    | some op =>
      by_cases hle : level ≤ op.precedence
      · exact .inr ⟨t, ts, op, rfl, hb, hle⟩
      · refine .inl (before_cons.2 fun op' ho => ?_)
        rw [hb] at ho
        cases ho
        omega

/-! ## soundness -/

theorem Took.one {layer : Layer} {t : Token} {ts : List Token} {e : Expr} (h : Derives layer [t] e)
    (ht : t.kind = .integer → t.text.length ≤ Text.maxDigits) : Took layer (t :: ts) e ts :=
  ⟨[t], rfl, h, by simpa [Short] using ht⟩

theorem took_atom {inner : List Token → Result} {t : Token} {ts rest : List Token} {e : Expr}
    (h : atom len inner t ts = .ok (e, rest)) (hs : Spelled (t :: ts))
    (hi : ∀ e rest, inner ts = .ok (e, rest) → Took .condition ts e rest) : Took .atom (t :: ts) e rest := by
  unfold atom at h
  cases hk : t.kind with
  | integer =>
    simp only [hk] at h
    obtain ⟨n, hn, h⟩ := exists_of_bind_ok h
    cases h
    obtain ⟨rfl, hle⟩ := numeral_eq_ok hn
    exact .one (.integer hk) fun _ => hle
  | boolean =>
    simp only [hk, Except.ok.injEq, Prod.mk.injEq] at h
    obtain ⟨rfl, rfl⟩ := h
    obtain ⟨b, hb⟩ := Option.isSome_iff_exists.1 (hs t (List.mem_cons_self ..) hk)
    rw [hb]
    exact .one (.boolean hk hb) fun h => by rw [hk] at h; cases h
  | identifier =>
    simp only [hk, Except.ok.injEq, Prod.mk.injEq] at h
    obtain ⟨rfl, rfl⟩ := h
    exact .one (.identifier hk) fun h => by rw [hk] at h; cases h
  | symbol =>
    simp only [hk] at h
    split at h
    · rename_i ho
      obtain ⟨⟨e', rest'⟩, hin, h⟩ := exists_of_bind_ok h
      cases rest' with
      | nil => cases h
      | cons c rest' =>
        simp only at h
        split at h
        · rename_i hc
          cases h
          obtain ⟨xs, rfl, hd, hx⟩ := hi _ _ hin
          refine ⟨t :: xs ++ [c], by simp, .group ⟨hk, ho⟩ hc hd, ?_⟩
          intro u hu hku
          simp only [List.cons_append, List.mem_cons, List.mem_append, List.not_mem_nil,
            or_false] at hu
          rcases hu with rfl | hu | rfl
          · rw [hk] at hku; cases hku
          · exact hx u hu hku
          · rw [hc.1] at hku; cases hku
        · cases h
    · cases h
  | finish =>
    simp only [hk] at h
    cases h

/-- What the readers do within a bound. -/
structure Sound (len n : Nat) : Prop where
  unary : ∀ {ts e rest}, Spelled ts → unary len n ts = .ok (e, rest) → Took .unary ts e rest
  climb : ∀ {level ts e rest}, Spelled ts → climb len n level ts = .ok (e, rest) → level ≤ 8 →
    Took (.ofLevel level) ts e rest ∧ Before (·.precedence < level) rest
  /-- `ws` is what stands in front, of strength `k`. -/
  operators : ∀ {level k ws l ts e rest}, Spelled ts → operators len n level l ts = .ok (e, rest) → level ≤ k →
    Derives (.ofLevel k) ws l → Before (·.leftLevel ≤ k) ts → ∃ xs, ts = xs ++ rest ∧
      Derives (.ofLevel level) (ws ++ xs) e ∧ Short xs ∧ Before (·.precedence < level) rest

theorem Spelled.tail {t : Token} {ts : List Token} (h : Spelled (t :: ts)) : Spelled ts :=
  fun u hu => h u (List.mem_cons_of_mem _ hu)

theorem Spelled.rest {xs ts : List Token} (h : Spelled (xs ++ ts)) : Spelled ts :=
  fun u hu => h u (List.mem_append_right _ hu)

theorem Short.append {xs ys : List Token} (hx : Short xs) (hy : Short ys) : Short (xs ++ ys) := by
  intro t ht
  rcases List.mem_append.1 ht with ht | ht
  · exact hx t ht
  · exact hy t ht

theorem Short.cons {t : Token} {xs : List Token} (ht : t.kind ≠ .integer) (hx : Short xs) : Short (t :: xs) := by
  intro u hu hk
  rcases List.mem_cons.1 hu with rfl | hu
  · exact absurd hk ht
  · exact hx u hu hk

theorem kind_of_unary? {t : Token} {op : UnOp} (h : t.unary? = some op) : t.kind = .symbol := by
  unfold Token.unary? at h
  by_contra hk
  rw [if_neg hk] at h
  cases h

theorem kind_of_binary? {t : Token} {op : BinOp} (h : t.binary? = some op) : t.kind = .symbol := by
  unfold Token.binary? at h
  by_contra hk
  rw [if_neg hk] at h
  cases h

theorem ne_integer_of_unary? {t : Token} {op : UnOp} (h : t.unary? = some op) : t.kind ≠ .integer := by
  rw [kind_of_unary? h]
  simp

theorem ne_integer_of_binary? {t : Token} {op : BinOp} (h : t.binary? = some op) : t.kind ≠ .integer := by
  rw [kind_of_binary? h]
  simp

theorem took_unary {n : Nat} (ih : Sound len n) {ts rest : List Token} {e : Expr} (hs : Spelled ts)
    (h : unary len (n + 1) ts = .ok (e, rest)) : Took .unary ts e rest := by
  cases ts with
  | nil => rw [Parser.unary] at h; cases h
  | cons t ts =>
    cases ht : t.unary? with
    | none =>
      rw [unary_bare ht] at h
      obtain ⟨xs, hx, hd, hsh⟩ :=
        took_atom h hs fun e' rest' hin => (ih.climb hs.tail hin (by omega)).1
      exact ⟨xs, hx, .bare hd, hsh⟩
    | some op =>
      rcases sign_cases op ts with ⟨i, ts', rfl, rfl, hi⟩ | hn
      · rw [unary_negative ht hi] at h
        obtain ⟨k, hk, h⟩ := exists_of_bind_ok h
        cases h
        obtain ⟨rfl, hle⟩ := numeral_eq_ok hk
        refine ⟨[t, i], rfl, .negative ht hi, ?_⟩
        refine .cons (ne_integer_of_unary? ht) ?_
        intro u hu _
        rw [List.mem_singleton.1 hu]
        exact hle
      · rw [unary_signed ht hn] at h
        obtain ⟨⟨e', rest'⟩, hu, h⟩ := exists_of_bind_ok h
        cases h
        obtain ⟨xs, rfl, hd, hx⟩ := ih.unary hs.tail hu
        have hn' : op = .neg → ∀ i ∈ xs.head?, i.kind ≠ .integer := by
          intro ho i hi
          refine hn ho i ?_
          cases xs with
          | nil => exact absurd rfl hd.ne_nil
          | cons x xs => exact hi
        exact ⟨t :: xs, rfl, .signed ht hn' hd, hx.cons (ne_integer_of_unary? ht)⟩

theorem precedence_pos (op : BinOp) : 0 < op.precedence := by
  cases op <;> simp [BinOp.precedence]

/-- Behind the right operand of an operator comes one that may follow the whole. -/
theorem Before.joined {op : BinOp} {rest : List Token}
    (h : Before (·.precedence < nextLevel op) rest) :
    Before (·.leftLevel ≤ op.precedence) rest := by
  refine h.mono fun op' h => ?_
  cases op <;> cases op' <;> simp [nextLevel, BinOp.rightAssoc, BinOp.precedence, BinOp.leftLevel] at h ⊢

theorem nextLevel_le (op : BinOp) : nextLevel op ≤ 8 := by
  cases op <;> simp [nextLevel, BinOp.rightAssoc, BinOp.precedence]

theorem took_operators {n : Nat} (ih : Sound len n) {level k : Nat} {ws ts rest : List Token}
    {l e : Expr} (hs : Spelled ts) (h : operators len (n + 1) level l ts = .ok (e, rest))
    (hk : level ≤ k) (hl : Derives (.ofLevel k) ws l) (hb : Before (·.leftLevel ≤ k) ts) :
    ∃ xs, ts = xs ++ rest ∧ Derives (.ofLevel level) (ws ++ xs) e ∧ Short xs ∧ Before (·.precedence < level) rest := by
  rcases next_cases level ts with hstop | ⟨t, ts, op, rfl, ho, hle⟩
  · rw [operators_stop hstop] at h
    cases h
    exact ⟨[], rfl, by simpa using hl.loosen hk, by simp [Short], hstop⟩
  · -- the operator and its operand go to the left, and the loop goes on
    rw [operators_join ho hle] at h
    obtain ⟨⟨r, rest'⟩, hc, hj⟩ := exists_of_bind_ok h
    obtain ⟨⟨ys, rfl, hr, hy⟩, hb'⟩ := ih.climb hs.tail hc (nextLevel_le op)
    have hl' := hl.loosen (before_cons.1 hb op ho)
    have hbin := derives_bin hl' ho hr
    obtain ⟨xs, rfl, hd, hx, hstop⟩ := ih.operators hs.tail.rest hj hle hbin hb'.joined
    refine ⟨t :: ys ++ xs, by simp, by simpa using hd, ?_, hstop⟩
    exact (hy.cons (ne_integer_of_binary? ho)).append hx

theorem sound (len n : Nat) : Sound len n := by
  induction n with
  | zero =>
    refine ⟨fun _ h => ?_, fun _ h => ?_, fun _ h => ?_⟩
    · rw [unary] at h; cases h
    · rw [climb] at h; cases h
    · rw [operators] at h; cases h
  | succ n ih =>
    refine ⟨took_unary ih, fun hs h hle => ?_, took_operators ih⟩
    rw [climb_succ] at h
    obtain ⟨⟨l, rest'⟩, hu, ho⟩ := exists_of_bind_ok h
    obtain ⟨ws, rfl, hd, hw⟩ := ih.unary hs hu
    have hb : Before (·.leftLevel ≤ 8) rest' := by
      intro t _ op _
      cases op <;> simp [BinOp.leftLevel, BinOp.rightAssoc, BinOp.precedence]
    obtain ⟨xs, rfl, hd', hx, hstop⟩ := ih.operators (k := 8) hs.rest ho hle hd hb
    exact ⟨⟨ws ++ xs, by simp, hd', hw.append hx⟩, hstop⟩

/-! ## completeness -/

/-- `xs` is read as `e`, whatever weaker stands behind it. -/
structure Readable (len : Nat) (layer : Layer) (xs : List Token) (e : Expr) : Prop where
  unary : 8 ≤ layer.level → ∀ {n rest}, 2 * (xs ++ rest).length ≤ n → unary len n (xs ++ rest) = .ok (e, rest)
  climb : ∀ {n level rest}, 2 * (xs ++ rest).length < n → level ≤ layer.level →
    Before (·.leftLevel ≤ layer.level) rest →
      ∃ m, 2 * rest.length < m ∧ climb len n level (xs ++ rest) = operators len m level e rest

theorem precedence_le_leftLevel (op : BinOp) : op.precedence ≤ op.leftLevel := by
  unfold BinOp.leftLevel
  split <;> omega

theorem Readable.of_unary {layer : Layer} {xs : List Token} {e : Expr} (hne : xs ≠ [])
    (h : ∀ {n rest}, 2 * (xs ++ rest).length ≤ n → Parser.unary len n (xs ++ rest) = .ok (e, rest)) :
    Readable len layer xs e := by
  refine ⟨fun _ => h, fun {n level rest} hn _ _ => ?_⟩
  have hpos := List.length_pos_iff.2 hne
  rw [List.length_append] at hn
  obtain ⟨n, rfl⟩ : ∃ m, n = m + 1 := ⟨n - 1, by omega⟩
  refine ⟨n, by omega, ?_⟩
  rw [climb_succ, h (by rw [List.length_append]; omega)]
  rfl

/-- A member of a repetition is read on its own. -/
theorem Readable.stop {layer : Layer} {xs : List Token} {e : Expr} (h : Readable len layer xs e)
    {n : Nat} {rest : List Token} (hn : 2 * (xs ++ rest).length < n)
    (hb : Before (·.leftLevel ≤ layer.level) rest) (hs : Before (·.precedence < layer.level) rest) :
    Parser.climb len n layer.level (xs ++ rest) = .ok (e, rest) := by
  obtain ⟨m, hm, he⟩ := h.climb hn (Nat.le_refl _) hb
  obtain ⟨m, rfl⟩ : ∃ k, m = k + 1 := ⟨m - 1, by omega⟩
  rw [he, operators_stop hs]

theorem nextLevel_of_leftAssoc {op : BinOp} (h : op.rightAssoc = false) : nextLevel op = op.precedence + 1 := by
  simp [nextLevel, h]

/-- What stands behind a member of a repetition: its other operators, or what follows the whole. -/
theorem before_links {p : Nat} {links : List Link} {rest : List Token}
    (hs : ∀ k ∈ links, k.sign.binary? = some k.op ∧ k.op.precedence = p ∧ k.op.rightAssoc = false)
    (hb : Before (·.leftLevel ≤ p) rest) : Before (·.leftLevel ≤ p) (links.flatMap Link.tokens ++ rest) := by
  cases links with
  | nil => exact hb
  | cons k ks =>
    obtain ⟨ht, hp, ha⟩ := hs k (List.mem_cons_self ..)
    rw [List.flatMap_cons, Link.tokens, List.cons_append, List.cons_append, before_cons]
    intro op ho
    rw [ht] at ho
    cases ho
    simp [BinOp.leftLevel, ha, hp]

/-- The loop over the operators of one strength. -/
theorem operators_links {layer member : Layer} (hm : member.level = layer.level + 1)
    {links : List Link}
    (hs : ∀ k ∈ links, k.sign.binary? = some k.op ∧ k.op.precedence = layer.level ∧ k.op.rightAssoc = false)
    (hk : ∀ k ∈ links, Readable len member k.operand k.tree) {n level : Nat} {l : Expr}
    {rest : List Token}
    (hn : 2 * (links.flatMap Link.tokens ++ rest).length < n) (hle : level ≤ layer.level)
    (hb : Before (·.leftLevel ≤ layer.level) rest) :
    ∃ m, 2 * rest.length < m ∧
      operators len n level l (links.flatMap Link.tokens ++ rest) = operators len m level (links.foldl Link.join l) rest := by
  induction links generalizing n l with
  | nil => exact ⟨n, hn, rfl⟩
  | cons k ks ih =>
    obtain ⟨ht, hp, ha⟩ := hs k (List.mem_cons_self ..)
    have hs' := fun k' hk' => hs k' (List.mem_cons_of_mem _ hk')
    have hb' := before_links hs' hb
    have hstop : Before (·.precedence < member.level) (ks.flatMap Link.tokens ++ rest) := by
      refine hb'.mono fun op h => ?_
      have := precedence_le_leftLevel op
      omega
    simp only [List.flatMap_cons, Link.tokens, List.cons_append, List.append_assoc,
      List.length_cons, List.length_append] at hn ⊢
    obtain ⟨n, rfl⟩ : ∃ m, n = m + 1 := ⟨n - 1, by omega⟩
    have hread : climb len n (nextLevel k.op) (k.operand ++ (ks.flatMap Link.tokens ++ rest)) =
        .ok (k.tree, ks.flatMap Link.tokens ++ rest) := by
      rw [nextLevel_of_leftAssoc ha, hp, ← hm]
      refine (hk k (List.mem_cons_self ..)).stop ?_ (hb'.mono fun op h => by omega) hstop
      simp only [List.length_append]
      omega
    obtain ⟨m, hm', he⟩ :=
      ih hs' (fun k' hk' => hk k' (List.mem_cons_of_mem _ hk')) (n := n) (l := Link.join l k)
        (by simp only [List.length_append]; omega)
    refine ⟨m, hm', ?_⟩
    rw [operators_join ht (hp ▸ hle), hread]
    exact he

theorem unary?_of_kind {t : Token} (h : t.kind ≠ .symbol) : t.unary? = none := by
  unfold Token.unary?
  rw [if_neg h]

/-- An operand of one token. -/
theorem Readable.of_atom {t : Token} {e : Expr} (ht : t.unary? = none)
    (h : ∀ inner rest, atom len inner t rest = .ok (e, rest)) : Readable len .atom [t] e := by
  refine .of_unary (by simp) fun {n rest} hn => ?_
  simp only [List.length_append, List.length_cons, List.length_nil] at hn
  obtain ⟨n, rfl⟩ : ∃ m, n = m + 1 := ⟨n - 1, by omega⟩
  rw [List.singleton_append, unary_bare ht, h]

theorem Short.left {xs ys : List Token} (h : Short (xs ++ ys)) : Short xs :=
  fun t ht => h t (List.mem_append_left _ ht)

theorem Short.right {xs ys : List Token} (h : Short (xs ++ ys)) : Short ys :=
  fun t ht => h t (List.mem_append_right _ ht)

theorem Readable.implies {ls rs : List Token} {t : Token} {l r : Expr}
    (hl : Readable len .disjunction ls l) (ht : t.binary? = some .imp)
    (hr : Readable len .implication rs r) :
    Readable len .implication (ls ++ t :: rs) (.bin .imp l r) := by
  refine ⟨fun h => absurd h (by decide), fun {n level rest} hn hle hb => ?_⟩
  -- no operator at all may follow
  have hnone : Before (·.precedence < 1) rest := by
    refine hb.mono fun op h => ?_
    cases op <;> simp [BinOp.leftLevel, BinOp.rightAssoc, BinOp.precedence, Layer.level] at h
  have hb₂ : Before (·.leftLevel ≤ Layer.disjunction.level) (t :: (rs ++ rest)) := by
    rw [before_cons]
    intro op ho
    rw [ht] at ho
    cases ho
    decide
  have happ : ls ++ t :: rs ++ rest = ls ++ t :: (rs ++ rest) := by simp
  rw [happ] at hn ⊢
  have hle₂ : level ≤ Layer.disjunction.level := Nat.le_trans hle (by decide)
  obtain ⟨m, hm, he⟩ := hl.climb hn hle₂ hb₂
  simp only [List.length_cons] at hm
  obtain ⟨m, rfl⟩ : ∃ k, m = k + 1 := ⟨m - 1, by omega⟩
  have hread : Parser.climb len m (nextLevel .imp) (rs ++ rest) = .ok (r, rest) :=
    hr.stop (by omega) hb hnone
  rw [List.length_append] at hm
  refine ⟨m, by omega, ?_⟩
  rw [he, operators_join ht hle, hread]
  rfl

theorem Readable.group {o c : Token} {ts : List Token} {e : Expr}
    (ho : o.kind = .symbol ∧ o.text = "(") (hc : c.kind = .symbol ∧ c.text = ")")
    (h : Readable len .condition ts e) :
    Readable len .atom (o :: ts ++ [c]) e := by
  refine .of_unary (by simp) fun {n rest} hn => ?_
  have happ : o :: ts ++ [c] ++ rest = o :: (ts ++ c :: rest) := by simp
  rw [happ] at hn ⊢
  rw [List.length_cons] at hn
  obtain ⟨n, rfl⟩ : ∃ m, n = m + 1 := ⟨n - 1, by omega⟩
  have hu : o.unary? = none := by
    unfold Token.unary?
    rw [if_pos ho.1, ho.2]
    rfl
  have hclose : c.binary? = none := by
    unfold Token.binary?
    rw [if_pos hc.1, hc.2]
    rfl
  have hread : Parser.climb len n 1 (ts ++ c :: rest) = .ok (e, c :: rest) := by
    refine h.stop (by omega) ?_ ?_ <;> simp [before_cons, hclose]
  rw [unary_bare hu]
  unfold Parser.atom
  simp only [ho, if_true, hread]
  exact if_pos hc

theorem Readable.signed {t : Token} {op : UnOp} {ts : List Token} {e : Expr}
    (ht : t.unary? = some op) (hn : op = .neg → ∀ i ∈ ts.head?, i.kind ≠ .integer) (hne : ts ≠ [])
    (h : Readable len .unary ts e) :
    Readable len .unary (t :: ts) (.un op e) := by
  refine .of_unary (by simp) fun {n rest} hle => ?_
  rw [List.cons_append, List.length_cons] at hle
  obtain ⟨n, rfl⟩ : ∃ m, n = m + 1 := ⟨n - 1, by omega⟩
  have hn' : op = .neg → ∀ i ∈ (ts ++ rest).head?, i.kind ≠ .integer := by
    intro ho i hi
    refine hn ho i ?_
    cases ts with
    | nil => exact absurd rfl hne
    | cons x xs => exact hi
  rw [List.cons_append, unary_signed ht hn', h.unary (Nat.le_refl _) (by omega)]
  rfl

theorem Readable.negative {t i : Token} (ht : t.unary? = some .neg) (hi : i.kind = .integer)
    (hs : i.text.length ≤ Text.maxDigits) : Readable len .unary [t, i] (.num (-i.value)) := by
  refine .of_unary (by simp) fun {n rest} hn => ?_
  simp only [List.length_append, List.length_cons, List.length_nil] at hn
  obtain ⟨n, rfl⟩ : ∃ m, n = m + 1 := ⟨n - 1, by omega⟩
  rw [List.cons_append, List.singleton_append, unary_negative ht hi, numeral_of_short hs]
  rfl

theorem complete {layer : Layer} {xs : List Token} {e : Expr} (h : Derives layer xs e)
    (hx : Short xs) :
    Readable len layer xs e := by
  induction h with
  | single _ ih =>
    refine ⟨fun h => absurd h (by decide), fun {n level rest} hn hle hb => ?_⟩
    have hle₂ : level ≤ Layer.disjunction.level := Nat.le_trans hle (by decide)
    exact (ih hx).climb hn hle₂ (hb.mono fun op h => Nat.le_trans h (by decide))
  | implies _ ht _ ihl ihr => exact .implies (ihl hx.left) ht (ihr fun t ht => hx.right t (List.mem_cons_of_mem _ ht))
  | @chain layer member ops ts e links hc h hs _ ih ihk =>
    obtain ⟨hm, hops⟩ := Layer.chain?_eq_some hc
    have hs' : ∀ k ∈ links, k.sign.binary? = some k.op ∧ k.op.precedence = layer.level ∧ k.op.rightAssoc = false :=
      fun k hk => ⟨(hs k hk).2, hops k.op (hs k hk).1⟩
    have hk' : ∀ k ∈ links, Readable len member k.operand k.tree := by
      refine fun k hk => ihk k hk fun t ht => hx t (List.mem_append_right _ ?_)
      exact List.mem_flatMap.2 ⟨k, hk, List.mem_cons_of_mem _ ht⟩
    have hlt : layer.level < 8 := by
      cases layer <;> first | decide | cases hc
    refine ⟨fun h => absurd h (by omega), fun {n level rest} hn hle hb => ?_⟩
    have hb' : Before (·.leftLevel ≤ member.level) (links.flatMap Link.tokens ++ rest) :=
      (before_links hs' hb).mono fun op h => by omega
    rw [List.append_assoc] at hn ⊢
    have hle' : level ≤ member.level := by omega
    obtain ⟨m, hmn, he⟩ := (ih hx.left).climb hn hle' hb'
    obtain ⟨m', hm', he'⟩ := operators_links hm hs' hk' hmn hle hb
    exact ⟨m', hm', by rw [he, he']⟩
  | @negative t i ht hi => exact .negative ht hi (hx i (by simp) hi)
  | signed ht hn hd ih => exact .signed ht hn hd.ne_nil (ih fun t ht => hx t (List.mem_cons_of_mem _ ht))
  | bare hd ih => exact .of_unary hd.ne_nil fun hn => (ih hx).unary (by decide) hn
  | @integer t hk =>
    refine .of_atom (unary?_of_kind (by simp [hk])) fun inner rest => ?_
    unfold atom
    simp only [hk, numeral_of_short (hx t (by simp) hk)]
    rfl
  | boolean hk hb =>
    refine .of_atom (unary?_of_kind (by simp [hk])) fun inner rest => ?_
    unfold atom
    simp only [hk, hb, Option.getD_some]
  | identifier hk =>
    refine .of_atom (unary?_of_kind (by simp [hk])) fun inner rest => ?_
    unfold atom
    simp only [hk]
  | group ho hc _ ih => exact .group ho hc (ih fun t ht => hx t (by simp [ht]))

/-! ## refusals -/

/-- A computation fails at once, or in its second step. -/
theorem of_bind_error {ε α β : Type} {x : Except ε α} {f : α → Except ε β} {r : ε}
    (h : (x >>= f) = .error r) :
    x = .error r ∨ ∃ a, x = .ok a ∧ f a = .error r := by
  cases x with
  | error e =>
    cases h
    exact .inl rfl
  | ok a => exact .inr ⟨a, rfl, h⟩

/-- Nothing stands in the way of reading but the grammar. -/
structure Legible (ts : List Token) : Prop where
  spelled : Spelled ts
  short : Short ts

theorem Legible.rest {xs ts : List Token} (h : Legible (xs ++ ts)) : Legible ts :=
  ⟨h.spelled.rest, h.short.right⟩

theorem Legible.tail {t : Token} {ts : List Token} (h : Legible (t :: ts)) : Legible ts :=
  .rest (show Legible ([t] ++ ts) from h)

structure Refuses (len n : Nat) : Prop where
  unary : ∀ {ts r}, Legible ts → unary len n ts = .error r → r ≠ .tooLong
  climb : ∀ {level ts r}, Legible ts → level ≤ 8 → climb len n level ts = .error r → r ≠ .tooLong
  operators : ∀ {level l ts r}, Legible ts → operators len n level l ts = .error r → r ≠ .tooLong

theorem refuses_atom {inner : List Token → Result} {t : Token} {ts : List Token} {r : Refusal}
    (hl : Legible (t :: ts)) (h : atom len inner t ts = .error r)
    (hi : ∀ r, inner ts = .error r → r ≠ .tooLong) : r ≠ .tooLong := by
  unfold atom at h
  cases hk : t.kind with
  | integer =>
    simp only [hk, numeral_of_short (hl.short t (List.mem_cons_self ..) hk)] at h
    cases h
  | boolean => simp [hk] at h
  | identifier => simp [hk] at h
  | symbol =>
    simp only [hk] at h
    split at h
    · rcases of_bind_error h with h | ⟨⟨e, rest⟩, -, h⟩
      · exact hi r h
      · cases rest with
        | nil =>
          cases h
          exact nofun
        | cons c rest =>
          simp only at h
          split at h <;> cases h
          exact nofun
    · cases h
      exact nofun
  | finish =>
    simp only [hk] at h
    cases h
    exact nofun

theorem refuses_unary {n : Nat} (ih : Refuses len n) {ts : List Token} {r : Refusal}
    (hl : Legible ts) (h : unary len (n + 1) ts = .error r) : r ≠ .tooLong := by
  cases ts with
  | nil =>
    rw [Parser.unary] at h
    cases h
    exact nofun
  | cons t ts =>
    cases ht : t.unary? with
    | none =>
      rw [unary_bare ht] at h
      exact refuses_atom hl h fun r hr => ih.climb hl.tail (by decide) hr
    | some op =>
      rcases sign_cases op ts with ⟨i, ts', rfl, rfl, hi⟩ | hn
      · rw [unary_negative ht hi, numeral_of_short (hl.short i (by simp) hi)] at h
        cases h
      · rw [unary_signed ht hn] at h
        rcases of_bind_error h with h | ⟨p, -, h⟩
        · exact ih.unary hl.tail h
        · cases h

theorem refuses (len n : Nat) : Refuses len n := by
  induction n with
  | zero =>
    refine ⟨fun _ h => ?_, fun _ _ h => ?_, fun _ h => ?_⟩
    · rw [unary] at h; cases h; exact nofun
    · rw [climb] at h; cases h; exact nofun
    · rw [operators] at h; cases h; exact nofun
  | succ n ih =>
    refine ⟨refuses_unary ih, fun hl hle h => ?_, fun {level l ts r} hl h => ?_⟩
    · rw [climb_succ] at h
      rcases of_bind_error h with h | ⟨⟨l, rest⟩, hu, ho⟩
      · exact ih.unary hl h
      · obtain ⟨xs, rfl, -, -⟩ := (sound len n).unary hl.spelled hu
        exact ih.operators hl.rest ho
    · rcases next_cases level ts with hstop | ⟨t, ts, op, rfl, ht, hle⟩
      · rw [operators_stop hstop] at h
        cases h
      · rw [operators_join ht hle] at h
        rcases of_bind_error h with h | ⟨⟨e, rest⟩, hc, hj⟩
        · exact ih.climb hl.tail (nextLevel_le op) h
        · obtain ⟨⟨xs, rfl, -, -⟩, -⟩ := (sound len n).climb hl.tail.spelled hc (nextLevel_le op)
          exact ih.operators hl.tail.rest hj

/-! ## conditions -/

theorem condition_sound {ts : List Token} {e : Expr} (hs : Spelled ts)
    (h : condition len ts = .ok e) :
    Derives .condition ts e ∧ Short ts := by
  unfold condition at h
  split at h
  · cases h
  · obtain ⟨⟨e', rest⟩, hc, hend⟩ := exists_of_bind_ok h
    obtain ⟨⟨xs, rfl, hd, hx⟩, -⟩ := (sound len _).climb hs hc (by decide)
    cases rest with
    | nil =>
      cases hend
      rw [List.append_nil]
      exact ⟨hd, hx⟩
    | cons t rest => cases hend

theorem condition_complete {ts : List Token} {e : Expr} (h : Derives .condition ts e)
    (hx : Short ts) :
    condition len ts = .ok e := by
  have hread : climb len (4 * (ts.length + 1)) 1 (ts ++ []) = .ok (e, []) := by
    refine (complete h hx).stop ?_ ?_ ?_
    · simp only [List.append_nil]
      omega
    · simp [Before]
    · simp [Before]
  have hne : ts.isEmpty = false := by
    rw [List.isEmpty_eq_false_iff]
    exact h.ne_nil
  rw [List.append_nil] at hread
  unfold condition
  simp only [hne, hread]
  rfl

theorem condition_refused {ts : List Token} {r : Refusal} (hl : Legible ts)
    (h : condition len ts = .error r) :
    r ≠ .tooLong := by
  unfold condition at h
  split at h
  · cases h
    exact nofun
  · rcases of_bind_error h with h | ⟨⟨e, rest⟩, -, h⟩
    · exact (refuses len _).climb hl (by decide) h
    · cases rest with
      | nil => cases h
      | cons t rest =>
        cases h
        exact nofun

end ContractVerifier.Parser
