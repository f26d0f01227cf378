import ContractVerifier.Proofs.Expr.Climb

/-!
# Which tokens may come next

Strengths decide about the tree of a condition, not about whether there is one: for that it is
enough to know if an operand is awaited, and how many parentheses are open.

* `Place` : what is known in front of a token; `Place.next` goes over one token and `walk` over
  many;
* `walk_of_derives` : tokens that derive from a layer lead from an awaited operand to a complete
  one;
* `Stuck` : where and how the readers give up, by `Place.next`; `stuck_condition` says so of every
  refusal;
* `derives_of_walk` : conversely, tokens that lead from the start to a complete condition derive
  from one.
-/

namespace ContractVerifier.Parser

open Token

variable {len : Nat}

/-! ## places -/

/-- In front of an operand or behind one, inside of so many parentheses. -/
inductive Place where
  | before (depth : Nat)
  | behind (depth : Nat)
deriving DecidableEq

namespace Place

/-- What stands for an operand by itself. -/
def isOperand (t : Token) : Bool := t.kind = .integer || t.kind = .boolean || t.kind = .identifier

def isOpen (t : Token) : Bool := t.kind = .symbol && t.text = "("

def isClose (t : Token) : Bool := t.kind = .symbol && t.text = ")"

/-- The place behind a token that may stand here. -/
def next : Place → Token → Option Place
  | before d, t =>
    if isOperand t then some (behind d)
    else if t.unary?.isSome then some (before d)
    else if isOpen t then some (before (d + 1))
    else none
  | behind d, t =>
    if t.binary?.isSome then some (before d)
    else if isClose t && 0 < d then some (behind (d - 1))
    else none

def walk (p : Place) (ts : List Token) : Option Place := ts.foldlM next p

theorem walk_cons (p : Place) (t : Token) (ts : List Token) : p.walk (t :: ts) = (p.next t).bind (·.walk ts) := rfl

theorem walk_append (p : Place) (xs ys : List Token) :
    p.walk (xs ++ ys) = (p.walk xs).bind (·.walk ys) :=
  List.foldlM_append

theorem walk_cons_of_next {p q : Place} {t : Token} {ts : List Token} (h : p.next t = some q) :
    p.walk (t :: ts) = q.walk ts := by rw [walk_cons, h, Option.bind_some]

theorem walk_append_of_walk {p q : Place} {xs ys : List Token} (h : p.walk xs = some q) :
    p.walk (xs ++ ys) = q.walk ys := by rw [walk_append, h, Option.bind_some]

/-! one token -/

theorem next_operand {t : Token} (d : Nat) (h : isOperand t = true) : (before d).next t = some (behind d) := if_pos h

theorem isOperand_of_symbol {t : Token} (h : t.kind = .symbol) : isOperand t = false := by simp [isOperand, h]

theorem next_unary {t : Token} {op : UnOp} (d : Nat) (h : t.unary? = some op) : (before d).next t = some (before d) := by
  unfold next
  simp [isOperand_of_symbol (kind_of_unary? h), h]

theorem unary?_of_isOpen {t : Token} (h : isOpen t = true) : t.unary? = none := by
  simp only [isOpen, Bool.and_eq_true, decide_eq_true_eq] at h
  unfold Token.unary?
  rw [if_pos h.1, h.2]
  rfl

theorem binary?_of_isClose {t : Token} (h : isClose t = true) : t.binary? = none := by
  simp only [isClose, Bool.and_eq_true, decide_eq_true_eq] at h
  unfold Token.binary?
  rw [if_pos h.1, h.2]
  rfl

theorem next_open {t : Token} (d : Nat) (h : isOpen t = true) : (before d).next t = some (before (d + 1)) := by
  have hsymbol : t.kind = .symbol := by simp_all [isOpen]
  unfold next
  simp [isOperand_of_symbol hsymbol, unary?_of_isOpen h, h]

theorem next_binary {t : Token} {op : BinOp} (d : Nat) (h : t.binary? = some op) : (behind d).next t = some (before d) := by
  unfold next
  simp [h]

theorem next_close {t : Token} (d : Nat) (h : isClose t = true) : (behind (d + 1)).next t = some (behind d) := by
  unfold next
  simp [binary?_of_isClose h, h]

end Place

open Place

/-! ## derivations -/

/-- The members of a repetition and the operators between them. -/
theorem walk_links {d : Nat} {links : List Link} (hs : ∀ k ∈ links, ∃ op, k.sign.binary? = some op)
    (hk : ∀ k ∈ links, (before d).walk k.operand = some (behind d)) :
    (behind d).walk (links.flatMap Link.tokens) = some (behind d) := by
  induction links with
  | nil => rfl
  | cons k ks ih =>
    obtain ⟨⟨op, hop⟩, hs⟩ := List.forall_mem_cons.1 hs
    obtain ⟨hoperand, hk⟩ := List.forall_mem_cons.1 hk
    rw [List.flatMap_cons, Link.tokens, List.cons_append, walk_cons_of_next (next_binary d hop),
      walk_append_of_walk hoperand]
    exact ih hs hk

theorem walk_of_derives {layer : Layer} {ts : List Token} {e : Expr} (h : Derives layer ts e)
    (d : Nat) :
    (before d).walk ts = some (behind d) := by
  induction h generalizing d with
  | single _ ih => exact ih d
  | implies _ ht _ ihl ihr => rw [walk_append_of_walk (ihl d), walk_cons_of_next (next_binary d ht), ihr d]
  | chain _ _ hs _ ih ihk =>
    rw [walk_append_of_walk (ih d)]
    exact walk_links (fun k hk => ⟨k.op, (hs k hk).2⟩) fun k hk => ihk k hk d
  | negative ht hi =>
    rw [walk_cons_of_next (next_unary d ht),
      walk_cons_of_next (next_operand d (by simp [isOperand, hi]))]
    rfl
  | signed ht _ _ ih => rw [walk_cons_of_next (next_unary d ht), ih d]
  | bare _ ih => exact ih d
  | integer hk | boolean hk | identifier hk => exact walk_cons_of_next (next_operand d (by simp [isOperand, hk]))
  | group ho hc _ ih =>
    rw [List.cons_append, walk_cons_of_next (next_open d (by simp [isOpen, ho])),
      walk_append_of_walk (ih (d + 1)),
      walk_cons_of_next (next_close d (by simp [isClose, hc]))]
    rfl

/-! ## refusals -/

/-- From `p` on, the tokens were gone over up to one that may not stand where it does, or all of
them without coming to the end of a condition; `r` says so. -/
inductive Stuck (len : Nat) (p : Place) (ts : List Token) (r : Refusal) : Prop where
  | token {q : Place} {cause : ParseCause} {xs rest : List Token} {t : Token} (hts : ts = xs ++ t :: rest)
      (hxs : p.walk xs = some q) (ht : q.next t = none) (hr : r = refuse cause t)
  | finish {q : Place} {cause : ParseCause} (hts : p.walk ts = some q) (hq : q ≠ behind 0) (hr : r = refuseEnd cause len)

theorem Stuck.append {p q : Place} {xs ts : List Token} {r : Refusal} (hxs : p.walk xs = some q)
    (h : Stuck len q ts r) :
    Stuck len p (xs ++ ts) r := by
  cases h with
  | @token q' cause ys rest t hts hys ht hr =>
    have happ : xs ++ ts = (xs ++ ys) ++ t :: rest := by rw [hts, List.append_assoc]
    exact .token happ ((walk_append_of_walk hxs).trans hys) ht hr
  | finish hts hq hr => exact .finish ((walk_append_of_walk hxs).trans hts) hq hr

theorem Stuck.cons {p q : Place} {t : Token} {ts : List Token} {r : Refusal}
    (ht : p.next t = some q) (h : Stuck len q ts r) : Stuck len p (t :: ts) r := by
  have hone : p.walk [t] = some q := walk_cons_of_next ht
  exact h.append hone

theorem Stuck.here {p : Place} {t : Token} {ts : List Token} (cause : ParseCause)
    (ht : p.next t = none) :
    Stuck len p (t :: ts) (refuse cause t) := by
  have hfront : t :: ts = [] ++ t :: ts := rfl
  exact .token hfront rfl ht rfl

/-- No operator comes next. -/
theorem binary?_of_before {t : Token} {ts : List Token} (h : Before (·.precedence < 1) (t :: ts)) : t.binary? = none := by
  cases ht : t.binary? with
  | none => rfl
  | some op =>
    have := before_cons.1 h op ht
    have := precedence_pos op
    omega

/-- How the readers give up, with a bound on the depth of calls that is not met. -/
structure GivesUp (len n : Nat) : Prop where
  unary : ∀ {ts r}, Legible ts → 2 * ts.length ≤ n → unary len n ts = .error r → ∀ d, Stuck len (before d) ts r
  climb : ∀ {level ts r}, Legible ts → level ≤ 8 → 2 * ts.length < n → climb len n level ts = .error r →
    ∀ d, Stuck len (before d) ts r
  operators : ∀ {level l ts r}, Legible ts → 2 * ts.length < n → operators len n level l ts = .error r →
    ∀ d, Stuck len (behind d) ts r

theorem stuck_atom {inner : List Token → Result} {t : Token} {ts : List Token} {r : Refusal}
    (hl : Legible (t :: ts)) (hu : t.unary? = none) (h : atom len inner t ts = .error r) (d : Nat)
    (hfail : ∀ r, inner ts = .error r → Stuck len (before (d + 1)) ts r)
    (hread : ∀ e rest, inner ts = .ok (e, rest) → Took .condition ts e rest ∧ Before (·.precedence < 1) rest) :
    Stuck len (before d) (t :: ts) r := by
  unfold atom at h
  cases hk : t.kind with
  | integer =>
    simp only [hk, numeral_of_short (hl.short t (List.mem_cons_self ..) hk)] at h
    cases h
  | boolean => simp [hk] at h
  | identifier => simp [hk] at h
  | symbol =>
    simp only [hk] at h
    split at h
    · rename_i ho
      have hopen : (before d).next t = some (before (d + 1)) :=
        next_open d (by simp [isOpen, hk, ho])
      refine .cons hopen ?_
      rcases of_bind_error h with hin | ⟨⟨e, rest⟩, hin, hrest⟩
      · exact hfail r hin
      · obtain ⟨⟨xs, rfl, hd, -⟩, hb⟩ := hread e rest hin
        refine .append (walk_of_derives hd (d + 1)) ?_
        cases rest with
        | nil =>
          cases hrest
          exact .finish rfl (by simp) rfl
        | cons c rest =>
          simp only at hrest
          split at hrest
          · cases hrest
          · rename_i hc
            cases hrest
            refine .here _ ?_
            unfold next
            simp_all [binary?_of_before hb, isClose]
    · rename_i ho
      cases h
      refine .here _ ?_
      unfold next
      simp [isOperand_of_symbol hk, hu, isOpen, ho]
  | finish =>
    simp only [hk] at h
    cases h
    refine .here _ ?_
    unfold next
    simp [isOperand, hu, isOpen, hk]

theorem stuck_unary {n : Nat} (ih : GivesUp len n) {ts : List Token} {r : Refusal} (hl : Legible ts)
    (hn : 2 * ts.length ≤ n + 1) (h : unary len (n + 1) ts = .error r) (d : Nat) : Stuck len (before d) ts r := by
  cases ts with
  | nil =>
    rw [Parser.unary] at h
    cases h
    exact .finish rfl (by simp) rfl
  | cons t ts =>
    rw [List.length_cons] at hn
    cases ht : t.unary? with
    | none =>
      rw [unary_bare ht] at h
      refine stuck_atom hl ht h d (fun r hr => ih.climb hl.tail (by decide) (by omega) hr (d + 1)) fun e rest hr => ?_
      exact (sound len n).climb hl.tail.spelled hr (by decide)
    | some op =>
      rcases sign_cases op ts with ⟨i, ts', rfl, rfl, hi⟩ | hsign
      · rw [unary_negative ht hi, numeral_of_short (hl.short i (by simp) hi)] at h
        cases h
      · rw [unary_signed ht hsign] at h
        refine .cons (next_unary d ht) ?_
        rcases of_bind_error h with h | ⟨p, -, h⟩
        · exact ih.unary hl.tail (by omega) h d
        · cases h

theorem gives_up (len n : Nat) : GivesUp len n := by
  induction n with
  | zero =>
    refine ⟨fun {ts r} _ hn h d => ?_, fun _ _ hn => absurd hn (Nat.not_lt_zero _), fun _ hn => absurd hn (Nat.not_lt_zero _)⟩
    have hnil : ts = [] := List.length_eq_zero_iff.1 (by omega)
    rw [Parser.unary] at h
    cases h
    subst hnil
    exact .finish rfl (by simp) rfl
  | succ n ih =>
    refine ⟨stuck_unary ih, fun {level ts r} hl hle hn h d => ?_, fun {level l ts r} hl hn h d => ?_⟩
    · rw [climb_succ] at h
      rcases of_bind_error h with h | ⟨⟨l, rest⟩, hu, ho⟩
      · exact ih.unary hl (by omega) h d
      · obtain ⟨xs, rfl, hd, -⟩ := (sound len n).unary hl.spelled hu
        have hpos := List.length_pos_iff.2 hd.ne_nil
        rw [List.length_append] at hn
        exact .append (walk_of_derives hd d) (ih.operators hl.rest (by omega) ho d)
    · rcases next_cases level ts with hstop | ⟨t, ts, op, rfl, ht, hle⟩
      · rw [operators_stop hstop] at h
        cases h
      · rw [operators_join ht hle] at h
        rw [List.length_cons] at hn
        refine .cons (next_binary d ht) ?_
        rcases of_bind_error h with h | ⟨⟨e, rest⟩, hc, hj⟩
        · exact ih.climb hl.tail (nextLevel_le op) (by omega) h d
        · obtain ⟨⟨xs, rfl, hd, -⟩, -⟩ := (sound len n).climb hl.tail.spelled hc (nextLevel_le op)
          rw [List.length_append] at hn
          exact .append (walk_of_derives hd d) (ih.operators hl.tail.rest (by omega) hj d)

/-- A refusal is about the first token that may not stand where it does, or about the end. -/
theorem stuck_condition {ts : List Token} {r : Refusal} (hl : Legible ts)
    (h : condition len ts = .error r) :
    Stuck len (before 0) ts r := by
  unfold condition at h
  split at h
  · rename_i hempty
    cases h
    rw [List.isEmpty_iff.1 hempty]
    exact .finish rfl (by simp) rfl
  · rcases of_bind_error h with hc | ⟨⟨e, rest⟩, hc, hrest⟩
    · exact (gives_up len _).climb hl (by decide) (by omega) hc 0
    · obtain ⟨⟨xs, rfl, hd, -⟩, hb⟩ := (sound len _).climb hl.spelled hc (by decide)
      cases rest with
      | nil => cases hrest
      | cons t rest =>
        cases hrest
        refine .token rfl (walk_of_derives hd 0) ?_ rfl
        unfold next
        simp [binary?_of_before hb]

/-- No refusal of tokens that lead to the end of a condition. -/
theorem derives_of_walk {ts : List Token} (hl : Legible ts)
    (h : (before 0).walk ts = some (behind 0)) :
    ∃ e, Derives .condition ts e := by
  cases hc : condition 0 ts with
  | ok e => exact ⟨e, (condition_sound hl.spelled hc).1⟩
  | error r =>
    cases stuck_condition hl hc with
    | token hts hxs ht _ =>
      rw [hts, walk_append_of_walk hxs, walk_cons, ht] at h
      cases h
    | finish hts hq _ =>
      rw [h] at hts
      cases hts
      exact absurd rfl hq

end ContractVerifier.Parser
