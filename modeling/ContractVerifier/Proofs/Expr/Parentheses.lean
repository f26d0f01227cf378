import ContractVerifier.Proofs.Expr.Openings

/-!
# Printed parentheses are necessary

A pair of parentheses in a text is given by what stands in front of it, between its members and
behind it.

* `Matched`, `Pair` : the members of a pair belong together.  A pair of a text that is put together
  from matched pieces lies in one of the pieces (`Pair.of_append`, `Pair.of_parenIf`);
* `Shows cs ns` : the characters `cs` are scanned into tokens with the openings `ns`;
* `falls_of_pair` : without one of its pairs, the text of an expression has not the openings that
  the expression asks for.
-/

namespace ContractVerifier

open Token

/-! ## pairs -/

/-- How deep inside of parentheses a text ends that starts at depth `d`. -/
def depth (d : Nat) : List Char → Option Nat
  | [] => some d
  | c :: cs =>
    if c = '(' then depth (d + 1) cs
    else if c = ')' then if d = 0 then none else depth (d - 1) cs
    else depth d cs

/-- Every parenthesis has its counterpart. -/
def Matched (cs : List Char) : Prop := depth 0 cs = some 0

instance (cs : List Char) : Decidable (Matched cs) := inferInstanceAs (Decidable (_ = _))

theorem depth_append (d : Nat) (as bs : List Char) : depth d (as ++ bs) = (depth d as).bind (depth · bs) := by
  induction as generalizing d with
  | nil => rfl
  | cons c as ih =>
    simp only [List.cons_append, depth]
    split
    · exact ih _
    · split
      · split
        · rfl
        · exact ih _
      · exact ih d

/-- A text that can be read at one depth can be read deeper inside. -/
theorem depth_add {m k : Nat} {cs : List Char} (h : depth m cs = some k) (d : Nat) : depth (d + m) cs = some (d + k) := by
  induction cs generalizing m with
  | nil =>
    cases h
    rfl
  | cons c cs ih =>
    simp only [depth] at h ⊢
    split at h
    · rename_i hc
      rw [if_pos hc]
      exact ih h
    · rename_i hc
      rw [if_neg hc]
      split at h
      · rename_i hc'
        rw [if_pos hc']
        split at h
        · cases h
        · rename_i hm
          rw [if_neg (by omega), Nat.add_sub_assoc (by omega)]
          exact ih h
      · rename_i hc'
        rw [if_neg hc']
        exact ih h

theorem Matched.depth_eq {cs : List Char} (h : Matched cs) (d : Nat) : depth d cs = some d :=
  depth_add h d

theorem Matched.append {as bs : List Char} (h : Matched as) (h' : Matched bs) : Matched (as ++ bs) := by
  unfold Matched at h ⊢
  rw [depth_append, h]
  exact h'

theorem Matched.group {cs : List Char} (h : Matched cs) : Matched ('(' :: (cs ++ [')'])) := by
  have hopen : depth 0 ('(' :: (cs ++ [')'])) = depth 1 (cs ++ [')']) := rfl
  rw [Matched, hopen, depth_append, h.depth_eq 1]
  rfl

/-- Without parentheses. -/
def Plain (cs : List Char) : Prop := ∀ c ∈ cs, c ≠ '(' ∧ c ≠ ')'

instance (cs : List Char) : Decidable (Plain cs) :=
  List.decidableBAll (fun c => c ≠ '(' ∧ c ≠ ')') cs

theorem Plain.matched {cs : List Char} (h : Plain cs) : Matched cs := by
  induction cs with
  | nil => rfl
  | cons c cs ih =>
    obtain ⟨hc, hcs⟩ := List.forall_mem_cons.1 h
    rw [Matched, depth, if_neg hc.1, if_neg hc.2]
    exact ih hcs

/-- A pair of parentheses that belong together. -/
structure Pair (cs before inside behind : List Char) : Prop where
  eq : cs = before ++ '(' :: (inside ++ ')' :: behind)
  matched : Matched inside

namespace Pair

variable {cs ds before inside behind : List Char}

theorem mem (h : Pair cs before inside behind) : '(' ∈ cs := by simp [h.eq]

theorem not_plain (h : Pair cs before inside behind) : ¬ Plain cs := fun hp => (hp _ h.mem).1 rfl

/-- A pair lies on one side of a seam. -/
theorem of_append (h : Pair (cs ++ ds) before inside behind) (hm : Matched cs) :
    (∃ rest, Pair cs before inside rest ∧ behind = rest ++ ds) ∨
      ∃ front, before = cs ++ front ∧ Pair ds front inside behind := by
  obtain ⟨heq, hin⟩ := h
  rcases List.append_eq_append_iff.1 heq with ⟨front, rfl, hds⟩ | ⟨rest, rfl, hrest⟩
  · exact .inr ⟨front, rfl, hds, hin⟩
  · cases rest with
    | nil => exact .inr ⟨[], by simp, by simpa using hrest.symm, hin⟩
    | cons c rest =>
      -- the first member is on the left, and the left side ends at depth zero
      rw [List.cons_append, List.cons.injEq] at hrest
      obtain ⟨rfl, hrest⟩ := hrest
      have hleft : (depth 0 before).bind (fun d => depth (d + 1) rest) = some 0 := by
        rw [Matched, depth_append] at hm
        exact hm
      obtain ⟨d, -, hd⟩ := Option.bind_eq_some_iff.1 hleft
      rcases List.append_eq_append_iff.1 hrest with ⟨tail, rfl, htail⟩ | ⟨tail, rfl, -⟩
      · cases tail with
        | nil =>
          rw [List.append_nil, hin.depth_eq] at hd
          cases hd
        | cons c tail =>
          obtain ⟨rfl, rfl⟩ := List.cons.inj htail
          exact .inl ⟨tail, ⟨rfl, hin⟩, rfl⟩
      · -- the left side would end between the members
        have hpart := hin
        rw [Matched, depth_append] at hpart
        obtain ⟨k, hk, -⟩ := Option.bind_eq_some_iff.1 hpart
        rw [← Nat.add_zero (d + 1), depth_add hk] at hd
        have := Option.some.inj hd
        omega

/-- The pair around a matched text, or a pair of the text itself. -/
theorem of_group (h : Pair ('(' :: (cs ++ [')'])) before inside behind) (hm : Matched cs) :
    (before = [] ∧ inside = cs ∧ behind = []) ∨
      ∃ front rest, Pair cs front inside rest ∧ before = '(' :: front ∧ behind = rest ++ [')'] := by
  obtain ⟨heq, hin⟩ := h
  cases before with
  | nil =>
    rw [List.nil_append, List.cons.injEq] at heq
    rcases List.append_eq_append_iff.1 heq.2 with ⟨tail, rfl, htail⟩ | ⟨tail, rfl, htail⟩
    · cases tail with
      | nil => exact .inl ⟨rfl, by simp, (List.cons.inj htail).2.symm⟩
      | cons c tail => simp at htail
    · cases tail with
      | nil => exact .inl ⟨rfl, by simp, (List.cons.inj htail).2⟩
      | cons c tail =>
        -- the text would close more than it opens
        obtain ⟨rfl, -⟩ := List.cons.inj htail
        rw [Matched, depth_append, hin] at hm
        cases hm
  | cons c front =>
    rw [List.cons_append, List.cons.injEq] at heq
    obtain ⟨rfl, heq⟩ := heq
    rcases of_append ⟨heq, hin⟩ hm with ⟨rest, hp, rfl⟩ | ⟨front', -, hp⟩
    · exact .inr ⟨front, rest, hp, rfl, rfl⟩
    · have hmem := hp.mem
      simp at hmem

end Pair

/-! ## openings of a text -/

/-- The characters are scanned into tokens with the openings `ns`. -/
def Shows (cs : List Char) (ns : List Nat) : Prop :=
  ∀ pos rest, Ends isWordChar rest → ∃ ts, Scans pos cs rest ts ∧ Weighs ts ns

/-- Characters in parentheses if `b`. -/
def wrapIf (b : Bool) (cs : List Char) : List Char := if b then '(' :: (cs ++ [')']) else cs

namespace Shows

variable {cs ls rs : List Char} {ns ms : List Nat}

theorem wrapIf (b : Bool) (h : Shows cs ns) : Shows (wrapIf b cs) (deepenIf b ns) := by
  cases b with
  | false => exact h
  | true =>
    intro pos rest _
    have hopen := scans_open pos (cs ++ [')'] ++ rest)
    obtain ⟨ts, hs, hw⟩ := h (pos + 1) ([')'] ++ rest) (ends_close rest)
    have hclose := scans_close (pos + 1 + cs.length) rest
    exact ⟨_, hopen.append (hs.append hclose), hw.group rfl rfl⟩

theorem bin (op : BinOp) (hl : Shows ls ns) (hr : Shows rs ms) (ho : Opens rs) :
    Shows (ls ++ ([' '] ++ (op.text.toList ++ ([' '] ++ rs)))) (ns ++ 0 :: ms) := by
  intro pos rest hend
  obtain ⟨ts, hs, hw⟩ := hl pos _ (ends_blank _)
  obtain ⟨t, us, hs', ht, hw'⟩ := exists_scans_operator hs (fun pos => hr pos rest hend) ho
  exact ⟨_, hs', hw.append (hw'.cons (solid_of_binary? ht))⟩

theorem un (op : UnOp) (h : Shows cs ns) (ho : Opens cs) : Shows (op.text.toList ++ cs) (0 :: ns) := by
  intro pos rest hend
  obtain ⟨t, hs, ht⟩ := exists_scans_unOp op pos ((ho.append rest).ends ne_equals_of_isOpening)
  obtain ⟨ts, hs', hw⟩ := h (pos + op.text.toList.length) rest hend
  exact ⟨_, hs.append hs', hw.cons (solid_of_unary? ht)⟩

end Shows

theorem shows_digits (n : Nat) : Shows (Nat.toDigits 10 n) [0] := by
  intro pos rest hend
  obtain ⟨t, hs, hk, -⟩ := exists_scans_digits n pos hend
  exact ⟨[t], hs, .single (solid_of_kind (by simp [hk]))⟩

theorem shows_word {x : String} (h : isIdentifier x = true) : Shows x.toList [0] := by
  intro pos rest hend
  obtain ⟨t, hs, -, ht⟩ := scans_word pos h hend
  refine ⟨[t], hs, .single (solid_of_text ?_ ?_)⟩ <;>
  · rintro heq
    rw [← ht, heq] at h
    exact absurd h (by decide)

/-- The openings in the text of an expression. -/
def Expr.shown : Expr → List Nat
  | lit v => (lit v).needs
  | var v => (var v).needs
  | bin op l r =>
    deepenIf (l.precedence < op.leftLevel) l.shown ++ 0 :: deepenIf (r.precedence < op.rightLevel) r.shown
  | un op e => 0 :: deepenIf (op = .neg && e.isIntLit || e.precedence < unaryPrecedence) e.shown

theorem toList_parenIf_eq (b : Bool) (s : String) : (parenIf b s).toList = wrapIf b s.toList :=
  toList_parenIf b s

theorem shows_literal (v : Value) : Shows (Expr.lit v).text.toList (Expr.lit v).needs := by
  cases v with
  | int n =>
    cases n with
    | ofNat n =>
      have ht : (Expr.lit (.int (.ofNat n))).text.toList = _ := toList_natural n
      have hn : (Expr.lit (.int (.ofNat n))).needs = [0] := Expr.needs_num_natural n
      rw [ht, hn]
      exact shows_digits n
    | negSucc n =>
      have ht : (Expr.lit (.int (.negSucc n))).text.toList = _ := toList_negative n
      have hn : (Expr.lit (.int (.negSucc n))).needs = [0, 0] := if_pos (Int.negSucc_lt_zero n)
      rw [ht, hn]
      exact (shows_digits (n + 1)).un .neg (opens_digits (n + 1))
  | bool b => cases b <;> exact shows_word rfl

theorem shows_text {e : Expr} (h : e.Named) : Shows e.text.toList e.shown := by
  induction e with
  | lit v => exact shows_literal v
  | var v => exact shows_word h
  | bin op l r ihl ihr =>
    rw [toList_bin, toList_parenIf_eq, toList_parenIf_eq]
    refine ((ihl h.1).wrapIf _).bin op ((ihr h.2).wrapIf _) ?_
    rw [← toList_parenIf_eq]
    exact opens_parenIf (opens_text h.2)
  | un op e ih =>
    simp only [Expr.text, String.toList_append, toList_parenIf_eq]
    refine ((ih h).wrapIf _).un op ?_
    rw [← toList_parenIf_eq]
    exact opens_parenIf (opens_text h)

/-! ## openings that are missing -/

/-- As many openings, but not all that are asked for. -/
def Undercuts (need ns : List Nat) : Prop :=
  need.length = ns.length ∧ ¬ List.Forall₂ (· ≤ ·) need ns

namespace Undercuts

variable {a b c d : List Nat}

theorem append_left (h : Undercuts a b) (hl : c.length = d.length) : Undercuts (a ++ c) (b ++ d) := by
  refine ⟨by simp [h.1, hl], fun hall => h.2 ?_⟩
  have hleft := List.forall₂_take_append _ _ _ hall
  rwa [← h.1, List.take_left] at hleft

theorem append_right (hl : a.length = b.length) (h : Undercuts c d) : Undercuts (a ++ c) (b ++ d) := by
  refine ⟨by simp [h.1, hl], fun hall => h.2 ?_⟩
  have hright := List.forall₂_drop_append _ _ _ hall
  rwa [← hl, List.drop_left] at hright

theorem deepenIf (t : Bool) (h : Undercuts a b) : Undercuts (deepenIf t a) (deepenIf t b) := by
  cases t with
  | false => exact h
  | true =>
    refine ⟨by simpa using h.1, fun hall => h.2 ?_⟩
    cases a with
    | nil =>
      rw [List.eq_nil_of_length_eq_zero h.1.symm]
      exact .nil
    | cons n a =>
      cases b with
      | nil => cases h.1
      | cons m b =>
        cases hall with
        | cons hle hall => exact .cons (Nat.le_of_add_le_add_right hle) hall

/-- One opening more is asked for at the front than there is. -/
theorem of_head (hh : a.head? = b.head?) (hl : a.length = b.length) (hne : a ≠ []) : Undercuts (deepen 1 a) b := by
  refine ⟨by simpa using hl, fun hall => ?_⟩
  cases a with
  | nil => exact hne rfl
  | cons n a =>
    cases hall with
    | cons hle _ =>
      cases hh
      exact Nat.not_succ_le_self _ hle

end Undercuts

theorem head?_deepenIf {b : Bool} {ns ms : List Nat} (h : ns.head? = ms.head?) :
    (deepenIf b ns).head? = (deepenIf b ms).head? := by
  cases b with
  | false => exact h
  | true =>
    cases ns <;> cases ms <;> simp_all [deepenIf, deepen]

theorem length_shown (e : Expr) : e.shown.length = e.needs.length := by
  induction e with
  | lit | var => rfl
  | bin op l r ihl ihr => simp [Expr.shown, Expr.needs, ihl, ihr]
  | un op e ih => simp [Expr.shown, Expr.needs, ih]

theorem needs_ne_nil (e : Expr) : e.needs ≠ [] := by
  cases e with
  | lit v =>
    cases v with
    | int n => unfold Expr.needs; split <;> simp
    | bool => simp [Expr.needs]
  | var | bin | un => simp [Expr.needs]

/-- A pair that is shown and not asked for stands behind a minus, so never at the front. -/
theorem head?_shown (e : Expr) : e.shown.head? = e.needs.head? := by
  induction e with
  | lit | var | un => rfl
  | bin op l r ihl ihr =>
    simp only [Expr.shown, Expr.needs, List.head?_append, head?_deepenIf ihl]
    rfl

/-! ## texts without a pair -/

/-- A negative literal behind a minus. -/
def Idle (before inside : List Char) : Prop :=
  before.getLast? = some '-' ∧ ∃ n : Int, n < 0 ∧ inside = (Expr.num n).text.toList

theorem Idle.of_append {front inside : List Char} (h : Idle front inside) (cs : List Char) : Idle (cs ++ front) inside := by
  refine ⟨?_, h.2⟩
  rw [List.getLast?_append, h.1]
  rfl

/-- The characters start an operand but lack an opening that is asked for. -/
def Falls (cs : List Char) (need : List Nat) : Prop :=
  ∃ ns, Opens cs ∧ Shows cs ns ∧ Undercuts need ns

theorem opens_wrapIf {b : Bool} {cs : List Char} (h : Opens cs) : Opens (wrapIf b cs) := by
  cases b with
  | false => exact h
  | true => exact ⟨'(', _, rfl, rfl⟩

theorem plain_of_isWordChar {cs : List Char} (h : ∀ c ∈ cs, isWordChar c = true) : Plain cs := by
  intro c hc
  constructor <;>
  · rintro rfl
    exact absurd (h _ hc) (by decide)

theorem plain_identifier {x : String} (h : isIdentifier x = true) : Plain x.toList := by
  unfold isIdentifier at h
  cases hxs : x.toList with
  | nil => exact nofun
  | cons c cs =>
    simp only [hxs, Bool.and_eq_true, List.all_eq_true, ← isLetter_eq, ← isWordChar_eq] at h
    refine plain_of_isWordChar (List.forall_mem_cons.2 ⟨?_, h.2⟩)
    simp [isWordChar, h.1]

theorem plain_digits (n : Nat) : Plain (Nat.toDigits 10 n) := by
  refine plain_of_isWordChar fun c hc => ?_
  have hd : isDigit c = true :=
    isDigit_eq c ▸ Nat.isDigit_of_mem_toDigits (by decide) (by decide) hc
  simp [isWordChar, hd]

theorem plain_literal (v : Value) : Plain (Expr.lit v).text.toList := by
  cases v with
  | int n =>
    cases n with
    | ofNat n =>
      have ht : (Expr.lit (.int (.ofNat n))).text.toList = _ := toList_natural n
      exact ht ▸ plain_digits n
    | negSucc n =>
      have ht : (Expr.lit (.int (.negSucc n))).text.toList = _ := toList_negative n
      exact ht ▸ List.forall_mem_cons.2 ⟨by decide, plain_digits (n + 1)⟩
  | bool b => cases b <;> decide

/-- What stands between two operands. -/
theorem plain_operator (op : BinOp) : Plain ([' '] ++ (op.text.toList ++ [' '])) := by
  cases op <;> decide

theorem plain_sign (op : UnOp) : Plain op.text.toList := by
  cases op <;> decide

theorem Matched.wrapIf {cs : List Char} (b : Bool) (h : Matched cs) : Matched (wrapIf b cs) := by
  cases b with
  | false => exact h
  | true => exact h.group

/-- The pieces of a text. -/
theorem toList_operator (op : BinOp) (l r : Expr) :
    (Expr.bin op l r).text.toList = wrapIf (l.precedence < op.leftLevel) l.text.toList ++
      (([' '] ++ (op.text.toList ++ [' '])) ++ wrapIf (r.precedence < op.rightLevel) r.text.toList) := by
  simp only [toList_bin, toList_parenIf_eq, List.append_assoc]

theorem toList_sign (op : UnOp) (e : Expr) : (Expr.un op e).text.toList = op.text.toList ++
    wrapIf (op = .neg && e.isIntLit || e.precedence < Expr.unaryPrecedence) e.text.toList := by
  simp only [Expr.text, String.toList_append, toList_parenIf_eq]

theorem matched_text {e : Expr} (h : e.Named) : Matched e.text.toList := by
  induction e with
  | lit v => exact (plain_literal v).matched
  | var v => exact (plain_identifier h).matched
  | bin op l r ihl ihr =>
    rw [toList_operator]
    exact ((ihl h.1).wrapIf _).append ((plain_operator op).matched.append ((ihr h.2).wrapIf _))
  | un op e ih =>
    rw [toList_sign]
    exact (plain_sign op).matched.append ((ih h).wrapIf _)

theorem falls_operand {e : Expr} (he : e.Named) {b : Bool} {before inside behind : List Char}
    (ih : ∀ front rest, Pair e.text.toList front inside rest → ¬ Idle front inside → Falls (front ++ inside ++ rest) e.needs)
    (h : Pair (wrapIf b e.text.toList) before inside behind) (hx : ¬ Idle before inside) :
    Falls (before ++ inside ++ behind) (deepenIf b e.needs) := by
  -- a pair of the operand itself
  have hinner : ∀ front rest, Pair e.text.toList front inside rest → ¬ Idle front inside →
      Falls (wrapIf b (front ++ inside ++ rest)) (deepenIf b e.needs) := by
    intro front rest hp hx
    obtain ⟨ns, ho, hs, hu⟩ := ih front rest hp hx
    exact ⟨_, opens_wrapIf ho, hs.wrapIf b, hu.deepenIf b⟩
  cases b with
  | false => exact hinner before behind h hx
  | true =>
    rcases h.of_group (matched_text he) with ⟨rfl, rfl, rfl⟩ | ⟨front, rest, hp, rfl, rfl⟩
    · rw [List.nil_append, List.append_nil]
      exact ⟨e.shown, opens_text he, shows_text he, .of_head (head?_shown e).symm (length_shown e).symm (needs_ne_nil e)⟩
    · have hfalls := hinner front rest hp fun hidle => hx (hidle.of_append ['('])
      simpa [wrapIf] using hfalls

theorem Falls.bin_left {cs : List Char} {need : List Nat} (h : Falls cs need) (op : BinOp)
    {r : Expr} (hr : r.Named) (b : Bool) :
    Falls (cs ++ (([' '] ++ (op.text.toList ++ [' '])) ++ wrapIf b r.text.toList)) (need ++ 0 :: deepenIf b r.needs) := by
  obtain ⟨ns, ho, hs, hu⟩ := h
  refine ⟨ns ++ 0 :: deepenIf b r.shown, ho.append _, ?_, hu.append_left (by simp [length_shown])⟩
  have hshow := hs.bin op ((shows_text hr).wrapIf b) (opens_wrapIf (opens_text hr))
  simpa only [List.append_assoc] using hshow

theorem Falls.bin_right {cs : List Char} {need : List Nat} (h : Falls cs need) (op : BinOp)
    {l : Expr} (hl : l.Named) (b : Bool) :
    Falls (wrapIf b l.text.toList ++ (([' '] ++ (op.text.toList ++ [' '])) ++ cs)) (deepenIf b l.needs ++ 0 :: need) := by
  obtain ⟨ns, ho, hs, hu⟩ := h
  refine ⟨deepenIf b l.shown ++ 0 :: ns, (opens_wrapIf (opens_text hl)).append _, ?_, ?_⟩
  · have hshow := ((shows_text hl).wrapIf b).bin op hs ho
    simpa only [List.append_assoc] using hshow
  · exact .append_right (by simp [length_shown]) (.append_right (a := [0]) (b := [0]) rfl hu)

theorem Falls.un {cs : List Char} {need : List Nat} (h : Falls cs need) (op : UnOp) :
    Falls (op.text.toList ++ cs) (0 :: need) := by
  obtain ⟨ns, ho, hs, hu⟩ := h
  refine ⟨0 :: ns, Opens.append ?_ cs, hs.un op ho, .append_right (a := [0]) (b := [0]) rfl hu⟩
  cases op <;> exact ⟨_, _, rfl, rfl⟩

/-- Parentheses behind a sign are asked for, or they are around a negative literal. -/
theorem sign_flag_cases (op : UnOp) (e : Expr) :
    (op = .neg && e.isIntLit || e.precedence < Expr.unaryPrecedence : Bool) =
        (op = .neg && e.isNatLit || e.precedence < Expr.unaryPrecedence : Bool) ∨
      op = .neg ∧ ∃ n < 0, e = .num n := by
  cases e with
  | lit v =>
    cases v with
    | int n =>
      by_cases hn : n < 0
      · cases op with
        | not => exact .inl rfl
        | neg => exact .inr ⟨rfl, n, hn, rfl⟩
      · exact .inl (by simp [Expr.isIntLit, Expr.isNatLit, Int.not_lt.1 hn])
    | bool => exact .inl rfl
  | var | bin | un => exact .inl rfl

theorem falls_of_pair {e : Expr} (he : e.Named) {before inside behind : List Char}
    (h : Pair e.text.toList before inside behind) (hx : ¬ Idle before inside) :
    Falls (before ++ inside ++ behind) e.needs := by
  induction e generalizing before behind with
  | lit v => exact absurd (plain_literal v) h.not_plain
  | var v => exact absurd (plain_identifier he) h.not_plain
  | bin op l r ihl ihr =>
    rw [toList_operator] at h
    rcases h.of_append ((matched_text he.1).wrapIf _) with ⟨rest, hp, rfl⟩ | ⟨front, rfl, hp⟩
    · have hfalls := falls_operand he.1 (fun _ _ => ihl he.1) hp hx
      simpa only [Expr.needs, List.append_assoc] using hfalls.bin_left op he.2 _
    · rcases hp.of_append (plain_operator op).matched with ⟨rest, hp', -⟩ | ⟨front', rfl, hp'⟩
      · exact absurd (plain_operator op) hp'.not_plain
      · have hx' : ¬ Idle front' inside := fun hi => hx ((hi.of_append _).of_append _)
        have hfalls := falls_operand he.2 (fun _ _ => ihr he.2) hp' hx'
        simpa only [Expr.needs, List.append_assoc] using hfalls.bin_right op he.1 _
  | un op e ih =>
    have he : e.Named := he
    rw [toList_sign] at h
    rcases h.of_append (plain_sign op).matched with ⟨rest, hp, -⟩ | ⟨front, rfl, hp⟩
    · exact absurd (plain_sign op) hp.not_plain
    · rcases sign_flag_cases op e with hflag | ⟨rfl, n, hn, rfl⟩
      · rw [hflag] at hp
        have hfalls := falls_operand he (fun _ _ => ih he) hp fun hi => hx (hi.of_append _)
        simpa only [Expr.needs, List.append_assoc] using hfalls.un op
      · -- the only pair is the one around the literal
        rcases Pair.of_group hp (matched_text he) with ⟨rfl, rfl, -⟩ | ⟨front', rest, hp', -⟩
        · exact absurd ⟨rfl, n, hn, rfl⟩ hx
        · exact absurd (plain_literal _) hp'.not_plain

/-- Without one of its pairs of parentheses, unless it is the pair around a negative literal behind
a minus, the text of an expression is not read as that expression. -/
theorem parentheses_necessary {e : Expr} (he : e.Named) {before inside behind : List Char}
    (ht : e.text.toList = before ++ '(' :: (inside ++ ')' :: behind)) (hm : Matched inside)
    (hx : ¬ (before.getLast? = some '-' ∧ ∃ n : Int, n < 0 ∧ inside = (Expr.num n).text.toList)) :
    parse (String.ofList (before ++ inside ++ behind)) ≠ .ok e := by
  intro hparse
  obtain ⟨ns, -, hshow, hl, hu⟩ := falls_of_pair he ⟨ht, hm⟩ hx
  obtain ⟨ts, hscan, hd, -⟩ := exists_scan_of_parse hparse
  obtain ⟨us, hs, hw⟩ := hshow 0 [] nofun
  rw [String.toList_ofList] at hscan
  rw [Scans, List.append_nil, scan_nil, hscan, Except.map, List.append_nil, Except.ok.injEq] at hs
  obtain ⟨ms, hw', hc⟩ := covers_of_derives hd
  obtain rfl : ms = ns := by rw [← hw'.openings_eq, hs, hw.openings_eq]
  exact hu (hc.2 hl)

/-- A difference that is subtracted, with a negative literal behind a minus in it. -/
theorem parentheses_difference :
    let e : Expr := .bin .sub (.var ⟨"x", .unknown⟩) (.bin .sub (.num 1) (.un .neg (.num (-3))))
    e.text = "x - (1 - -(-3))" ∧ parse "x - 1 - -(-3)" ≠ .ok e := by
  intro e
  have htext : e.text = "x - (1 - -(-3))" := by decide +kernel
  have hpair : e.text.toList = "x - ".toList ++ '(' :: ("1 - -(-3)".toList ++ ')' :: []) := by
    rw [htext]
    decide +kernel
  have hnamed : e.Named := ⟨show isIdentifier "x" = true by decide, trivial, trivial⟩
  have hne := parentheses_necessary hnamed hpair (by decide) fun h => absurd h.1 (by decide)
  exact ⟨htext, hne⟩

end ContractVerifier
