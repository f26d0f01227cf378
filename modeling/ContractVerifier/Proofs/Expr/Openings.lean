import ContractVerifier.Proofs.Expr.RoundTrip
import ContractVerifier.Proofs.Expr.Viable
import Mathlib.Data.List.Forall2

/-!
# Parentheses a tree cannot do without

Each token that is no parenthesis has a number of parentheses that open directly in front of it.

* `Weighs ts ns` : the tokens `ts` have the openings `ns`;
* `Expr.needs` : the openings that a tree asks for, by the strengths of its operators.  A negative
  literal below a minus asks for none;
* `Covers` : openings that are enough.  Zero can be written with a minus, and then there are more
  tokens than the tree asks for, so only lists of equal length are compared;
* `covers_of_derives` : all token lists of a tree have the openings it asks for.
-/

namespace ContractVerifier

open Token Parser.Place

/-! ## openings -/

namespace Token

/-- Neither of the parentheses. -/
def Solid (t : Token) : Prop := isOpen t = false ∧ isClose t = false

theorem solid_of_kind {t : Token} (h : t.kind ≠ .symbol) : t.Solid := by simp [Solid, isOpen, isClose, h]

theorem solid_of_text {t : Token} (ho : t.text ≠ "(") (hc : t.text ≠ ")") : t.Solid := by simp [Solid, isOpen, isClose, ho, hc]

theorem solid_of_binary? {t : Token} {op : BinOp} (h : t.binary? = some op) : t.Solid := by
  unfold binary? at h
  split at h
  · refine solid_of_text ?_ ?_ <;>
    · intro ht
      rw [ht] at h
      exact absurd h (by simp [BinOp.spellings, List.lookup_cons])
  · cases h

theorem solid_of_unary? {t : Token} {op : UnOp} (h : t.unary? = some op) : t.Solid := by
  unfold unary? at h
  split at h
  · refine solid_of_text ?_ ?_ <;>
    · intro ht
      rw [ht] at h
      exact absurd h (by simp [UnOp.spellings, List.lookup_cons])
  · cases h

/-- How many parentheses open in front of each other token, `d` of them already before the first
one. -/
def openings (d : Nat) : List Token → List Nat
  | [] => []
  | t :: ts =>
    if isOpen t then openings (d + 1) ts
    else if isClose t then openings d ts
    else d :: openings 0 ts

end Token

/-- `d` more openings at the front. -/
def deepen (d : Nat) : List Nat → List Nat
  | [] => []
  | n :: ns => (n + d) :: ns

@[simp] theorem length_deepen (d : Nat) (ns : List Nat) : (deepen d ns).length = ns.length := by cases ns <;> rfl

@[simp] theorem deepen_zero (ns : List Nat) : deepen 0 ns = ns := by cases ns <;> rfl

theorem deepen_deepen (d k : Nat) (ns : List Nat) : deepen d (deepen k ns) = deepen (k + d) ns := by
  cases ns with
  | nil => rfl
  | cons n ns => simp [deepen, Nat.add_assoc]

theorem deepen_append (d : Nat) {ns : List Nat} (h : ns ≠ []) (ms : List Nat) : deepen d (ns ++ ms) = deepen d ns ++ ms := by
  cases ns with
  | nil => exact absurd rfl h
  | cons n ns => rfl

/-- One more opening at the front if `b`. -/
def deepenIf (b : Bool) (ns : List Nat) : List Nat := if b then deepen 1 ns else ns

@[simp] theorem length_deepenIf (b : Bool) (ns : List Nat) : (deepenIf b ns).length = ns.length := by
  cases b <;> simp [deepenIf]

/-- The tokens have the openings `ns`, whatever opens in front of them, and nothing is left open
behind them. -/
structure Weighs (ts : List Token) (ns : List Nat) : Prop where
  ne_nil : ns ≠ []
  eq : ∀ d rest, openings d (ts ++ rest) = deepen d ns ++ openings 0 rest

namespace Weighs

variable {ts us : List Token} {ns ms : List Nat}

theorem openings_eq (h : Weighs ts ns) : openings 0 ts = ns := by simpa [openings] using h.eq 0 []

theorem single {t : Token} (h : t.Solid) : Weighs [t] [0] := by
  refine ⟨by simp, fun d rest => ?_⟩
  simp [openings, h.1, h.2, deepen]

theorem append (h : Weighs ts ns) (h' : Weighs us ms) : Weighs (ts ++ us) (ns ++ ms) := by
  refine ⟨by simp [h.ne_nil], fun d rest => ?_⟩
  rw [List.append_assoc, h.eq, h'.eq, deepen_zero, deepen_append d h.ne_nil, List.append_assoc]

theorem cons {t : Token} (ht : t.Solid) (h : Weighs ts ns) : Weighs (t :: ts) (0 :: ns) :=
  (single ht).append h

theorem group {o c : Token} (ho : isOpen o = true) (hc : isClose c = true) (h : Weighs ts ns) :
    Weighs (o :: ts ++ [c]) (deepen 1 ns) := by
  have hco : isOpen c = false := by
    simp only [isClose, Bool.and_eq_true, decide_eq_true_eq] at hc
    simp [isOpen, hc.2]
  refine ⟨?_, fun d rest => ?_⟩
  · rw [← List.length_pos_iff, length_deepen, List.length_pos_iff]
    exact h.ne_nil
  · rw [List.cons_append, List.cons_append, List.append_assoc, openings, if_pos ho, h.eq,
      deepen_deepen, Nat.add_comm 1 d]
    simp [openings, hc, hco]

end Weighs

/-! ## what is enough -/

/-- More tokens than `need` has openings, or as many and all the openings. -/
def Covers (need ns : List Nat) : Prop :=
  need.length ≤ ns.length ∧ (need.length = ns.length → List.Forall₂ (· ≤ ·) need ns)

namespace Covers

variable {a b c d : List Nat}

theorem append (h : Covers a b) (h' : Covers c d) : Covers (a ++ c) (b ++ d) := by
  obtain ⟨hle, hall⟩ := h
  obtain ⟨hle', hall'⟩ := h'
  refine ⟨by simp only [List.length_append]; omega, fun heq => ?_⟩
  simp only [List.length_append] at heq
  exact List.rel_append (hall (by omega)) (hall' (by omega))

theorem refl (a : List Nat) : Covers a a :=
  ⟨Nat.le_refl _, fun _ => List.forall₂_same.2 fun _ _ => Nat.le_refl _⟩

theorem of_length_lt (h : a.length < b.length) : Covers a b :=
  ⟨Nat.le_of_lt h, fun heq => absurd h (Nat.not_lt.2 heq.ge)⟩

theorem cons (n : Nat) (h : Covers a b) : Covers (n :: a) (n :: b) := (refl [n]).append h

theorem deepen (n : Nat) (h : Covers a b) : Covers (deepen n a) (deepen n b) := by
  refine ⟨by simpa using h.1, fun heq => ?_⟩
  rw [length_deepen, length_deepen] at heq
  cases h.2 heq with
  | nil => exact .nil
  | cons hle hall => exact .cons (Nat.add_le_add_right hle n) hall

theorem of_deepen {n : Nat} (h : Covers (ContractVerifier.deepen n a) b) : Covers a b := by
  refine ⟨by simpa using h.1, fun heq => ?_⟩
  have hall := h.2 (by rwa [length_deepen])
  cases a with
  | nil => exact hall
  | cons k a =>
    cases hall with
    | cons hle hall => exact .cons (Nat.le_of_add_right_le hle) hall

/-- What is enough in parentheses is enough without. -/
theorem weaken {s t : Bool} (h : Covers (deepenIf t a) b) (hst : s = true → t = true) : Covers (deepenIf s a) b := by
  cases s with
  | true => rwa [hst rfl] at h
  | false =>
    cases t with
    | true => exact h.of_deepen
    | false => exact h

end Covers

/-! ## what a tree asks for -/

namespace Expr

def isNatLit : Expr → Bool
  | lit (.int n) => 0 ≤ n
  | _ => false

/-- The openings in front of the tokens of a tree that all of its texts have. -/
def needs : Expr → List Nat
  | lit (.int n) => if n < 0 then [0, 0] else [0]
  | lit (.bool _) => [0]
  | var _ => [0]
  | bin op l r =>
    deepenIf (l.precedence < op.leftLevel) l.needs ++ 0 :: deepenIf (r.precedence < op.rightLevel) r.needs
  | un op e => 0 :: deepenIf (op = .neg && e.isNatLit || e.precedence < unaryPrecedence) e.needs

/-- The openings in a place that asks for strength `k`. -/
def needsAt (k : Nat) (e : Expr) : List Nat := deepenIf (e.precedence < k) e.needs

theorem needsAt_one (e : Expr) : e.needsAt 1 = e.needs := by
  have h : ¬ e.precedence < 1 := Nat.not_lt.2 (precedence_pos e)
  simp [needsAt, deepenIf, h]

theorem needs_num_natural (n : Nat) : (num n).needs = [0] := by
  have h : ¬ (n : Int) < 0 := by omega
  simp [num, needs, h]

end Expr

theorem Covers.lower {k m : Nat} {e : Expr} {ns : List Nat} (h : Covers (e.needsAt k) ns)
    (hm : m ≤ k) :
    Covers (e.needsAt m) ns := by
  refine h.weaken fun hlt => ?_
  rw [decide_eq_true_eq] at hlt ⊢
  omega

/-! ## derivations -/

/-- The tokens have openings that are enough for `e` in a place that asks for strength `k`. -/
def Enough (k : Nat) (ts : List Token) (e : Expr) : Prop :=
  ∃ ns, Weighs ts ns ∧ Covers (e.needsAt k) ns

theorem Enough.lower {k m : Nat} {ts : List Token} {e : Expr} (h : Enough k ts e) (hm : m ≤ k) : Enough m ts e := by
  obtain ⟨ns, hw, hc⟩ := h
  exact ⟨ns, hw, hc.lower hm⟩

theorem Enough.bin {op : BinOp} {ls rs : List Token} {t : Token} {l r : Expr}
    (hl : Enough op.leftLevel ls l) (ht : t.binary? = some op) (hr : Enough op.rightLevel rs r) :
    Enough op.precedence (ls ++ t :: rs) (.bin op l r) := by
  obtain ⟨ns, hw, hc⟩ := hl
  obtain ⟨ms, hw', hc'⟩ := hr
  refine ⟨ns ++ 0 :: ms, hw.append (hw'.cons (solid_of_binary? ht)), ?_⟩
  have hself : (Expr.bin op l r).needsAt op.precedence = l.needsAt op.leftLevel ++ 0 :: r.needsAt op.rightLevel := by
    simp [Expr.needsAt, Expr.needs, Expr.precedence, deepenIf]
  rw [hself]
  exact hc.append (hc'.cons 0)

/-- A repetition nests to the left. -/
theorem Enough.foldl {k : Nat} {links : List Link} {ts : List Token} {e : Expr} (h : Enough k ts e)
    (hs : ∀ l ∈ links, l.sign.binary? = some l.op ∧ l.op.precedence = k ∧ l.op.rightAssoc = false)
    (hk : ∀ l ∈ links, Enough (k + 1) l.operand l.tree) :
    Enough k (ts ++ links.flatMap Link.tokens) (links.foldl Link.join e) := by
  induction links generalizing ts e with
  | nil => simpa using h
  | cons l links ih =>
    obtain ⟨⟨hsign, rfl, hassoc⟩, hs⟩ := List.forall_mem_cons.1 hs
    obtain ⟨hone, hk⟩ := List.forall_mem_cons.1 hk
    have hl : l.op.leftLevel = l.op.precedence := by simp [BinOp.leftLevel, hassoc]
    have hr : l.op.rightLevel = l.op.precedence + 1 := by simp [BinOp.rightLevel, hassoc]
    have hbin : Enough l.op.precedence (ts ++ l.sign :: l.operand) (.bin l.op e l.tree) :=
      .bin (hl ▸ h) hsign (hr ▸ hone)
    have hrest := ih hbin hs hk
    simpa [Link.tokens, Link.join] using hrest

/-- What is known of a derivation; behind a minus, a literal that is not negative has parentheses
around it. -/
structure Bounded (layer : Layer) (ts : List Token) (e : Expr) : Prop where
  enough : Enough (min layer.level 8) ts e
  natural : 8 ≤ layer.level → e.isNatLit = true → (∀ i ∈ ts.head?, i.kind ≠ .integer) →
    ∃ ns, Weighs ts ns ∧ Covers (deepen 1 e.needs) ns

/-- In the looser layers there is nothing to show of literals. -/
theorem Bounded.of_lt {layer : Layer} {ts : List Token} {e : Expr} (h : Enough layer.level ts e)
    (hl : layer.level < 8) :
    Bounded layer ts e := by
  refine ⟨?_, fun h8 => absurd hl (Nat.not_lt.2 h8)⟩
  rwa [Nat.min_eq_left (Nat.le_of_lt hl)]

theorem needsAt_of_le {k : Nat} {e : Expr} (h : k ≤ e.precedence) : e.needsAt k = e.needs := by
  simp [Expr.needsAt, deepenIf, Nat.not_lt.2 h]

theorem enough_atom {t : Token} (h : t.Solid) {e : Expr} (hn : e.needs = [0])
    (hp : e.precedence = Expr.atomPrecedence) :
    Enough 8 [t] e := by
  refine ⟨[0], .single h, ?_⟩
  rw [needsAt_of_le (hp ▸ by decide), hn]
  exact .refl [0]

theorem bounded_negative {t i : Token} (ht : t.unary? = some .neg) (hi : i.kind = .integer) :
    Bounded .unary [t, i] (.num (-i.value)) := by
  have hw : Weighs [t, i] [0, 0] :=
    (Weighs.single (solid_of_kind (by simp [hi]))).cons (solid_of_unary? ht)
  have hat : (Expr.num (-i.value)).needsAt 8 = (Expr.num (-i.value)).needs :=
    needsAt_of_le (Nat.le_succ 8)
  by_cases hneg : -(i.value : Int) < 0
  · have hneeds : (Expr.num (-i.value)).needs = [0, 0] := if_pos hneg
    refine ⟨⟨_, hw, ?_⟩, fun _ he _ => ?_⟩
    · exact (hat.trans hneeds).symm ▸ .refl _
    · exact absurd hneg (Int.not_lt.2 (of_decide_eq_true he))
  · -- zero has one token less than its text here
    have hneeds : (Expr.num (-i.value)).needs = [0] := if_neg hneg
    refine ⟨⟨_, hw, .of_length_lt ?_⟩, fun _ _ _ => ⟨_, hw, .of_length_lt ?_⟩⟩
    · exact (hat.trans hneeds).symm ▸ by decide
    · exact hneeds.symm ▸ by decide

theorem bounded_signed {t : Token} {op : UnOp} {ts : List Token} {e : Expr}
    (ht : t.unary? = some op) (hn : op = .neg → ∀ i ∈ ts.head?, i.kind ≠ .integer)
    (h : Bounded .unary ts e) : Bounded .unary (t :: ts) (.un op e) := by
  have hat : (Expr.un op e).needsAt 8 = (Expr.un op e).needs := needsAt_of_le (Nat.le_refl 8)
  refine ⟨?_, fun _ he => Bool.noConfusion he⟩
  by_cases hlit : op = .neg ∧ e.isNatLit = true
  · obtain ⟨ns, hw, hc⟩ := h.natural (by decide) hlit.2 (hn hlit.1)
    refine ⟨0 :: ns, hw.cons (solid_of_unary? ht), ?_⟩
    have hneeds : (Expr.un op e).needs = 0 :: deepen 1 e.needs := by
      simp [Expr.needs, deepenIf, hlit]
    exact (hat.trans hneeds).symm ▸ hc.cons 0
  · obtain ⟨ns, hw, hc⟩ := h.enough
    refine ⟨0 :: ns, hw.cons (solid_of_unary? ht), ?_⟩
    have hfalse : (decide (op = .neg) && e.isNatLit) = false := by simpa using hlit
    have hneeds : (Expr.un op e).needs = 0 :: e.needsAt 8 := by
      simp only [Expr.needs, hfalse, Bool.false_or]
      rfl
    exact (hat.trans hneeds).symm ▸ hc.cons 0

theorem bounded_group {o c : Token} {ts : List Token} {e : Expr} (ho : isOpen o = true)
    (hc : isClose c = true) (h : Bounded .condition ts e) : Bounded .atom (o :: ts ++ [c]) e := by
  obtain ⟨ns, hw, hcov⟩ := h.enough
  have hin : Covers (deepenIf true e.needs) (deepen 1 ns) := (e.needsAt_one ▸ hcov).deepen 1
  exact ⟨⟨_, hw.group ho hc, hin.weaken fun _ => rfl⟩, fun _ _ _ => ⟨_, hw.group ho hc, hin⟩⟩

theorem bounded_of_derives {layer : Layer} {ts : List Token} {e : Expr} (h : Derives layer ts e) : Bounded layer ts e := by
  induction h with
  | single _ ih => exact .of_lt (ih.enough.lower (by decide)) (by decide)
  | implies _ ht _ ihl ihr => exact .of_lt (.bin ihl.enough ht ihr.enough) (by decide)
  | @chain layer member ops ts e links hc _ hs _ ih ihk =>
    obtain ⟨hlevel, hops⟩ := Layer.chain?_eq_some hc
    have h8 : layer.level < 8 := by
      cases layer <;> first | decide | cases hc
    refine .of_lt (.foldl (ih.enough.lower (by omega)) (fun l hl => ?_) fun l hl => ?_) h8
    · exact ⟨(hs l hl).2, hops _ (hs l hl).1⟩
    · exact (ihk l hl).enough.lower (by omega)
  | negative ht hi => exact bounded_negative ht hi
  | signed ht hn _ ih => exact bounded_signed ht hn ih
  | bare _ ih => exact ⟨ih.enough, fun _ => ih.natural (by decide)⟩
  | @integer t h =>
    refine ⟨enough_atom (solid_of_kind (by simp [h])) (Expr.needs_num_natural _) rfl, fun _ _ hn => ?_⟩
    exact absurd h (hn t rfl)
  | boolean h => exact ⟨enough_atom (solid_of_kind (by simp [h])) rfl rfl, fun _ he => Bool.noConfusion he⟩
  | identifier h => exact ⟨enough_atom (solid_of_kind (by simp [h])) rfl rfl, fun _ he => Bool.noConfusion he⟩
  | group ho hc _ ih => exact bounded_group (by simp [isOpen, ho]) (by simp [isClose, hc]) ih

/-- All token lists of a tree have the openings it asks for. -/
theorem covers_of_derives {ts : List Token} {e : Expr} (h : Derives .condition ts e) :
    ∃ ns, Weighs ts ns ∧ Covers e.needs ns := by
  obtain ⟨ns, hw, hc⟩ := (bounded_of_derives h).enough
  exact ⟨ns, hw, e.needsAt_one ▸ hc⟩

end ContractVerifier
