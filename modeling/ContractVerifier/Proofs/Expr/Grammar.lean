import ContractVerifier.Expr.Parser

/-!
# The layered grammar of conditions

    condition   := implication
    implication := disjunction ( '==>' implication )?
    disjunction := conjunction ( '||' conjunction )*
    conjunction := equality ( '&&' equality )*
    equality    := relation ( ( '==' | '!=' ) relation )*
    relation    := additive ( ( '<' | '<=' | '>' | '>=' ) additive )*
    additive    := term ( ( '+' | '-' ) term )*
    term        := unary ( ( '*' | '/' | '%' ) unary )*
    unary       := '-' integer | ( '!' | '-' ) unary | atom
    atom        := integer | 'true' | 'false' | identifier | '(' condition ')'

* `Derives layer ts e` : the tokens `ts` derive from `layer`, and `e` is the tree of the derivation.
  Repetitions nest to the left, implications to the right, and a minus in front of an integer
  belongs to the literal.
* `Derives.loosen` : what derives from a layer derives from all looser ones;
* `derives_bin` : operators by their strength, whatever the layer is called.
-/

namespace ContractVerifier

/-- The layers, from the loosest to the tightest. -/
inductive Layer where
  | implication | disjunction | conjunction | equality | relation | additive | term | unary | atom
deriving DecidableEq

namespace Layer

abbrev condition : Layer := implication

/-- The layers that are repetitions: the operators between the members, and the layer of the
members. -/
def chain? : Layer → Option (List BinOp × Layer)
  | disjunction => some ([.or], conjunction)
  | conjunction => some ([.and], equality)
  | equality => some ([.eq, .ne], relation)
  | relation => some ([.lt, .le, .gt, .ge], additive)
  | additive => some ([.add, .sub], term)
  | term => some ([.mul, .div, .mod], unary)
  | _ => none

end Layer

namespace Token

/-- An operator and the operand behind it, as they stand in a repetition. -/
structure Link where
  sign : Token
  op : BinOp
  operand : List Token
  tree : Expr

def Link.tokens (k : Link) : List Token := k.sign :: k.operand

/-- What is joined to a tree on its left. -/
def Link.join (l : Expr) (k : Link) : Expr := .bin k.op l k.tree

/-- The value of the digits of an integer. -/
def value (t : Token) : Nat := Nat.ofDigitChars 10 t.text.toList 0

end Token

open Token

inductive Derives : Layer → List Token → Expr → Prop where
  | single {ts : List Token} {e : Expr} (h : Derives .disjunction ts e) : Derives .implication ts e
  | implies {ls rs : List Token} {t : Token} {l r : Expr} (hl : Derives .disjunction ls l)
      (ht : t.binary? = some .imp) (hr : Derives .implication rs r) :
      Derives .implication (ls ++ t :: rs) (.bin .imp l r)
  | chain {layer member : Layer} {ops : List BinOp} {ts : List Token} {e : Expr} {links : List Link}
      (hc : layer.chain? = some (ops, member)) (h : Derives member ts e)
      (hs : ∀ k ∈ links, k.op ∈ ops ∧ k.sign.binary? = some k.op) (hk : ∀ k ∈ links, Derives member k.operand k.tree) :
      Derives layer (ts ++ links.flatMap Link.tokens) (links.foldl Link.join e)
  | negative {t i : Token} (ht : t.unary? = some .neg) (hi : i.kind = .integer) :
      Derives .unary [t, i] (.num (-i.value))
  | signed {t : Token} {op : UnOp} {ts : List Token} {e : Expr} (ht : t.unary? = some op)
      (hn : op = .neg → ∀ i ∈ ts.head?, i.kind ≠ .integer) (h : Derives .unary ts e) :
      Derives .unary (t :: ts) (.un op e)
  | bare {ts : List Token} {e : Expr} (h : Derives .atom ts e) : Derives .unary ts e
  | integer {t : Token} (h : t.kind = .integer) : Derives .atom [t] (.num t.value)
  | boolean {t : Token} {b : Bool} (h : t.kind = .boolean) (hb : booleanSpellings.lookup t.text = some b) :
      Derives .atom [t] (.lit (.bool b))
  | identifier {t : Token} (h : t.kind = .identifier) : Derives .atom [t] (.var ⟨t.text, .unknown⟩)
  | group {o c : Token} {ts : List Token} {e : Expr} (ho : o.kind = .symbol ∧ o.text = "(")
      (hc : c.kind = .symbol ∧ c.text = ")") (h : Derives .condition ts e) : Derives .atom (o :: ts ++ [c]) e

/-! ## layers by strength -/

namespace Layer

/-- The strength of the operators of a layer, as `BinOp.precedence` counts it. -/
def level : Layer → Nat
  | implication => 1
  | disjunction => 2
  | conjunction => 3
  | equality => 4
  | relation => 5
  | additive => 6
  | term => 7
  | unary => 8
  | atom => 9

def ofLevel : Nat → Layer
  | 0 | 1 => implication
  | 2 => disjunction
  | 3 => conjunction
  | 4 => equality
  | 5 => relation
  | 6 => additive
  | 7 => term
  | 8 => unary
  | _ => atom

/-- The members of a repetition bind tighter by one, and its operators have its strength. -/
theorem chain?_eq_some {layer member : Layer} {ops : List BinOp}
    (h : layer.chain? = some (ops, member)) :
    member.level = layer.level + 1 ∧ ∀ op ∈ ops, op.precedence = layer.level ∧ op.rightAssoc = false := by
  cases layer <;> simp only [chain?, Option.some.injEq, Prod.mk.injEq, reduceCtorEq] at h <;> obtain ⟨rfl, rfl⟩ := h
  all_goals
    refine ⟨rfl, fun op ho => ?_⟩
    simp only [List.mem_cons, List.not_mem_nil, or_false] at ho
  · subst ho; exact ⟨rfl, rfl⟩
  · subst ho; exact ⟨rfl, rfl⟩
  · rcases ho with rfl | rfl <;> exact ⟨rfl, rfl⟩
  · rcases ho with rfl | rfl | rfl | rfl <;> exact ⟨rfl, rfl⟩
  · rcases ho with rfl | rfl <;> exact ⟨rfl, rfl⟩
  · rcases ho with rfl | rfl | rfl <;> exact ⟨rfl, rfl⟩

/-- The operators that nest to the left have a repetition of their own. -/
theorem exists_chain? {op : BinOp} (h : op.rightAssoc = false) :
    ∃ ops, (ofLevel op.precedence).chain? = some (ops, ofLevel (op.precedence + 1)) ∧ op ∈ ops := by
  cases op with
  | imp => cases h
  | _ => exact ⟨_, rfl, by simp⟩

end Layer

namespace Derives

variable {ts : List Token} {e : Expr}

theorem ne_nil {layer : Layer} (h : Derives layer ts e) : ts ≠ [] := by
  induction h with
  | single _ ih => exact ih
  | implies => simp
  | chain _ _ _ _ ih _ => simp [ih]
  | bare _ ih => exact ih
  | negative | signed | integer | boolean | identifier | group => simp

theorem loosen_one {k : Nat} (h : Derives (.ofLevel (k + 1)) ts e) : Derives (.ofLevel k) ts e := by
  -- a repetition may consist of its first member only
  have alone {layer member : Layer} {ops : List BinOp} (hc : layer.chain? = some (ops, member))
      (h : Derives member ts e) : Derives layer ts e := by
    have hd : Derives layer (ts ++ [].flatMap Link.tokens) ([].foldl Link.join e) :=
      .chain hc h (by simp) (by simp)
    simpa using hd
  match k with
  | 0 => exact h
  | 1 => exact .single h
  | 2 => exact alone rfl h
  | 3 => exact alone rfl h
  | 4 => exact alone rfl h
  | 5 => exact alone rfl h
  | 6 => exact alone rfl h
  | 7 => exact alone rfl h
  | 8 => exact .bare h
  | k + 9 => exact h

theorem loosen {k m : Nat} (h : Derives (.ofLevel k) ts e) (hm : m ≤ k) : Derives (.ofLevel m) ts e := by
  obtain ⟨d, rfl⟩ := Nat.exists_eq_add_of_le hm
  induction d with
  | zero => exact h
  | succ d ih => exact ih h.loosen_one (Nat.le_add_right m d)

end Derives

/-- A repetition goes on to the right. -/
theorem Derives.append {layer member : Layer} {ops : List BinOp} {op : BinOp} {ls rs : List Token}
    {t : Token} {l r : Expr} (hl : Derives layer ls l) (hc : layer.chain? = some (ops, member))
    (ho : op ∈ ops) (ht : t.binary? = some op) (hr : Derives member rs r) :
    Derives layer (ls ++ t :: rs) (.bin op l r) := by
  cases hl with
  | @chain _ _ _ ts e links hc' h hs hk =>
    rw [hc] at hc'
    cases hc'
    let last : Link := ⟨t, op, rs, r⟩
    have hs' : ∀ k ∈ links ++ [last], k.op ∈ ops ∧ k.sign.binary? = some k.op := by
      intro k hm
      rcases List.mem_append.1 hm with hm | hm
      · exact hs k hm
      · rw [List.mem_singleton] at hm
        subst hm
        exact ⟨ho, ht⟩
    have hk' : ∀ k ∈ links ++ [last], Derives member k.operand k.tree := by
      intro k hm
      rcases List.mem_append.1 hm with hm | hm
      · exact hk k hm
      · rw [List.mem_singleton] at hm
        subst hm
        exact hr
    have hd := Derives.chain hc h hs' hk'
    simpa [Link.tokens, Link.join, last] using hd
  | _ => cases hc

/-- Operands of the strengths an operator asks for. -/
theorem derives_bin {op : BinOp} {ls rs : List Token} {t : Token} {l r : Expr}
    (hl : Derives (.ofLevel op.leftLevel) ls l) (ht : t.binary? = some op)
    (hr : Derives (.ofLevel op.rightLevel) rs r) : Derives (.ofLevel op.precedence) (ls ++ t :: rs) (.bin op l r) := by
  cases ha : op.rightAssoc with
  | false =>
    have hll : op.leftLevel = op.precedence := by simp [BinOp.leftLevel, ha]
    have hrl : op.rightLevel = op.precedence + 1 := by simp [BinOp.rightLevel, ha]
    rw [hll] at hl
    rw [hrl] at hr
    obtain ⟨ops, hc, ho⟩ := Layer.exists_chain? ha
    exact hl.append hc ho ht hr
  | true =>
    cases op with
    | imp => exact .implies hl ht hr
    | _ => cases ha

end ContractVerifier
