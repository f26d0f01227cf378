import ContractVerifier.Proofs.Expr.Recognition
import Mathlib.Tactic.Ring

/-!
# Printed expressions are read back

The text of an expression is scanned into tokens that derive it from the layer of its strength
(`Spelling`): parentheses stand exactly where an operand would derive from a looser layer than its
place asks for.  So the parser gives the expression back, as long as its literals and names can be
written at all (`Spellable`); and all that the parser gives can be written.
-/

namespace ContractVerifier

open Token

/-- Literals that are short enough to be read, and names that are read as such. -/
def Expr.Spellable : Expr → Prop
  | .lit (.int n) => (Nat.toDigits 10 n.natAbs).length ≤ Text.maxDigits
  | .lit (.bool _) => True
  | .var v => v.type = .unknown ∧ isIdentifier v.name = true ∧ v.name ∉ reserved
  | .bin _ l r => l.Spellable ∧ r.Spellable
  | .un _ e => e.Spellable

/-- All names are words. -/
def Expr.Named : Expr → Prop
  | .lit _ => True
  | .var v => isIdentifier v.name = true
  | .bin _ l r => l.Named ∧ r.Named
  | .un _ e => e.Named

theorem Expr.Spellable.named {e : Expr} (h : e.Spellable) : e.Named := by
  induction e with
  | lit => trivial
  | var => exact h.2.1
  | bin _ _ _ ihl ihr => exact ⟨ihl h.1, ihr h.2⟩
  | un _ _ ih => exact ih h

/-- The characters `cs` in front of `rest` are scanned into tokens `ts`, which derive `e`. -/
structure Spelling (pos : Nat) (cs rest : List Char) (level : Nat) (e : Expr) (ts : List Token) :
    Prop where
  scans : Scans pos cs rest ts
  derives : Derives (.ofLevel level) ts e
  short : Parser.Short ts

/-- The characters are a text of `e`, in front of all that does not go on a word. -/
def Spells (cs : List Char) (level : Nat) (e : Expr) : Prop :=
  ∀ pos rest, Ends isWordChar rest → ∃ ts, Spelling pos cs rest level e ts

/-! ## tokens -/

section

variable {rest : List Char}

theorem scans_blank (pos : Nat) (hr : Ends Text.isBlank rest) : Scans pos [' '] rest [] := by
  have hl : lexeme ' ' ([] ++ rest) = some (.blank, 0) := lexeme_blank rfl hr
  exact Scans.lexeme hl

theorem scans_open (pos : Nat) (rest : List Char) : Scans pos ['('] rest [⟨.symbol, "(", pos, pos + 1⟩] := by
  have hl : lexeme '(' ([] ++ rest) = some (.symbol, 0) := rfl
  exact Scans.lexeme hl

theorem scans_close (pos : Nat) (rest : List Char) : Scans pos [')'] rest [⟨.symbol, ")", pos, pos + 1⟩] := by
  have hl : lexeme ')' ([] ++ rest) = some (.symbol, 0) := rfl
  exact Scans.lexeme hl

/-- A word does not go on with a parenthesis or a blank. -/
theorem ends_close (rest : List Char) : Ends isWordChar ([')'] ++ rest) := by
  intro d hd
  cases hd
  rfl

theorem ends_blank (rest : List Char) : Ends isWordChar ([' '] ++ rest) := by
  intro d hd
  cases hd
  rfl

theorem exists_scans_binOp (op : BinOp) (pos : Nat) (rest : List Char) :
    ∃ t, Scans pos op.text.toList (' ' :: rest) [t] ∧ t.binary? = some op := by
  obtain ⟨c, cs, hop, hl⟩ := exists_lexeme_binOp op rest
  refine ⟨⟨.symbol, op.text, pos, pos + cs.length + 1⟩, ?_, by cases op <;> rfl⟩
  have hs : Scans pos (c :: cs) (' ' :: rest) _ := .lexeme hl
  rw [← hop, String.ofList_toList] at hs
  exact hs

theorem exists_scans_unOp (op : UnOp) (pos : Nat) (hr : Ends (· == '=') rest) :
    ∃ t, Scans pos op.text.toList rest [t] ∧ t.unary? = some op := by
  obtain ⟨c, hop, hl⟩ := exists_lexeme_unOp op hr
  refine ⟨⟨.symbol, op.text, pos, pos + 1⟩, ?_, by cases op <;> rfl⟩
  have hs : Scans pos (c :: []) rest _ := .lexeme hl
  rw [← hop, String.ofList_toList] at hs
  exact hs

theorem ends_isDigit (hr : Ends isWordChar rest) : Ends isDigit rest := by
  intro d hd
  have := hr d hd
  rw [isWordChar, Bool.or_eq_false_iff] at this
  exact this.2

/-- The digits of a number are one token. -/
theorem exists_scans_digits (n pos : Nat) (hr : Ends isWordChar rest) :
    ∃ t : Token, Scans pos (Nat.toDigits 10 n) rest [t] ∧ t.kind = .integer ∧ t.value = n ∧
      t.text.length = (Nat.toDigits 10 n).length := by
  have hdigit : ∀ d ∈ Nat.toDigits 10 n, isDigit d = true := by
    intro d hd
    rw [isDigit_eq]
    exact Nat.isDigit_of_mem_toDigits (by decide) (by decide) hd
  have hvalue : Nat.ofDigitChars 10 (Nat.toDigits 10 n) 0 = n := Nat.ofDigitChars_ten_toDigits
  cases hds : Nat.toDigits 10 n with
  | nil => exact absurd hds Nat.toDigits_ne_nil
  | cons c cs =>
    rw [hds] at hvalue
    rw [hds, List.forall_mem_cons] at hdigit
    refine ⟨⟨.integer, String.ofList (c :: cs), pos, pos + cs.length + 1⟩, ?_, rfl, ?_, String.length_ofList⟩
    · exact Scans.lexeme (lexeme_integer hdigit.1 hdigit.2 (ends_isDigit hr))
    · rw [Token.value, String.toList_ofList, hvalue]

theorem scans_word {x : String} (pos : Nat) (hx : isIdentifier x = true)
    (hr : Ends isWordChar rest) :
    ∃ t : Token, Scans pos x.toList rest [t] ∧ t.kind = wordKind x ∧ t.text = x := by
  unfold isIdentifier at hx
  cases hxs : x.toList with
  | nil => simp [hxs] at hx
  | cons c cs =>
    simp only [hxs, Bool.and_eq_true, List.all_eq_true, ← isLetter_eq, ← isWordChar_eq] at hx
    refine ⟨⟨wordKind x, x, pos, pos + cs.length + 1⟩, ?_, rfl, rfl⟩
    have hs : Scans pos (c :: cs) rest _ := .lexeme (lexeme_word hx.1 hx.2 hr)
    rw [← hxs, String.ofList_toList] at hs
    rw [← hxs]
    exact hs

end

/-- A word that is not reserved is a name. -/
theorem wordKind_of_notMem {x : String} (hi : isIdentifier x = true) (hr : x ∉ reserved) : wordKind x = .identifier := by
  -- the spellings that are words are all reserved
  have hbin : ∀ p ∈ BinOp.spellings, isIdentifier p.1 = true → p.1 ∈ reserved := by decide +kernel
  have hun : ∀ p ∈ UnOp.spellings, isIdentifier p.1 = true → p.1 ∈ reserved := by decide +kernel
  have hbool : ∀ p ∈ booleanSpellings, isIdentifier p.1 = true → p.1 ∈ reserved := by decide +kernel
  have hnone {α : Type} {l : List (String × α)} (h : ∀ p ∈ l, isIdentifier p.1 = true → p.1 ∈ reserved) :
      l.lookup x = none := by
    rw [List.lookup_eq_none_iff]
    intro p hp
    rw [bne_iff_ne]
    rintro rfl
    exact hr (h p hp hi)
  unfold wordKind
  rw [hnone hbin, hnone hun, hnone hbool]
  rfl

/-! ## first characters -/

/-- What an operand starts with. -/
def isOpening (c : Char) : Bool := isLetter c || isDigit c || c == '-' || c == '(' || c == '!'

/-- The characters start an operand. -/
def Opens (cs : List Char) : Prop := ∃ c ds, cs = c :: ds ∧ isOpening c = true

theorem Opens.append {cs : List Char} (h : Opens cs) (rest : List Char) : Opens (cs ++ rest) := by
  obtain ⟨c, ds, rfl, hc⟩ := h
  exact ⟨c, ds ++ rest, rfl, hc⟩

theorem Opens.ends {cs : List Char} (h : Opens cs) {p : Char → Bool}
    (hp : ∀ c, isOpening c = true → p c = false) :
    Ends p cs := by
  obtain ⟨c, ds, rfl, hc⟩ := h
  intro d hd
  cases hd
  exact hp c hc

theorem isBlank_of_isOpening (c : Char) (h : isOpening c = true) : Text.isBlank c = false := by
  simp only [isOpening, Bool.or_eq_true, beq_iff_eq] at h
  rcases h with (((h | h) | rfl) | rfl) | rfl
  · exact isBlank_of_isLetter h
  · exact isBlank_of_isDigit h
  all_goals rfl

theorem ne_equals_of_isOpening (c : Char) (h : isOpening c = true) : (c == '=') = false := by
  rw [beq_eq_false_iff_ne]
  rintro rfl
  exact absurd h (by decide)

theorem opens_digits (n : Nat) : Opens (Nat.toDigits 10 n) := by
  cases hds : Nat.toDigits 10 n with
  | nil => exact absurd hds Nat.toDigits_ne_nil
  | cons c cs =>
    have hc : c.isDigit = true :=
      Nat.isDigit_of_mem_toDigits (by decide) (by decide) (hds ▸ List.mem_cons_self ..)
    rw [← isDigit_eq] at hc
    exact ⟨c, cs, rfl, by simp [isOpening, hc]⟩

theorem opens_identifier {x : String} (h : isIdentifier x = true) : Opens x.toList := by
  unfold isIdentifier at h
  cases hxs : x.toList with
  | nil => simp [hxs] at h
  | cons c cs =>
    simp only [hxs, Bool.and_eq_true, ← isLetter_eq] at h
    exact ⟨c, cs, rfl, by simp [isOpening, h.1]⟩

theorem toList_parenIf (b : Bool) (s : String) :
    (parenIf b s).toList = if b then '(' :: (s.toList ++ [')']) else s.toList := by
  unfold parenIf
  split <;> simp

theorem opens_parenIf {b : Bool} {s : String} (h : Opens s.toList) : Opens (parenIf b s).toList := by
  rw [toList_parenIf]
  split
  · exact ⟨'(', _, rfl, rfl⟩
  · exact h

theorem toList_natural (n : Nat) : (toString (Int.ofNat n)).toList = Nat.toDigits 10 n := by
  simp [Int.toString_eq_repr, Int.repr]

theorem toList_negative (n : Nat) : (toString (Int.negSucc n)).toList = '-' :: Nat.toDigits 10 (n + 1) := by
  simp [Int.toString_eq_repr, Int.repr]

theorem toList_bin (op : BinOp) (l r : Expr) :
    (Expr.bin op l r).text.toList = (parenIf (l.precedence < op.leftLevel) l.text).toList ++
      ([' '] ++ (op.text.toList ++ ([' '] ++ (parenIf (r.precedence < op.rightLevel) r.text).toList))) := by
  have hb : " ".toList = [' '] := rfl
  simp only [Expr.text, String.toList_append, hb, List.append_assoc]

theorem opens_text {e : Expr} (h : e.Named) : Opens e.text.toList := by
  induction e with
  | lit v =>
    cases v with
    | int n =>
      cases n with
      | ofNat n => exact toList_natural n ▸ opens_digits n
      | negSucc n => exact ⟨'-', _, toList_negative n, rfl⟩
    | bool b => cases b <;> exact ⟨_, _, rfl, rfl⟩
  | var v => exact opens_identifier h
  | bin op l r ihl ihr =>
    rw [toList_bin]
    exact (opens_parenIf (ihl h.1)).append _
  | un op e ih =>
    simp only [Expr.text, String.toList_append]
    refine Opens.append ?_ _
    cases op <;> exact ⟨_, _, rfl, rfl⟩

/-! ## expressions -/

theorem Parser.short_of_kind {t : Token} (h : t.kind ≠ .integer) : Parser.Short [t] := by
  intro u hu hk
  rw [List.mem_singleton.1 hu] at hk
  exact absurd hk h

theorem Parser.short_of_length {t : Token} (h : t.text.length ≤ Text.maxDigits) : Parser.Short [t] := by
  intro u hu _
  rw [List.mem_singleton.1 hu]
  exact h

theorem spells_natural {n : Nat} (h : (Nat.toDigits 10 n).length ≤ Text.maxDigits) :
    Spells (Nat.toDigits 10 n) 9 (.num n) := by
  intro pos rest hr
  obtain ⟨t, hs, hk, hv, hx⟩ := exists_scans_digits n pos hr
  exact ⟨[t], hs, hv ▸ .integer hk, Parser.short_of_length (hx ▸ h)⟩

theorem spells_negative {n : Nat} (h : (Nat.toDigits 10 n).length ≤ Text.maxDigits) :
    Spells ('-' :: Nat.toDigits 10 n) 8 (.num (-n)) := by
  intro pos rest hr
  obtain ⟨s, hs, hu⟩ :=
    exists_scans_unOp .neg pos ((opens_digits n).append rest |>.ends ne_equals_of_isOpening)
  obtain ⟨t, hs', hk, hv, hx⟩ := exists_scans_digits n (pos + 1) hr
  have hx' : Parser.Short [s] := Parser.short_of_kind (Parser.ne_integer_of_unary? hu)
  exact ⟨[s] ++ [t], hs.append hs', hv ▸ .negative hu hk, hx'.append (Parser.short_of_length (hx ▸ h))⟩

theorem spells_boolean (b : Bool) : Spells (Value.bool b).text.toList 9 (.lit (.bool b)) := by
  intro pos rest hr
  have hi : isIdentifier (Value.bool b).text = true := by cases b <;> rfl
  obtain ⟨t, hs, hk, ht⟩ := scans_word pos hi hr
  have hk' : t.kind = .boolean := by rw [hk]; cases b <;> rfl
  have hb : booleanSpellings.lookup t.text = some b := by rw [ht]; cases b <;> rfl
  exact ⟨[t], hs, .boolean hk' hb, Parser.short_of_kind (by simp [hk'])⟩

theorem spells_name {v : Var} (h : (Expr.var v).Spellable) : Spells v.name.toList 9 (.var v) := by
  obtain ⟨ht, hi, hn⟩ := h
  intro pos rest hr
  obtain ⟨t, hs, hk, hx⟩ := scans_word pos hi hr
  rw [wordKind_of_notMem hi hn] at hk
  have hv : v = ⟨t.text, .unknown⟩ := by rw [hx, ← ht]
  exact ⟨[t], hs, hv ▸ .identifier hk, Parser.short_of_kind (by simp [hk])⟩

theorem Spells.loosen {cs : List Char} {k m : Nat} {e : Expr} (h : Spells cs k e) (hm : m ≤ k) : Spells cs m e := by
  intro pos rest hr
  obtain ⟨ts, h₁, h₂, h₃⟩ := h pos rest hr
  exact ⟨ts, h₁, h₂.loosen hm, h₃⟩

/-- A text in parentheses, and its first token. -/
theorem Spells.exists_group {cs rest : List Char} {e : Expr} (h : Spells cs 1 e) (pos : Nat) :
    ∃ ts, Spelling pos ('(' :: (cs ++ [')'])) rest 9 e ts ∧ ∀ t ∈ ts.head?, t.kind = .symbol := by
  have hopen := scans_open pos (cs ++ [')'] ++ rest)
  obtain ⟨ts, hs, hd, hx⟩ := h (pos + 1) ([')'] ++ rest) (ends_close rest)
  have hclose := scans_close (pos + 1 + cs.length) rest
  refine ⟨_, ⟨hopen.append (hs.append hclose), .group ⟨rfl, rfl⟩ ⟨rfl, rfl⟩ hd, ?_⟩, by simp⟩
  exact (Parser.short_of_kind (by simp)).append (hx.append (Parser.short_of_kind (by simp)))

/-- An operand in its place. -/
theorem Spells.parenIf {s : String} {k level : Nat} {e : Expr} {b : Bool} (h : Spells s.toList k e)
    (hk : 1 ≤ k) (hl : level ≤ 9) (hb : b = false → level ≤ k) :
    Spells (parenIf b s).toList level e := by
  rw [toList_parenIf]
  cases b with
  | true =>
    intro pos rest _
    obtain ⟨ts, hs, -⟩ := (h.loosen hk).exists_group pos
    exact ⟨ts, hs.scans, hs.derives.loosen hl, hs.short⟩
  | false => exact h.loosen (hb rfl)

/-- An operator between two operands, of which the right one is scanned to something with property
`P`. -/
theorem exists_scans_operator {ls rs rest : List Char} {op : BinOp} {pos : Nat} {ts : List Token}
    {P : List Token → Prop}
    (hl : Scans pos ls (([' '] ++ (op.text.toList ++ ([' '] ++ rs))) ++ rest) ts)
    (hr : ∀ pos, ∃ us, Scans pos rs rest us ∧ P us) (ho : Opens rs) :
    ∃ t us, Scans pos (ls ++ ([' '] ++ (op.text.toList ++ ([' '] ++ rs)))) rest (ts ++ t :: us) ∧
      t.binary? = some op ∧ P us := by
  have hsign : Ends Text.isBlank ((op.text.toList ++ ([' '] ++ rs)) ++ rest) := by
    intro d hd
    cases op <;> cases hd <;> rfl
  -- the pieces from left to right; positions only have to fit together
  have hs₂ := scans_blank (pos + ls.length) hsign
  obtain ⟨t, hs₃, ht⟩ := exists_scans_binOp op (pos + ls.length + 1) (rs ++ rest)
  have hs₄ := scans_blank (pos + ls.length + 1 + op.text.toList.length)
    ((ho.append rest).ends isBlank_of_isOpening)
  obtain ⟨us, hs₅, hu⟩ := hr (pos + ls.length + 1 + op.text.toList.length + 1)
  exact ⟨t, us, hl.append (hs₂.append (hs₃.append (hs₄.append hs₅))), ht, hu⟩

theorem Spells.bin {ls rs : List Char} {op : BinOp} {l r : Expr} (hl : Spells ls op.leftLevel l)
    (hr : Spells rs op.rightLevel r) (ho : Opens rs) :
    Spells (ls ++ ([' '] ++ (op.text.toList ++ ([' '] ++ rs)))) op.precedence (.bin op l r) := by
  intro pos rest hend
  obtain ⟨ts, hs, hd, hx⟩ := hl pos _ (ends_blank _)
  obtain ⟨t, us, hs', ht, hd', hx'⟩ := exists_scans_operator hs (fun pos => by
    obtain ⟨us, hs, hd, hx⟩ := hr pos rest hend
    exact ⟨us, hs, And.intro hd hx⟩) ho
  exact ⟨_, hs', derives_bin hd ht hd', hx.append (.cons (Parser.ne_integer_of_binary? ht) hx')⟩

/-- A literal starts with its digits: parentheses keep an integer apart from a sign. -/
theorem isIntLit_of_head {ts : List Token} {e : Expr} (h : Derives .unary ts e) {t : Token}
    (ht : t ∈ ts.head?) (hk : t.kind = .integer) : e.isIntLit = true := by
  cases h with
  | chain hc => cases hc
  | negative => rfl
  | signed hu =>
    cases ht
    exact absurd hk (Parser.ne_integer_of_unary? hu)
  | bare h =>
    cases h with
    | chain hc => cases hc
    | integer => rfl
    | boolean h =>
      cases ht
      rw [h] at hk
      cases hk
    | identifier h =>
      cases ht
      rw [h] at hk
      cases hk
    | group ho =>
      cases ht
      rw [ho.1] at hk
      cases hk

theorem Spelling.un {pos : Nat} {cs rest : List Char} {op : UnOp} {e : Expr} {ts : List Token}
    (h : Spelling (pos + op.text.toList.length) cs rest 8 e ts) (ho : Opens cs)
    (hn : op = .neg → ∀ i ∈ ts.head?, i.kind ≠ .integer) :
    ∃ us, Spelling pos (op.text.toList ++ cs) rest 8 (.un op e) us := by
  obtain ⟨t, hs, ht⟩ := exists_scans_unOp op pos ((ho.append rest).ends ne_equals_of_isOpening)
  refine ⟨[t] ++ ts, hs.append h.scans, .signed ht hn h.derives, ?_⟩
  exact .append (Parser.short_of_kind (Parser.ne_integer_of_unary? ht)) h.short

theorem precedence_pos (e : Expr) : 1 ≤ e.precedence := by
  cases e with
  | bin op => exact Parser.precedence_pos op
  | lit | var | un => exact Nat.le_add_left ..

theorem spells_un {op : UnOp} {e : Expr} (h : Spells e.text.toList (min e.precedence 8) e)
    (ho : Opens e.text.toList) :
    Spells (Expr.un op e).text.toList 8 (.un op e) := by
  intro pos rest hend
  simp only [Expr.text, String.toList_append]
  have hp := precedence_pos e
  cases hb : (decide (op = .neg) && e.isIntLit || decide (e.precedence < Expr.unaryPrecedence)) with
  | true =>
    obtain ⟨ts, hs, hsym⟩ := (h.loosen (by omega)).exists_group (pos + op.text.toList.length)
    have hspell : Spelling (pos + op.text.toList.length) (parenIf true e.text).toList rest 8 e ts := by
      rw [toList_parenIf]
      exact ⟨hs.scans, hs.derives.loosen (by decide), hs.short⟩
    refine hspell.un (opens_parenIf ho) fun _ i hi => ?_
    rw [hsym i hi]
    simp
  | false =>
    -- no parentheses: the operand is no literal, so a minus stays a sign of its own
    rw [Bool.or_eq_false_iff, decide_eq_false_iff_not, Expr.unaryPrecedence] at hb
    have h8 : 8 ≤ min e.precedence 8 := by omega
    obtain ⟨ts, hs⟩ := h.loosen h8 (pos + op.text.toList.length) rest hend
    refine Spelling.un hs ho fun hop i hi hk => ?_
    have hlit := isIntLit_of_head hs.derives hi hk
    simp [hop, hlit] at hb

theorem spells_text {e : Expr} (h : e.Spellable) : Spells e.text.toList (min e.precedence 8) e := by
  induction e with
  | lit v =>
    cases v with
    | int n =>
      cases n with
      | ofNat n =>
        have ht : (Expr.lit (.int (.ofNat n))).text.toList = _ := toList_natural n
        rw [ht]
        exact (spells_natural h).loosen (Nat.min_le_left ..)
      | negSucc n =>
        have ht : (Expr.lit (.int (.negSucc n))).text.toList = _ := toList_negative n
        rw [ht]
        exact (spells_negative h).loosen (Nat.min_le_right ..)
    | bool b => exact (spells_boolean b).loosen (Nat.min_le_left ..)
  | var v => exact (spells_name h).loosen (Nat.min_le_left ..)
  | bin op l r ihl ihr =>
    rw [toList_bin]
    have hpl := precedence_pos l
    have hpr := precedence_pos r
    have hlevel : op.leftLevel ≤ 8 ∧ op.rightLevel ≤ 8 := by cases op <;> decide
    refine (Spells.bin ?_ ?_ (opens_parenIf (opens_text h.2.named))).loosen (Nat.min_le_left ..)
    · exact (ihl h.1).parenIf (by omega) (by omega) fun hb => by
        rw [decide_eq_false_iff_not] at hb
        omega
    · exact (ihr h.2).parenIf (by omega) (by omega) fun hb => by
        rw [decide_eq_false_iff_not] at hb
        omega
  | un op e ih => exact (spells_un (ih h) (opens_text (Expr.Spellable.named h))).loosen (Nat.min_le_right ..)

theorem parse_text {e : Expr} (h : e.Spellable) : parse e.text = .ok e := by
  obtain ⟨ts, hs, hd, hx⟩ := spells_text h 0 [] (by intro d hd; cases hd)
  have hp := precedence_pos e
  have hlevel : 1 ≤ min e.precedence 8 := by omega
  refine parse_of_derives ?_ (hd.loosen hlevel) hx
  unfold Scans at hs
  rw [List.append_nil, scan_nil] at hs
  rw [hs]
  simp [Except.map]

/-! ## parsed expressions -/

theorem ofDigitChars_lt {ds : List Char} (h : ∀ d ∈ ds, d.isDigit = true) (init : Nat) :
    Nat.ofDigitChars 10 ds init < (init + 1) * 10 ^ ds.length := by
  induction ds generalizing init with
  | nil => simp
  | cons d ds ih =>
    rw [List.forall_mem_cons] at h
    have hd : d.toNat - '0'.toNat < 10 := by
      have := h.1
      simp only [Char.isDigit, Bool.and_eq_true, decide_eq_true_eq, UInt32.le_iff_toNat_le] at this
      change 48 ≤ d.toNat ∧ d.toNat ≤ 57 at this
      have h0 : '0'.toNat = 48 := rfl
      omega
    calc Nat.ofDigitChars 10 (d :: ds) init
        = Nat.ofDigitChars 10 ds (10 * init + (d.toNat - '0'.toNat)) := Nat.ofDigitChars_cons ..
      _ < (10 * init + (d.toNat - '0'.toNat) + 1) * 10 ^ ds.length := ih h.2 _
      _ ≤ (10 * (init + 1)) * 10 ^ ds.length := Nat.mul_le_mul_right _ (by omega)
      _ = (init + 1) * 10 ^ (d :: ds).length := by rw [List.length_cons, pow_succ]; ring

/-- The digits of a value are not more than the digits it was read from. -/
theorem length_toDigits_value {t : Token} (ht : t.Proper) (hk : t.kind = .integer)
    (hx : t.text.length ≤ Text.maxDigits) : (Nat.toDigits 10 t.value).length ≤ Text.maxDigits := by
  rw [Nat.length_toDigits_le_iff (by decide) (by decide)]
  have hlt := ofDigitChars_lt (ht.integer hk) 0
  rw [Nat.zero_add, Nat.one_mul] at hlt
  refine hlt.trans_le (Nat.pow_le_pow_right (by decide) ?_)
  rw [String.length_toList]
  exact hx

theorem spellable_foldl {links : List Link} {e : Expr} (he : e.Spellable)
    (hk : ∀ k ∈ links, k.tree.Spellable) :
    (links.foldl Link.join e).Spellable := by
  induction links generalizing e with
  | nil => exact he
  | cons k links ih =>
    rw [List.forall_mem_cons] at hk
    exact ih ⟨he, hk.1⟩ hk.2

theorem spellable_of_derives {layer : Layer} {ts : List Token} {e : Expr} (h : Derives layer ts e)
    (hp : ∀ t ∈ ts, t.Proper) (hx : Parser.Short ts) : e.Spellable := by
  induction h with
  | single _ ih => exact ih hp hx
  | implies _ _ _ ihl ihr =>
    have hp' := List.forall_mem_append.1 hp
    refine ⟨ihl hp'.1 hx.left, ihr (List.forall_mem_cons.1 hp'.2).2 ?_⟩
    exact (List.forall_mem_cons.1 hx.right).2
  | chain _ _ _ _ ih ihk =>
    refine spellable_foldl (ih (List.forall_mem_append.1 hp).1 hx.left) fun k hk => ihk k hk ?_ ?_
    · intro t ht
      exact hp t (List.mem_append_right _ (List.mem_flatMap.2 ⟨k, hk, List.mem_cons_of_mem _ ht⟩))
    · intro t ht
      exact hx t (List.mem_append_right _ (List.mem_flatMap.2 ⟨k, hk, List.mem_cons_of_mem _ ht⟩))
  | @negative t i _ hi =>
    have hv := length_toDigits_value (hp i (by simp)) hi (hx i (by simp) hi)
    simpa [Expr.num, Expr.Spellable] using hv
  | signed _ _ _ ih => exact ih (List.forall_mem_cons.1 hp).2 (List.forall_mem_cons.1 hx).2
  | bare _ ih => exact ih hp hx
  | @integer t hi =>
    have hv := length_toDigits_value (hp t (by simp)) hi (hx t (by simp) hi)
    simpa [Expr.num, Expr.Spellable] using hv
  | boolean => trivial
  | @identifier t hk => exact ⟨rfl, (hp t (by simp)).identifier hk⟩
  | group _ _ _ ih =>
    have hp' := (List.forall_mem_cons.1 hp).2
    have hx' := (List.forall_mem_cons.1 hx).2
    exact ih (List.forall_mem_append.1 hp').1 (List.forall_mem_append.1 hx').1

theorem spellable_of_parse {source : String} {e : Expr} (h : parse source = .ok e) : e.Spellable := by
  obtain ⟨ts, hs, hd, hx⟩ := exists_scan_of_parse h
  exact spellable_of_derives hd (scan_proper hs) hx

/-- Printing and parsing are inverse: the text of an expression that can be written is parsed to the
expression, no two such expressions have one text, and what a parsed text stands for is read again
from its own text. -/
theorem parse_text_roundTrip :
    (∀ e : Expr, e.Spellable → parse e.text = .ok e) ∧
    (∀ e f : Expr, e.Spellable → f.Spellable → e.text = f.text → e = f) ∧
    (∀ source e, parse source = .ok e → parse e.text = parse source) := by
  refine ⟨fun e he => parse_text he, fun e f he hf heq => ?_, fun source e h => ?_⟩
  · have h := parse_text he
    rw [heq, parse_text hf] at h
    cases h
    rfl
  · rw [parse_text (spellable_of_parse h), h]

/-- A difference that is subtracted, signs in front of a negative literal and of a sign, and nested
implications. -/
theorem parse_text_signs :
    let x : Expr := .var ⟨"x", .unknown⟩
    let p : Expr := .var ⟨"p", .unknown⟩
    let e : Expr := .bin .imp
      (.bin .imp p (.bin .lt (.bin .sub x (.bin .sub (.num 1) (.num (-2)))) (.un .neg (.num (-3)))))
      (.bin .imp (.bin .eq (.un .not (.un .not p)) (.lit (.bool true))) (.bin .le (.un .neg (.un .neg x)) (.num 0)))
    e.text = "(p ==> x - (1 - -2) < -(-3)) ==> !!p == true ==> --x <= 0" ∧ parse e.text = .ok e := by
  intro x p e
  refine ⟨by decide +kernel, parse_text_roundTrip.1 e ?_⟩
  have hx : x.Spellable := ⟨rfl, by decide, by decide⟩
  have hp : p.Spellable := ⟨rfl, by decide, by decide⟩
  have hlit : ∀ n : Int, n.natAbs < 10 → (Expr.num n).Spellable := by
    intro n hn
    exact (Nat.length_toDigits_le_iff (by decide) (by decide)).2
      (hn.trans_le (Nat.le_self_pow (by decide) 10))
  have hleft : (Expr.bin .sub x (.bin .sub (.num 1) (.num (-2)))).Spellable :=
    ⟨hx, hlit 1 (by decide), hlit (-2) (by decide)⟩
  exact ⟨⟨hp, hleft, hlit (-3) (by decide)⟩, ⟨hp, trivial⟩, hx, hlit 0 (by decide)⟩

end ContractVerifier
