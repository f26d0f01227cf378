import ContractVerifier.Expr.Parser
import Mathlib.Data.List.TakeWhile

/-!
# Scanning a text in pieces

* `Reads c cs l n` : how a lexeme is read, by its kind;
* `Scans pos cs rest ts` : in front of `rest`, the characters `cs` give exactly the tokens `ts`;
  `Scans.append` puts pieces together, and there is one lemma for each kind of lexeme;
* `Proper` : what is known of the text of a token by its kind; all tokens of a scan have it
  (`scan_proper`).
-/

namespace ContractVerifier

/-! ## names -/

/-- A letter or an underscore, and then letters, digits and underscores. -/
def isIdentifier (x : String) : Bool :=
  match x.toList with
  | [] => false
  | c :: cs => (c.isAlpha || c == '_') && cs.all fun d => d.isAlphanum || d == '_'

/-- Words that are no names. -/
def reserved : List String := ["and", "or", "not", "true", "True", "false", "False"]

namespace Token

variable {c : Char} {cs rest : List Char} {pos : Nat}

/-! ## characters -/

/-- What a word goes on with. -/
def isWordChar (c : Char) : Bool := isLetter c || isDigit c

theorem isDigit_eq (c : Char) : isDigit c = c.isDigit := by
  simp [isDigit, Char.isDigit, Char.le_def]

theorem isLetter_eq (c : Char) : isLetter c = (c.isAlpha || c == '_') := by
  have hu : c.isUpper = (decide ('A' ≤ c) && decide (c ≤ 'Z')) := Bool.decide_and ..
  have hl : c.isLower = (decide ('a' ≤ c) && decide (c ≤ 'z')) := rfl
  have he : (c == '_') = decide (c = '_') := by rw [Bool.beq_eq_decide_eq]
  show isLetter c = (c.isUpper || c.isLower || c == '_')
  rw [isLetter, hu, hl, he, Bool.or_comm (decide ('a' ≤ c) && _)]

theorem isWordChar_eq (c : Char) : isWordChar c = (c.isAlphanum || c == '_') := by
  rw [isWordChar, isLetter_eq, isDigit_eq, Char.isAlphanum, Bool.or_assoc, Bool.or_comm (c == '_'),
    ← Bool.or_assoc]

/-- The number of a character with a digit's or a letter's form. -/
theorem toNat_of_isDigit (h : isDigit c = true) : 48 ≤ c.toNat ∧ c.toNat ≤ 57 := by
  simpa [isDigit, Char.le_def, UInt32.le_iff_toNat_le] using h

theorem toNat_of_isLetter (h : isLetter c = true) : 65 ≤ c.toNat ∧ c.toNat ≤ 122 := by
  simp only [isLetter, Bool.or_eq_true, Bool.and_eq_true, decide_eq_true_eq, Char.le_def,
    UInt32.le_iff_toNat_le] at h
  rcases h with (⟨h₁, h₂⟩ | ⟨h₁, h₂⟩) | rfl
  · have h₁ : 97 ≤ c.toNat := h₁
    have h₂ : c.toNat ≤ 122 := h₂
    omega
  · have h₁ : 65 ≤ c.toNat := h₁
    have h₂ : c.toNat ≤ 90 := h₂
    omega
  · decide

theorem isBlank_of_toNat (h₁ : 33 ≤ c.toNat) (h₂ : c.toNat ≤ 126) : Text.isBlank c = false := by
  simp only [Text.isBlank, Bool.or_eq_false_iff, Bool.and_eq_false_iff, decide_eq_false_iff_not,
    beq_eq_false_iff_ne]
  omega

theorem isBlank_of_isDigit (h : isDigit c = true) : Text.isBlank c = false := by
  have := toNat_of_isDigit h
  exact isBlank_of_toNat (by omega) (by omega)

theorem isBlank_of_isLetter (h : isLetter c = true) : Text.isBlank c = false := by
  have := toNat_of_isLetter h
  exact isBlank_of_toNat (by omega) (by omega)

theorem isDigit_of_isLetter (h : isLetter c = true) : isDigit c = false := by
  have := toNat_of_isLetter h
  rw [← Bool.not_eq_true]
  intro hd
  have := toNat_of_isDigit hd
  omega

/-! ## the longest lexeme -/

/-- Nothing of `rest` belongs to a run of `p` in front of it. -/
def Ends (p : Char → Bool) (rest : List Char) : Prop := ∀ d ∈ rest.head?, p d = false

theorem takeWhile_of_ends {p : Char → Bool} (hc : ∀ d ∈ cs, p d = true) (hr : Ends p rest) :
    (cs ++ rest).takeWhile p = cs := by
  rw [List.takeWhile_append_of_pos hc]
  cases rest with
  | nil => simp
  | cons d rest => rw [List.takeWhile_cons_of_neg (by simp [hr d (by simp)]), List.append_nil]

theorem take_takeWhile (p : Char → Bool) (cs : List Char) :
    cs.take (cs.takeWhile p).length = cs.takeWhile p :=
  (List.prefix_iff_eq_take.1 (List.takeWhile_prefix p)).symm

/-- The ways in which a lexeme is read. -/
inductive Reads (c : Char) (cs : List Char) : Lexeme → Nat → Prop where
  | blank (hc : Text.isBlank c = true) : Reads c cs .blank (cs.takeWhile Text.isBlank).length
  | integer (hc : isDigit c = true) : Reads c cs .integer (cs.takeWhile isDigit).length
  | word (hc : isLetter c = true) : Reads c cs .word (cs.takeWhile isWordChar).length
  | symbol {s : String} (hd : isDigit c = false) (hl : isLetter c = false)
      (h : symbolSpellings.find? (fun s => s.toList.isPrefixOf (c :: cs)) = some s) : Reads c cs .symbol (s.length - 1)

theorem reads_of_lexeme {l : Lexeme} {n : Nat} (h : lexeme c cs = some (l, n)) : Reads c cs l n := by
  unfold lexeme at h
  by_cases hblank : Text.isBlank c = true
  · rw [if_pos hblank] at h
    cases h
    exact .blank hblank
  rw [if_neg hblank] at h
  by_cases hdigit : isDigit c = true
  · rw [if_pos hdigit] at h
    cases h
    exact .integer hdigit
  rw [if_neg hdigit] at h
  by_cases hletter : isLetter c = true
  · rw [if_pos hletter] at h
    cases h
    exact .word hletter
  rw [if_neg hletter] at h
  obtain ⟨s, hfind, hs⟩ := Option.map_eq_some_iff.1 h
  cases hs
  exact .symbol (by simpa using hdigit) (by simpa using hletter) hfind

theorem lexeme_blank (hc : Text.isBlank c = true) (hr : Ends Text.isBlank rest) : lexeme c rest = some (.blank, 0) := by
  have hw : ([] ++ rest).takeWhile Text.isBlank = [] := takeWhile_of_ends nofun hr
  rw [List.nil_append] at hw
  rw [lexeme, if_pos hc, hw]
  rfl

theorem lexeme_integer (hc : isDigit c = true) (hcs : ∀ d ∈ cs, isDigit d = true)
    (hr : Ends isDigit rest) :
    lexeme c (cs ++ rest) = some (.integer, cs.length) := by
  rw [lexeme, if_neg (by simp [isBlank_of_isDigit hc]), if_pos hc, takeWhile_of_ends hcs hr]

theorem lexeme_word (hc : isLetter c = true) (hcs : ∀ d ∈ cs, isWordChar d = true)
    (hr : Ends isWordChar rest) :
    lexeme c (cs ++ rest) = some (.word, cs.length) := by
  have hw : (cs ++ rest).takeWhile (fun d => isLetter d || isDigit d) = cs :=
    takeWhile_of_ends hcs hr
  rw [lexeme, if_neg (by simp [isBlank_of_isLetter hc]), if_neg (by simp [isDigit_of_isLetter hc]),
    if_pos hc, hw]

/-- An operator in front of a blank. -/
theorem exists_lexeme_binOp (op : BinOp) (rest : List Char) :
    ∃ c cs, op.text.toList = c :: cs ∧ lexeme c (cs ++ ' ' :: rest) = some (.symbol, cs.length) := by
  cases op <;> exact ⟨_, _, rfl, rfl⟩

/-- A sign in front of what is not an equality. -/
theorem exists_lexeme_unOp (op : UnOp) (hr : Ends (· == '=') rest) :
    ∃ c, op.text.toList = [c] ∧ lexeme c rest = some (.symbol, 0) := by
  cases op with
  | neg => exact ⟨_, rfl, rfl⟩
  | not =>
    refine ⟨'!', rfl, ?_⟩
    cases rest with
    | nil => rfl
    | cons d rest =>
      have hl : lexeme '!' (d :: rest) = (symbolSpellings.find? fun s => s.toList.isPrefixOf ('!' :: d :: rest)).map
          fun s => (.symbol, s.length - 1) := rfl
      -- of the two spellings that start with the sign, the longer one asks for the next character
      have hs : symbolSpellings.find? (fun s => s.toList.isPrefixOf ('!' :: d :: rest)) =
          bif '=' == d && true then some "!=" else some "!" := rfl
      have hd : ('=' == d) = false := by
        rw [BEq.comm]
        exact hr d (by simp)
      rw [hl, hs, hd]
      rfl

/-! ## tokens -/

/-- The token of a lexeme, if it has one. -/
def Lexeme.tokens (l : Lexeme) (s : String) (pos stop : Nat) : List Token :=
  ((l.kind? s).map fun k => ⟨k, s, pos, stop⟩).toList

theorem scan_nil (pos : Nat) : scan pos [] = .ok [] := by
  unfold scan
  rfl

theorem scan_lexeme {l : Lexeme} {n : Nat} (hl : lexeme c cs = some (l, n)) (pos : Nat) :
    scan pos (c :: cs) = (scan (pos + n + 1) (cs.drop n)).map
      (l.tokens (String.ofList (c :: cs.take n)) pos (pos + n + 1) ++ ·) := by
  cases hr : scan (pos + n + 1) (cs.drop n) with
  | error e =>
    unfold scan
    simp only [hl, hr]
    rfl
  | ok ts =>
    unfold scan Lexeme.tokens
    simp only [hl, hr]
    cases l.kind? (String.ofList (c :: cs.take n)) <;> rfl

/-- One lexeme and what is behind it. -/
theorem scan_cons {l : Lexeme} {n : Nat} {ts ts' : List Token} (hl : lexeme c cs = some (l, n))
    (ht : scan (pos + n + 1) (cs.drop n) = .ok ts)
    (h : l.tokens (String.ofList (c :: cs.take n)) pos (pos + n + 1) ++ ts = ts') :
    scan pos (c :: cs) = .ok ts' := by
  rw [scan_lexeme hl, ht, ← h]
  rfl

/-- In front of `rest`, the characters `cs` give the tokens `ts`. -/
def Scans (pos : Nat) (cs rest : List Char) (ts : List Token) : Prop :=
  scan pos (cs ++ rest) = (scan (pos + cs.length) rest).map (ts ++ ·)

theorem Scans.append {ds : List Char} {ts us : List Token} (h : Scans pos cs (ds ++ rest) ts)
    (h' : Scans (pos + cs.length) ds rest us) : Scans pos (cs ++ ds) rest (ts ++ us) := by
  unfold Scans at h h' ⊢
  rw [List.append_assoc, h, h', List.length_append, Nat.add_assoc]
  cases scan (pos + (cs.length + ds.length)) rest with
  | error e => rfl
  | ok vs => simp [Except.map]

theorem Scans.lexeme {l : Lexeme} (h : lexeme c (cs ++ rest) = some (l, cs.length)) :
    Scans pos (c :: cs) rest (l.tokens (String.ofList (c :: cs)) pos (pos + cs.length + 1)) := by
  unfold Scans
  rw [List.cons_append, scan_lexeme h, List.drop_left, List.take_left, List.length_cons,
    Nat.add_assoc]

/-! ## proper tokens -/

/-- What the kind of a token says of its text. -/
structure Proper (t : Token) : Prop where
  integer : t.kind = .integer → ∀ d ∈ t.text.toList, d.isDigit = true
  identifier : t.kind = .identifier → isIdentifier t.text = true ∧ t.text ∉ reserved
  boolean : t.kind = .boolean → (booleanSpellings.lookup t.text).isSome = true

theorem notMem_reserved_of_wordKind {x : String} (h : wordKind x = .identifier) : x ∉ reserved := by
  intro hx
  have hall : ∀ y ∈ reserved, wordKind y ≠ .identifier := by decide
  exact hall x hx h

theorem lookup_of_wordKind {x : String} (h : wordKind x = .boolean) : (booleanSpellings.lookup x).isSome = true := by
  unfold wordKind at h
  split at h
  · cases h
  · split at h
    · assumption
    · cases h

theorem wordKind_ne_integer (x : String) : wordKind x ≠ .integer := by
  unfold wordKind
  split
  · simp
  · split <;> simp

theorem isIdentifier_ofList (hc : isLetter c = true) (hcs : ∀ d ∈ cs, isWordChar d = true) :
    isIdentifier (String.ofList (c :: cs)) = true := by
  unfold isIdentifier
  simp only [String.toList_ofList, Bool.and_eq_true, List.all_eq_true, ← isLetter_eq,
    ← isWordChar_eq]
  exact ⟨hc, hcs⟩

theorem proper_of_lexeme {l : Lexeme} {n stop : Nat} (h : lexeme c cs = some (l, n)) {t : Token}
    (ht : t ∈ l.tokens (String.ofList (c :: cs.take n)) pos stop) : t.Proper := by
  unfold Lexeme.tokens at ht
  rw [Option.mem_toList, Option.map_eq_some_iff] at ht
  obtain ⟨k, hk, rfl⟩ := ht
  cases reads_of_lexeme h with
  | blank => cases hk
  | integer hc =>
    cases hk
    refine ⟨fun _ d hm => ?_, nofun, nofun⟩
    rw [String.toList_ofList, take_takeWhile] at hm
    rcases List.mem_cons.1 hm with rfl | hm
    · rw [← isDigit_eq]; exact hc
    · rw [← isDigit_eq]; exact List.mem_takeWhile_imp hm
  | word hc =>
    cases hk
    refine ⟨fun h => absurd h (wordKind_ne_integer _), fun h => ⟨?_, notMem_reserved_of_wordKind h⟩, lookup_of_wordKind⟩
    rw [take_takeWhile]
    exact isIdentifier_ofList hc fun d hm => List.mem_takeWhile_imp hm
  | symbol =>
    cases hk
    exact ⟨nofun, nofun, nofun⟩

theorem scan_proper {ts : List Token} (h : scan pos cs = .ok ts) : ∀ t ∈ ts, t.Proper := by
  induction hn : cs.length using Nat.strongRecOn generalizing pos cs ts with
  | ind n ih =>
    cases cs with
    | nil =>
      rw [scan_nil] at h
      cases h
      simp
    | cons c cs =>
      cases hl : lexeme c cs with
      | none =>
        unfold scan at h
        simp [hl] at h
      | some p =>
        obtain ⟨l, k⟩ := p
        rw [scan_lexeme hl] at h
        cases hr : scan (pos + k + 1) (cs.drop k) with
        | error e => rw [hr] at h; cases h
        | ok us =>
          rw [hr] at h
          cases h
          intro t ht
          rcases List.mem_append.1 ht with ht | ht
          · exact proper_of_lexeme hl ht
          · refine ih (cs.drop k).length ?_ hr rfl t ht
            rw [← hn, List.length_drop, List.length_cons]
            omega

end Token

end ContractVerifier
