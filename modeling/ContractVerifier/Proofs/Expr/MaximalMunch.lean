import ContractVerifier.Proofs.Expr.Offending

/-!
# Tokens tile the text, each as long as it can be

* `Lexical` : what the text of a token may be, whatever stands around it;
* `Longest cs x` : no lexical text in front of `cs` is longer than `x`; the lexemes of the scanner
  are longest ones;
* `Tiles cs q p ts` : from `q` to `p` a text consists of the tokens `ts`, each of them a longest
  one, and of blanks;
* `tiles_of_passes`, `passes_of_tiles` : what the scanner passes over is tiled by its tokens, and
  there is no other tiling;
* `tokenize_maximalMunch` : the outcome of `tokenize` is the tiling of the whole text, or the error
  at the first character with which none goes on.
-/

namespace ContractVerifier

namespace Token

variable {c : Char} {cs ds rest : List Char} {pos p q n : Nat} {ts us : List Token} {t : Token} {l : Lexeme} {x y : String}

/-! ## spellings -/

/-- The operators, some of which are words, and the parentheses. -/
def operators : List String := BinOp.spellings.map (·.1) ++ UnOp.spellings.map (·.1) ++ ["(", ")"]

/-- Digits, what is spelled like a name, or an operator or parenthesis. -/
inductive Lexical : String → Prop where
  | integer {x : String} (hne : x ≠ "") (h : ∀ d ∈ x.toList, d.isDigit = true) : Lexical x
  | word {x : String} (h : isIdentifier x = true) : Lexical x
  | operator {x : String} (h : x ∈ operators) : Lexical x

/-- The kind of what is spelled so; a word may be an operator or a boolean. -/
def kindOf (x : String) : TokenKind :=
  if x ∈ operators then .symbol
  else if x ∈ booleanSpellings.map (·.1) then .boolean
  else if isIdentifier x then .identifier
  else .integer

theorem operators_split : ∀ x ∈ operators, isIdentifier x = true ∨ x ∈ symbolSpellings := by decide

theorem symbolSpellings_subset : ∀ x ∈ symbolSpellings, x ∈ operators := by decide

theorem symbolSpellings_sorted : symbolSpellings.Pairwise (fun x y => y.length ≤ x.length) := by decide

/-- A symbol starts with a character with which nothing else starts. -/
theorem symbolSpellings_head : symbolSpellings.all
    (fun x => x.toList.head?.any fun d => !Text.isBlank d && !isDigit d && !isLetter d) = true := by decide

theorem head_of_symbol (h : x ∈ symbolSpellings) : ∃ d ds, x.toList = d :: ds ∧
    Text.isBlank d = false ∧ isDigit d = false ∧ isLetter d = false := by
  have hhead := List.all_eq_true.1 symbolSpellings_head x h
  cases hx : x.toList with
  | nil =>
    rw [hx] at hhead
    cases hhead
  | cons d ds =>
    rw [hx] at hhead
    simp only [List.head?_cons, Option.any_some, Bool.and_eq_true, Bool.not_eq_true',
      and_assoc] at hhead
    exact ⟨d, ds, rfl, hhead⟩

theorem isIdentifier_iff : isIdentifier x = true ↔
    ∃ d ds, x.toList = d :: ds ∧ isLetter d = true ∧ ∀ e ∈ ds, isWordChar e = true := by
  unfold isIdentifier
  cases x.toList with
  | nil => simp
  | cons d ds => simp [isLetter_eq, isWordChar_eq]

theorem Lexical.ne_nil (h : Lexical x) : x.toList ≠ [] := by
  have hword : isIdentifier x = true → x.toList ≠ [] := by
    rintro hx hnil
    obtain ⟨d, ds, hds, -⟩ := isIdentifier_iff.1 hx
    rw [hnil] at hds
    cases hds
  cases h with
  | integer hne => exact fun hnil => hne (String.toList_eq_nil_iff.1 hnil)
  | word h => exact hword h
  | operator h =>
    rcases operators_split x h with hx | hx
    · exact hword hx
    · obtain ⟨d, ds, hds, -⟩ := head_of_symbol hx
      simp [hds]

/-- What stands in front of a text starts with its first character. -/
theorem Lexical.front (h : Lexical x) (hfits : x.toList <+: c :: cs) : ∃ ds, x.toList = c :: ds ∧ ds <+: cs := by
  cases hx : x.toList with
  | nil => exact absurd hx h.ne_nil
  | cons d ds =>
    rw [hx, List.cons_prefix_cons] at hfits
    exact ⟨ds, by rw [hfits.1], hfits.2⟩

/-- The first character tells what the others are. -/
theorem Lexical.split (h : Lexical x) (hx : x.toList = c :: ds) :
    (isDigit c = true ∧ ∀ e ∈ ds, isDigit e = true) ∨
      (isLetter c = true ∧ ∀ e ∈ ds, isWordChar e = true) ∨
      (Text.isBlank c = false ∧ isDigit c = false ∧ isLetter c = false ∧ x ∈ symbolSpellings) := by
  have hword : isIdentifier x = true → isLetter c = true ∧ ∀ e ∈ ds, isWordChar e = true := by
    intro h
    obtain ⟨d, es, hes, hd⟩ := isIdentifier_iff.1 h
    rw [hx] at hes
    cases hes
    exact hd
  cases h with
  | integer _ h =>
    simp only [hx, List.forall_mem_cons, ← isDigit_eq] at h
    exact .inl h
  | word h => exact .inr (.inl (hword h))
  | operator h =>
    rcases operators_split x h with h | h
    · exact .inr (.inl (hword h))
    · obtain ⟨d, es, hes, hblank, hdigit, hletter⟩ := head_of_symbol h
      rw [hx] at hes
      cases hes
      exact .inr (.inr ⟨hblank, hdigit, hletter, h⟩)

/-! ## the longest lexical text -/

structure Longest (cs : List Char) (x : String) : Prop where
  lexical : Lexical x
  fits : x.toList <+: cs
  longest : ∀ y, Lexical y → y.toList <+: cs → y.length ≤ x.length

theorem Longest.eq (hx : Longest cs x) (hy : Longest cs y) : x = y := by
  have hlen : x.toList.length = y.toList.length := by
    rw [String.length_toList, String.length_toList]
    exact Nat.le_antisymm (hy.longest x hx.lexical hx.fits) (hx.longest y hy.lexical hy.fits)
  exact String.toList_inj.1 ((List.prefix_of_prefix_length_le hx.fits hy.fits hlen.le).eq_of_length hlen)

/-- A blank is in front of nothing. -/
theorem Longest.isBlank_head (h : Longest (c :: cs) x) : Text.isBlank c = false := by
  obtain ⟨ds, hds, -⟩ := h.lexical.front h.fits
  rcases h.lexical.split hds with hc | hc | hc
  · exact isBlank_of_isDigit hc.1
  · exact isBlank_of_isLetter hc.1
  · exact hc.1

/-- A run is the longest, if nothing goes on from its first character in any other way. -/
theorem longest_run {r : Char → Bool} (h : Lexical (String.ofList (c :: cs.takeWhile r)))
    (hr : ∀ y ds, Lexical y → y.toList = c :: ds → ∀ e ∈ ds, r e = true) :
    Longest (c :: cs) (String.ofList (c :: cs.takeWhile r)) := by
  refine ⟨h, ?_, fun y hy hfits => ?_⟩
  · rw [String.toList_ofList, List.cons_prefix_cons]
    exact ⟨rfl, List.takeWhile_prefix r⟩
  · obtain ⟨ds, hds, bs, rfl⟩ := hy.front hfits
    rw [← String.length_toList, hds, String.length_ofList,
      List.takeWhile_append_of_pos (hr y ds hy hds)]
    simp

theorem longest_integer (hc : isDigit c = true) : Longest (c :: cs) (String.ofList (c :: cs.takeWhile isDigit)) := by
  refine longest_run (.integer (by simp) ?_) fun y ds hy hds => ?_
  · simp only [String.toList_ofList, List.forall_mem_cons, ← isDigit_eq]
    exact ⟨hc, fun d hd => List.mem_takeWhile_imp hd⟩
  · rcases hy.split hds with hd | hd | hd
    · exact hd.2
    · exact absurd hc (by simp [isDigit_of_isLetter hd.1])
    · exact absurd hc (by simp [hd.2.1])

theorem longest_word (hc : isLetter c = true) : Longest (c :: cs) (String.ofList (c :: cs.takeWhile isWordChar)) := by
  refine longest_run (.word (isIdentifier_ofList hc fun d hd => List.mem_takeWhile_imp hd)) fun y ds hy hds => ?_
  rcases hy.split hds with hd | hd | hd
  · exact absurd hd.1 (by simp [isDigit_of_isLetter hc])
  · exact hd.2
  · exact absurd hc (by simp [hd.2.2.1])

/-- The spellings are tried from the longest to the shortest. -/
theorem longest_symbol (hd : isDigit c = false) (hl : isLetter c = false)
    (h : symbolSpellings.find? (fun s => s.toList.isPrefixOf (c :: cs)) = some x) : Longest (c :: cs) x := by
  obtain ⟨hfits, xs, ys, hsplit, hfirst⟩ := List.find?_eq_some_iff_append.1 h
  have hmem : x ∈ symbolSpellings := List.mem_of_find?_eq_some h
  refine ⟨.operator (symbolSpellings_subset x hmem), List.isPrefixOf_iff_prefix.1 hfits, fun y hy hyfits => ?_⟩
  obtain ⟨ds, hds, -⟩ := hy.front hyfits
  have hymem : y ∈ symbolSpellings := by
    rcases hy.split hds with hcase | hcase | hcase
    · exact absurd hcase.1 (by simp [hd])
    · exact absurd hcase.1 (by simp [hl])
    · exact hcase.2.2.2
  rw [hsplit] at hymem
  rcases List.mem_append.1 hymem with hy' | hy'
  · have hnot := hfirst y hy'
    rw [List.isPrefixOf_iff_prefix.2 hyfits] at hnot
    cases hnot
  · rcases List.mem_cons.1 hy' with rfl | hy'
    · exact Nat.le_refl _
    · have hsorted := symbolSpellings_sorted
      rw [hsplit, List.pairwise_append, List.pairwise_cons] at hsorted
      exact hsorted.2.1.1 y hy'

/-! ## kinds -/

theorem isSome_lookup {α : Type} (es : List (String × α)) (x : String) : (es.lookup x).isSome = true ↔ x ∈ es.map (·.1) := by
  rw [List.lookup_isSome_iff]
  simp

theorem kindOf_symbol (h : x ∈ symbolSpellings) : kindOf x = .symbol := by
  rw [kindOf, if_pos (symbolSpellings_subset x h)]

theorem kindOf_word (h : isIdentifier x = true) : kindOf x = wordKind x := by
  have hparen : ∀ y ∈ ["(", ")"], isIdentifier y = false := by decide
  have hop : x ∈ operators ↔ ((BinOp.spellings.lookup x).isSome || (UnOp.spellings.lookup x).isSome) = true := by
    rw [Bool.or_eq_true, isSome_lookup, isSome_lookup, operators, List.mem_append, List.mem_append,
      or_iff_left]
    intro hx
    rw [hparen x hx] at h
    cases h
  unfold kindOf wordKind
  simp only [hop, ← isSome_lookup, h, if_true]

/-- Digits are no word and no symbol. -/
theorem kindOf_integer (hc : isDigit c = true) (hx : x.toList = c :: ds) : kindOf x = .integer := by
  have hword : isIdentifier x = false := by
    rw [← Bool.not_eq_true, isIdentifier_iff]
    rintro ⟨d, es, hes, hd, -⟩
    rw [hx] at hes
    cases hes
    exact absurd hc (by simp [isDigit_of_isLetter hd])
  have hop : x ∉ operators := by
    intro hmem
    rcases operators_split x hmem with h | h
    · rw [hword] at h
      cases h
    · obtain ⟨d, es, hes, -, hdigit, -⟩ := head_of_symbol h
      rw [hx] at hes
      cases hes
      exact absurd hc (by simp [hdigit])
  have hbool : x ∉ booleanSpellings.map (·.1) := by
    intro hmem
    have hall : ∀ y ∈ booleanSpellings.map (·.1), isIdentifier y = true := by decide
    rw [hall x hmem] at hword
    cases hword
  rw [kindOf, if_neg hop, if_neg hbool, if_neg (by simp [hword])]

/-! ## lexemes -/

theorem ofList_symbol (h : symbolSpellings.find? (fun s => s.toList.isPrefixOf (c :: cs)) = some x) :
    String.ofList (c :: cs.take (x.length - 1)) = x := by
  have hfits := List.find?_some h
  rw [List.isPrefixOf_iff_prefix] at hfits
  obtain ⟨ds, hds, hrest⟩ :=
    (Lexical.operator (symbolSpellings_subset x (List.mem_of_find?_eq_some h))).front hfits
  have hlen : x.length = ds.length + 1 := by rw [← String.length_toList, hds, List.length_cons]
  rw [hlen, Nat.add_sub_cancel, ← List.prefix_iff_eq_take.1 hrest, ← hds, String.ofList_toList]

/-- A lexeme that is not blank is the longest lexical text, and has the kind of it. -/
theorem longest_of_lexeme (h : lexeme c cs = some (l, n)) (hl : l ≠ .blank) :
    Longest (c :: cs) (String.ofList (c :: cs.take n)) ∧
      l.kind? (String.ofList (c :: cs.take n)) = some (kindOf (String.ofList (c :: cs.take n))) := by
  cases reads_of_lexeme h with
  | blank => exact absurd rfl hl
  | integer hc =>
    rw [take_takeWhile, kindOf_integer hc String.toList_ofList]
    exact ⟨longest_integer hc, rfl⟩
  | word hc =>
    rw [take_takeWhile, kindOf_word (isIdentifier_ofList hc fun d hd => List.mem_takeWhile_imp hd)]
    exact ⟨longest_word hc, rfl⟩
  | symbol hd hw hfind =>
    rw [ofList_symbol hfind, kindOf_symbol (List.mem_of_find?_eq_some hfind)]
    exact ⟨longest_symbol hd hw hfind, rfl⟩

-- an arrow, where `=` and `==` are operators too
example : lexeme '=' ['=', '>', '='] = some (.symbol, 2) := by decide

/-- A blank lexeme is a run of blanks, wherever it stands. -/
theorem blank_of_lexeme (hcs : cs.drop q = c :: ds) (h : lexeme c ds = some (.blank, n)) {i : Nat}
    {d : Char} (hi : q ≤ i) (hin : i < q + n + 1) (hd : cs[i]? = some d) :
    Text.isBlank d = true := by
  rw [← Nat.add_sub_cancel' hi, ← List.getElem?_drop, hcs] at hd
  cases reads_of_lexeme h with
  | blank hc =>
    have hmem : d ∈ (c :: ds).take ((ds.takeWhile Text.isBlank).length + 1) := by
      rw [List.mem_take_iff_getElem]
      obtain ⟨hlt, hget⟩ := List.getElem?_eq_some_iff.1 hd
      exact ⟨i - q, by omega, hget⟩
    rw [List.take_succ_cons, take_takeWhile] at hmem
    rcases List.mem_cons.1 hmem with rfl | hmem
    · exact hc
    · exact List.mem_takeWhile_imp hmem

theorem foreign_iff : Foreign c cs ↔ Text.isBlank c = false ∧ ∀ x, Lexical x → ¬ x.toList <+: c :: cs := by
  constructor
  · rintro ⟨hblank, hdigit, hletter, hsymbol⟩
    refine ⟨hblank, fun x hx hfits => ?_⟩
    obtain ⟨ds, hds, -⟩ := hx.front hfits
    rcases hx.split hds with hd | hd | hd
    · exact absurd hd.1 (by simp [hdigit])
    · exact absurd hd.1 (by simp [hletter])
    · exact hsymbol x hd.2.2.2 hfits
  · rintro ⟨hblank, hnone⟩
    have hone : (String.ofList [c]).toList <+: c :: cs := by simp
    refine ⟨hblank, ?_, ?_, fun x hx => hnone x (.operator (symbolSpellings_subset x hx))⟩
    · rw [← Bool.not_eq_true]
      exact fun hdigit => hnone _ (.integer (by simp) (by simpa [isDigit_eq] using hdigit)) hone
    · rw [← Bool.not_eq_true]
      exact fun hletter => hnone _ (.word (isIdentifier_ofList hletter (by simp))) hone

/-! ## tilings -/

/-- From `q` to `p` the text consists of the tokens, in order, and of blanks.  Each token is the
longest that can stand at its place. -/
structure Tiles (cs : List Char) (q p : Nat) (ts : List Token) : Prop where
  extent : ∀ t ∈ ts, q ≤ t.start ∧ t.start < t.stop ∧ t.stop ≤ p
  sorted : ts.Pairwise (·.stop ≤ ·.start)
  text : ∀ t ∈ ts, t.text.toList = (cs.take t.stop).drop t.start
  longest : ∀ t ∈ ts, Longest (cs.drop t.start) t.text
  kind : ∀ t ∈ ts, t.kind = kindOf t.text
  blank : ∀ i d, q ≤ i → i < p → cs[i]? = some d → (∀ t ∈ ts, ¬ (t.start ≤ i ∧ i < t.stop)) → Text.isBlank d = true

theorem tiles_nil (cs : List Char) (q : Nat) : Tiles cs q q [] :=
  ⟨nofun, .nil, nofun, nofun, nofun, fun _ _ h h' => by omega⟩

theorem Tiles.append {r : Nat} (h : Tiles cs q p ts) (h' : Tiles cs p r us) (hq : q ≤ p)
    (hp : p ≤ r) :
    Tiles cs q r (ts ++ us) where
  extent t ht := by
    rcases List.mem_append.1 ht with ht | ht
    · have := h.extent t ht
      omega
    · have := h'.extent t ht
      omega
  sorted := List.pairwise_append.2 ⟨h.sorted, h'.sorted, fun t ht u hu =>
    (h.extent t ht).2.2.trans (h'.extent u hu).1⟩
  text t ht := (List.mem_append.1 ht).elim (h.text t) (h'.text t)
  longest t ht := (List.mem_append.1 ht).elim (h.longest t) (h'.longest t)
  kind t ht := (List.mem_append.1 ht).elim (h.kind t) (h'.kind t)
  blank i d hqi hir hd hout := by
    by_cases hip : i < p
    · exact h.blank i d hqi hip hd fun t ht => hout t (List.mem_append_left _ ht)
    · exact h'.blank i d (by omega) hir hd fun t ht => hout t (List.mem_append_right _ ht)

/-- One lexeme. -/
theorem tiles_lexeme (hcs : cs.drop pos = c :: ds) (h : lexeme c ds = some (l, n)) :
    Tiles cs pos (pos + n + 1) (l.tokens (String.ofList (c :: ds.take n)) pos (pos + n + 1)) := by
  by_cases hl : l = .blank
  · subst hl
    exact ⟨nofun, .nil, nofun, nofun, nofun, fun i d hi hip hd _ => blank_of_lexeme hcs h hi hip hd⟩
  · obtain ⟨hlongest, hkind⟩ := longest_of_lexeme h hl
    have htext : (cs.take (pos + n + 1)).drop pos = c :: ds.take n := by
      rw [List.drop_take, hcs, show pos + n + 1 - pos = n + 1 by omega, List.take_succ_cons]
    rw [Lexeme.tokens, hkind, Option.map_some, Option.toList_some]
    refine ⟨?_, List.pairwise_singleton .., ?_, ?_, ?_, fun i d hi hip _ hout => ?_⟩
    · intro t ht
      rw [List.mem_singleton.1 ht]
      dsimp only
      omega
    · intro t ht
      rw [List.mem_singleton.1 ht, String.toList_ofList, htext]
    · intro t ht
      rw [List.mem_singleton.1 ht, hcs]
      exact hlongest
    · intro t ht
      rw [List.mem_singleton.1 ht]
    · exact absurd ⟨hi, hip⟩ (hout _ (List.mem_singleton_self _))

/-- What the scanner passes over. -/
theorem tiles_of_passes (h : Passes pos ds p rest ts) (hcs : cs.drop pos = ds) :
    Tiles cs pos p ts ∧ cs.drop p = rest := by
  induction h with
  | refl => exact ⟨tiles_nil cs _, hcs⟩
  | @step pos p n c ds rest l ts hl hp ih =>
    have hnext : cs.drop (pos + n + 1) = ds.drop n := by
      rw [Nat.add_assoc, ← List.drop_drop, hcs, List.drop_succ_cons]
    obtain ⟨hrest, hend⟩ := ih hnext
    exact ⟨(tiles_lexeme hcs hl).append hrest (by omega) hp.le, hend⟩

/-! ## the only tiling -/

/-- What follows the first token. -/
theorem Tiles.tail (h : Tiles cs q p (t :: ts)) : Tiles cs t.stop p ts where
  extent u hu := ⟨(List.pairwise_cons.1 h.sorted).1 u hu, (h.extent u (List.mem_cons_of_mem _ hu)).2⟩
  sorted := (List.pairwise_cons.1 h.sorted).2
  text u hu := h.text u (List.mem_cons_of_mem _ hu)
  longest u hu := h.longest u (List.mem_cons_of_mem _ hu)
  kind u hu := h.kind u (List.mem_cons_of_mem _ hu)
  blank i d hi hip hd hout := by
    have := h.extent t (List.mem_cons_self ..)
    refine h.blank i d (by omega) hip hd fun u hu => ?_
    rcases List.mem_cons.1 hu with rfl | hu
    · omega
    · exact hout u hu

/-- A token at the first position is the first one. -/
theorem Tiles.first (h : Tiles cs q p ts) (ht : t ∈ ts) (hq : t.start ≤ q) :
    t.start = q ∧ ∃ us, ts = t :: us := by
  have hstart := (h.extent t ht).1
  refine ⟨by omega, ?_⟩
  cases ts with
  | nil => cases ht
  | cons u us =>
    rcases List.mem_cons.1 ht with rfl | ht
    · exact ⟨us, rfl⟩
    · have hbefore := (List.pairwise_cons.1 h.sorted).1 t ht
      have := h.extent u (List.mem_cons_self ..)
      omega

theorem Tiles.stop_eq (h : Tiles cs q p ts) (hp : p ≤ cs.length) (ht : t ∈ ts) : t.stop = t.start + t.text.length := by
  have := h.extent t ht
  rw [← String.length_toList, h.text t ht, List.length_drop, List.length_take]
  omega

/-- A tiling may start behind blanks. -/
theorem Tiles.skip {r : Nat} (h : Tiles cs q p ts) (hp : p ≤ cs.length) (hr : q ≤ r)
    (hblank : ∀ i d, q ≤ i → i < r → cs[i]? = some d → Text.isBlank d = true) :
    Tiles cs r p ts where
  extent t ht := by
    obtain ⟨hstart, hextent⟩ := h.extent t ht
    refine ⟨?_, hextent⟩
    by_contra hlt
    have hlen : t.start < cs.length := by omega
    have hdrop : cs.drop t.start = cs[t.start] :: cs.drop (t.start + 1) :=
      List.drop_eq_getElem_cons hlen
    have hlongest := h.longest t ht
    rw [hdrop] at hlongest
    have hblank' := hblank t.start cs[t.start] hstart (by omega) (List.getElem?_eq_getElem hlen)
    rw [hlongest.isBlank_head] at hblank'
    cases hblank'
  sorted := h.sorted
  text := h.text
  longest := h.longest
  kind := h.kind
  blank i d hi := h.blank i d (by omega)

/-- Where a token starts, the scanner has no other choice. -/
theorem Tiles.lexeme_first (h : Tiles cs q p (t :: ts)) (hp : p ≤ cs.length) (hstart : t.start = q)
    (hcs : cs.drop q = c :: ds) :
    ∃ l n, lexeme c ds = some (l, n) ∧ t.stop = q + n + 1 ∧ l.tokens (String.ofList (c :: ds.take n)) q (q + n + 1) = [t] := by
  have ht : t ∈ t :: ts := List.mem_cons_self ..
  have hlongest := h.longest t ht
  rw [hstart, hcs] at hlongest
  have hnot : ¬ Foreign c ds := fun hf => (foreign_iff.1 hf).2 _ hlongest.lexical hlongest.fits
  obtain ⟨⟨l, n⟩, hl⟩ := Option.ne_none_iff_exists'.1 (mt lexeme_eq_none_iff.1 hnot)
  have hsome : l ≠ .blank := by
    rintro rfl
    cases reads_of_lexeme hl with
    | blank hc =>
      rw [hlongest.isBlank_head] at hc
      cases hc
  obtain ⟨hlongest', hkind⟩ := longest_of_lexeme hl hsome
  have htext : t.text = String.ofList (c :: ds.take n) := hlongest.eq hlongest'
  have hstop : t.stop = q + n + 1 := by
    rw [h.stop_eq hp ht, htext, String.length_ofList, hstart, List.length_cons,
      List.length_take_of_le (lexeme_le hl)]
    rfl
  refine ⟨l, n, hl, hstop, ?_⟩
  rw [Lexeme.tokens, hkind, ← htext, ← h.kind t ht, ← hstop, ← hstart]
  rfl

/-- Where none starts, it takes all blanks up to the next token. -/
theorem Tiles.lexeme_blank (h : Tiles cs q p ts) (hp : p ≤ cs.length) (hqp : q < p)
    (hend : ∀ d, cs[p]? = some d → Text.isBlank d = false)
    (hout : ∀ t ∈ ts, ¬ (t.start ≤ q ∧ q < t.stop)) (hcs : cs.drop q = c :: ds) :
    ∃ n, lexeme c ds = some (.blank, n) ∧ q + n + 1 ≤ p ∧ Tiles cs (q + n + 1) p ts := by
  have hc : Text.isBlank c = true := by
    refine h.blank q c (Nat.le_refl q) hqp ?_ hout
    rw [← Nat.add_zero q, ← List.getElem?_drop, hcs]
    rfl
  have hl : lexeme c ds = some (.blank, (ds.takeWhile Text.isBlank).length) := by
    unfold lexeme
    rw [if_pos hc]
  generalize (ds.takeWhile Text.isBlank).length = n at hl
  have hblank : ∀ i d, q ≤ i → i < q + n + 1 → cs[i]? = some d → Text.isBlank d = true :=
    fun i d hi hin hd => blank_of_lexeme hcs hl hi hin hd
  refine ⟨n, hl, ?_, h.skip hp (by omega) hblank⟩
  -- what stands at `p` is not one of the blanks
  by_contra hlt
  have hlen : p < cs.length := by
    have hle := lexeme_le hl
    have hdrop := congrArg List.length hcs
    rw [List.length_drop, List.length_cons] at hdrop
    omega
  have hget : cs[p]? = some cs[p] := List.getElem?_eq_getElem hlen
  have hblank' := hblank p cs[p] (by omega) (by omega) hget
  rw [hend _ hget] at hblank'
  cases hblank'

/-- Up to the end or to a character that is not blank, the scanner passes over any tiling there
is. -/
theorem passes_of_tiles (h : Tiles cs q p ts) (hqp : q ≤ p) (hp : p ≤ cs.length)
    (hend : ∀ d, cs[p]? = some d → Text.isBlank d = false) : Passes q (cs.drop q) p (cs.drop p) ts := by
  induction hk : p - q using Nat.strongRecOn generalizing q ts with
  | ind k ih =>
    rcases Nat.lt_or_eq_of_le hqp with hlt | rfl
    · have hcs : cs.drop q = cs[q] :: cs.drop (q + 1) := List.drop_eq_getElem_cons (by omega)
      have hnext : ∀ n, (cs.drop (q + 1)).drop n = cs.drop (q + n + 1) := by
        intro n
        rw [List.drop_drop, Nat.add_right_comm]
      by_cases hin : ∃ t ∈ ts, t.start ≤ q ∧ q < t.stop
      · obtain ⟨t, ht, hle, -⟩ := hin
        obtain ⟨hstart, us, rfl⟩ := h.first ht hle
        obtain ⟨l, n, hl, hstop, htokens⟩ := h.lexeme_first hp hstart hcs
        have hle' : t.stop ≤ p := (h.extent t ht).2.2
        have hrest := ih (p - t.stop) (by omega) h.tail hle' rfl
        rw [hstop, ← hnext] at hrest
        have hstep := Passes.step hl hrest
        rwa [htokens, ← hcs] at hstep
      · have hout : ∀ t ∈ ts, ¬ (t.start ≤ q ∧ q < t.stop) := fun t ht hq => hin ⟨t, ht, hq⟩
        obtain ⟨n, hl, hle, hskip⟩ := h.lexeme_blank hp hlt hend hout hcs
        have hrest := ih (p - (q + n + 1)) (by omega) hskip hle rfl
        rw [← hnext] at hrest
        have hstep := Passes.step hl hrest
        rwa [← hcs] at hstep
    · cases ts with
      | nil => exact .refl
      | cons t ts =>
        have := h.extent t (List.mem_cons_self ..)
        omega

end Token

open Token

/-! ## the outcome -/

/-- What is made of a text: the tokens that tile it, and an empty one at the end; or the error at a
character that is not blank and starts no token, behind tokens that tile what stands in front of
it. -/
inductive Munched (source : String) : Except ParseError (List Token) → Prop where
  | tokens {ts : List Token} (h : Tiles source.toList 0 source.length ts) :
      Munched source (.ok (ts ++ [⟨.finish, "", source.length, source.length⟩]))
  | invalid {p : Nat} {c : Char} {ts : List Token} (h : Tiles source.toList 0 p ts) (hc : source.toList[p]? = some c)
      (hblank : Text.isBlank c = false) (hnone : ∀ x, Lexical x → ¬ x.toList <+: source.toList.drop p) :
      Munched source (.error ⟨.invalidCharacter c, source, p, p + 1⟩)

theorem munched_tokenize (source : String) : Munched source (tokenize source) := by
  have hstart : source.toList.drop 0 = source.toList := List.drop_zero
  unfold tokenize
  cases hs : scan 0 source.toList with
  | ok ts => exact .tokens (tiles_of_passes (passes_to_end hs) hstart).1
  | error r =>
    obtain ⟨c, p⟩ := r
    obtain ⟨rest, ts, hp, hforeign⟩ := passes_of_scan_error hs
    obtain ⟨hpart, hrest⟩ := tiles_of_passes hp hstart
    obtain ⟨hblank, hnone⟩ := foreign_iff.1 hforeign
    have hc : source.toList[p]? = some c := by
      rw [← Nat.add_zero p, ← List.getElem?_drop, hrest]
      rfl
    exact .invalid hpart hc hblank (hrest ▸ hnone)

theorem tokenize_of_munched {source : String} {r : Except ParseError (List Token)}
    (h : Munched source r) :
    tokenize source = r := by
  cases h with
  | @tokens ts h =>
    have hp := passes_of_tiles h (Nat.zero_le _) String.length_toList.ge fun d hd => by
      rw [List.getElem?_eq_none String.length_toList.le] at hd
      cases hd
    have hs := scan_of_passes hp
    rw [List.drop_zero, ← String.length_toList, List.drop_length, scan_nil] at hs
    unfold tokenize
    rw [hs]
    simp [Except.map]
  | @invalid p c ts h hc hblank hnone =>
    obtain ⟨hlt, hget⟩ := List.getElem?_eq_some_iff.1 hc
    have hp := passes_of_tiles h (Nat.zero_le _) hlt.le fun d hd => by
      rw [hc] at hd
      cases hd
      exact hblank
    have hs := scan_of_passes hp
    rw [List.drop_eq_getElem_cons hlt, hget] at hnone hs
    rw [List.drop_zero, scan_foreign (foreign_iff.2 ⟨hblank, hnone⟩)] at hs
    unfold tokenize
    rw [hs]
    rfl

/-- The tokens of a text tile it, with blanks between them and each token as long as it can be; or
else the error spans the character at which this comes to an end.  This is all that is made of a
text, and every text has it. -/
theorem tokenize_maximalMunch (source : String) (r : Except ParseError (List Token)) :
    tokenize source = r ↔ Munched source r :=
  ⟨fun h => h ▸ munched_tokenize source, tokenize_of_munched⟩

end ContractVerifier
