import ContractVerifier.Proofs.Expr.Recognition
import ContractVerifier.Proofs.Expr.Viable

/-!
# A parse error points at the first offending token

* `Passes` : the scanner comes from one position of a text to another, over lexemes with certain
  tokens;
* `Foreign` : the characters that start no lexeme; a scan ends at the first position with them, or
  at the end of the text;
* `Passes.cut` : a text may be cut at a position the scanner comes to, and parentheses put behind
  it, without a change to the tokens in front;
* `Place.closing` : what makes a condition of the tokens gone over so far;
* `parse_error_span` : the span of a parse error is that of the first character or token with which
  no condition goes on.
-/

namespace ContractVerifier

namespace Token

variable {c : Char} {cs rest tail : List Char} {pos p n : Nat} {ts us vs : List Token} {t : Token} {l : Lexeme}

/-! ## positions of a scan -/

/-- The scanner comes from `cs` at `pos` to `rest` at `p`, and has the tokens `ts` then. -/
inductive Passes : Nat → List Char → Nat → List Char → List Token → Prop where
  | refl {pos : Nat} {cs : List Char} : Passes pos cs pos cs []
  | step {pos p n : Nat} {c : Char} {cs rest : List Char} {l : Lexeme} {ts : List Token}
      (hl : lexeme c cs = some (l, n)) (h : Passes (pos + n + 1) (cs.drop n) p rest ts) :
      Passes pos (c :: cs) p rest (l.tokens (String.ofList (c :: cs.take n)) pos (pos + n + 1) ++ ts)

/-- No blank, and no token starts here. -/
def Foreign (c : Char) (cs : List Char) : Prop :=
  Text.isBlank c = false ∧ isDigit c = false ∧ isLetter c = false ∧ ∀ s ∈ symbolSpellings, ¬ s.toList <+: c :: cs

theorem lexeme_eq_none_iff : lexeme c cs = none ↔ Foreign c cs := by
  unfold lexeme Foreign
  cases Text.isBlank c with
  | true => simp
  | false =>
    cases isDigit c with
    | true => simp
    | false =>
      cases isLetter c with
      | true => simp
      | false => simp [List.isPrefixOf_iff_prefix]

theorem scan_of_passes (h : Passes pos cs p rest ts) : scan pos cs = (scan p rest).map (ts ++ ·) := by
  induction h with
  | @refl pos cs => cases scan pos cs <;> rfl
  | @step pos p n c cs rest l ts hl _ ih =>
    rw [scan_lexeme hl, ih]
    cases scan p rest with
    | error e => rfl
    | ok us => simp [Except.map]

theorem scan_foreign (h : Foreign c cs) (pos : Nat) : scan pos (c :: cs) = .error (c, pos) := by
  unfold scan
  simp only [lexeme_eq_none_iff.2 h]

/-- The scanner comes to the end or to a foreign character. -/
theorem exists_passes (pos : Nat) (cs : List Char) :
    ∃ p rest ts, Passes pos cs p rest ts ∧ ∀ c cs', rest = c :: cs' → Foreign c cs' := by
  induction hn : cs.length using Nat.strongRecOn generalizing pos cs with
  | ind k ih =>
    cases cs with
    | nil => exact ⟨pos, [], [], .refl, nofun⟩
    | cons c cs =>
      cases hl : lexeme c cs with
      | none =>
        refine ⟨pos, c :: cs, [], .refl, fun d ds hd => ?_⟩
        cases hd
        exact lexeme_eq_none_iff.1 hl
      | some m =>
        obtain ⟨l, n⟩ := m
        have hlt : (cs.drop n).length < k := by
          rw [← hn, List.length_drop, List.length_cons]
          omega
        obtain ⟨p, rest, ts, hp, hrest⟩ := ih _ hlt (pos + n + 1) (cs.drop n) rfl
        exact ⟨p, rest, _, .step hl hp, hrest⟩

theorem passes_of_scan (h : scan pos cs = .ok ts) : ∃ p, Passes pos cs p [] ts := by
  obtain ⟨p, rest, us, hp, hrest⟩ := exists_passes pos cs
  rw [scan_of_passes hp] at h
  cases rest with
  | nil =>
    rw [scan_nil] at h
    cases h
    exact ⟨p, by simpa using hp⟩
  | cons c rest =>
    rw [scan_foreign (hrest c rest rfl)] at h
    cases h

theorem passes_of_scan_error (h : scan pos cs = .error (c, p)) :
    ∃ rest ts, Passes pos cs p (c :: rest) ts ∧ Foreign c rest := by
  obtain ⟨p', rest, us, hp, hrest⟩ := exists_passes pos cs
  rw [scan_of_passes hp] at h
  cases rest with
  | nil =>
    rw [scan_nil] at h
    cases h
  | cons d rest =>
    have hforeign := hrest d rest rfl
    rw [scan_foreign hforeign] at h
    cases h
    exact ⟨rest, us, hp, hforeign⟩

theorem not_foreign_of_scan (h : scan pos cs = .ok ts) (hp : Passes pos cs p (c :: rest) us) : ¬ Foreign c rest := by
  intro hforeign
  rw [scan_of_passes hp, scan_foreign hforeign] at h
  cases h

/-! ## the tokens in between -/

theorem mem_tokens {s : String} {stop : Nat} (h : t ∈ l.tokens s pos stop) :
    t.start = pos ∧ t.stop = stop ∧ t.kind ≠ .finish := by
  unfold Lexeme.tokens at h
  rw [Option.mem_toList, Option.map_eq_some_iff] at h
  obtain ⟨k, hk, rfl⟩ := h
  refine ⟨rfl, rfl, ?_⟩
  rintro rfl
  cases l with
  | blank | integer | symbol => cases hk
  | word =>
    simp only [Lexeme.kind?, wordKind, Option.some.injEq] at hk
    split at hk
    · cases hk
    · split at hk <;> cases hk

theorem Passes.le (h : Passes pos cs p rest ts) : pos ≤ p := by
  induction h with
  | refl => exact Nat.le_refl _
  | step _ _ ih => omega

theorem Passes.bounds (h : Passes pos cs p rest ts) :
    ∀ t ∈ ts, pos ≤ t.start ∧ t.start < t.stop ∧ t.stop ≤ p ∧ t.kind ≠ .finish := by
  induction h with
  | refl => simp
  | @step pos p n c cs rest l ts _ hp ih =>
    intro t ht
    rcases List.mem_append.1 ht with ht | ht
    · obtain ⟨hstart, hstop, hkind⟩ := mem_tokens ht
      have hle := hp.le
      exact ⟨by omega, by omega, by omega, hkind⟩
    · obtain ⟨hstart, hrest⟩ := ih t ht
      exact ⟨by omega, hrest⟩

theorem Passes.sorted (h : Passes pos cs p rest ts) : ts.Pairwise (·.stop ≤ ·.start) := by
  induction h with
  | refl => exact .nil
  | @step pos p n c cs rest l ts _ hp ih =>
    refine List.pairwise_append.2 ⟨?_, ih, fun t ht u hu => ?_⟩
    · unfold Lexeme.tokens
      cases l.kind? (String.ofList (c :: cs.take n)) <;> simp
    · rw [(mem_tokens ht).2.1]
      exact (hp.bounds u hu).1

/-- The scanner comes to the start of each token. -/
theorem Passes.upto (h : Passes pos cs p rest ts) (hts : ts = us ++ t :: vs) : ∃ rest', Passes pos cs t.start rest' us := by
  induction h generalizing us with
  | refl => simp at hts
  | @step pos p n c cs rest l ts hl _ ih =>
    cases hk : l.kind? (String.ofList (c :: cs.take n)) with
    | none =>
      have hnone : l.tokens (String.ofList (c :: cs.take n)) pos (pos + n + 1) = [] := by
        rw [Lexeme.tokens, hk]
        rfl
      rw [hnone, List.nil_append] at hts
      obtain ⟨rest', hp⟩ := ih hts
      refine ⟨rest', ?_⟩
      have hstep := Passes.step hl hp
      rwa [hnone, List.nil_append] at hstep
    | some k =>
      have hone : l.tokens (String.ofList (c :: cs.take n)) pos (pos + n + 1) =
          [⟨k, String.ofList (c :: cs.take n), pos, pos + n + 1⟩] := by
        rw [Lexeme.tokens, hk]
        rfl
      rw [hone, List.singleton_append] at hts
      cases us with
      | nil =>
        cases hts
        exact ⟨c :: cs, .refl⟩
      | cons u us =>
        rw [List.cons_append, List.cons.injEq] at hts
        obtain ⟨rest', hp⟩ := ih hts.2
        refine ⟨rest', ?_⟩
        have hstep := Passes.step hl hp
        rwa [hone, List.singleton_append, hts.1] at hstep

/-! ## cutting a text -/

/-- What comes next, if anything, is a parenthesis. -/
def Parenthesised (cs : List Char) : Prop := ∀ d ∈ cs.head?, d = '(' ∨ d = ')'

theorem Parenthesised.ends (h : Parenthesised cs) {q : Char → Bool}
    (hopen : q '(' = false) (hclose : q ')' = false) :
    Ends q cs := by
  intro d hd
  rcases h d hd with rfl | rfl
  · exact hopen
  · exact hclose

/-- The end of a run does not depend on what stands further behind. -/
theorem length_takeWhile_cut {q : Char → Bool} {as ds bs : List Char}
    (h : ((as ++ (ds ++ bs)).takeWhile q).length = as.length) (ht : Ends q tail) :
    ((as ++ (ds ++ tail)).takeWhile q).length = as.length := by
  have hrun : (as ++ (ds ++ bs)).takeWhile q = as := by
    have htake := take_takeWhile q (as ++ (ds ++ bs))
    rw [h, List.take_left] at htake
    exact htake.symm
  have hall : ∀ d ∈ as, q d = true := fun d hd => List.mem_takeWhile_imp (hrun.symm ▸ hd)
  have hends : Ends q (ds ++ tail) := by
    cases ds with
    | nil => exact ht
    | cons d ds =>
      intro d' hd'
      cases hd'
      rw [List.takeWhile_append_of_pos hall, List.append_right_eq_self, List.cons_append] at hrun
      by_contra hd
      rw [List.takeWhile_cons_of_pos (by simpa using hd)] at hrun
      cases hrun
  rw [takeWhile_of_ends hall hends]

/-- No spelling goes on with a parenthesis. -/
theorem spellings_inner : symbolSpellings.all (fun s => s.toList.tail.all fun d => d != '(' && d != ')') = true := rfl

theorem spelling_cut {s : String} (hs : s ∈ symbolSpellings) (hne : cs ≠ [])
    (ht : Parenthesised tail) (h : s.toList <+: cs ++ tail) : s.toList <+: cs := by
  by_cases hle : s.toList.length ≤ cs.length
  · exact List.prefix_of_prefix_length_le h (List.prefix_append cs tail) hle
  · obtain ⟨ds, hds⟩ := List.prefix_of_prefix_length_le (List.prefix_append cs tail) h (by omega)
    cases ds with
    | nil => simp [← hds] at hle
    | cons d ds =>
      rw [← hds, List.prefix_append_right_inj] at h
      obtain ⟨es, rfl⟩ := h
      have hmem : d ∈ s.toList.tail := by
        rw [← hds, List.tail_append_of_ne_nil hne]
        simp
      have hinner := List.all_eq_true.1 (List.all_eq_true.1 spellings_inner s hs) d hmem
      rcases ht d (by simp) with rfl | rfl
      · cases hinner
      · cases hinner

theorem find?_spelling_cut {s : String} {as ds bs : List Char}
    (h : symbolSpellings.find? (fun s => s.toList.isPrefixOf (c :: (as ++ (ds ++ bs)))) = some s)
    (hn : s.length - 1 = as.length) (ht : Parenthesised tail) :
    symbolSpellings.find? (fun s => s.toList.isPrefixOf (c :: (as ++ (ds ++ tail)))) = some s := by
  rw [List.find?_eq_some_iff_append] at h ⊢
  obtain ⟨hfits, ss, ss', hspell, hfirst⟩ := h
  have hmem : s ∈ symbolSpellings := by simp [hspell]
  have hfull : s.toList.length = (c :: as).length := by
    have hpos : ∀ s ∈ symbolSpellings, 0 < s.length := by decide
    have := hpos s hmem
    rw [String.length_toList, List.length_cons]
    omega
  have hlex : s.toList = c :: as := by
    rw [List.isPrefixOf_iff_prefix, ← List.cons_append] at hfits
    exact (List.prefix_of_prefix_length_le hfits (List.prefix_append ..) hfull.le).eq_of_length
      hfull
  refine ⟨?_, ss, ss', hspell, fun a ha => ?_⟩
  · rw [List.isPrefixOf_iff_prefix, hlex, ← List.cons_append]
    exact List.prefix_append ..
  · -- what is tried first fits no better than before
    have hmem' : a ∈ symbolSpellings := by simp [hspell, ha]
    have hnot := hfirst a ha
    rw [Bool.not_eq_true', ← Bool.not_eq_true, List.isPrefixOf_iff_prefix, ← List.cons_append,
      ← List.append_assoc]
      at hnot ⊢
    intro hfits'
    have hinside : a.toList <+: c :: as ++ ds := spelling_cut hmem' (by simp) ht hfits'
    exact hnot (hinside.trans (List.prefix_append ..))

/-- The end of a lexeme does not depend on what stands further behind. -/
theorem lexeme_cut {as ds bs : List Char} (h : lexeme c (as ++ (ds ++ bs)) = some (l, as.length))
    (ht : Parenthesised tail) :
    lexeme c (as ++ (ds ++ tail)) = some (l, as.length) := by
  unfold lexeme at h ⊢
  by_cases hblank : Text.isBlank c = true
  · rw [if_pos hblank] at h ⊢
    obtain ⟨rfl, hn⟩ := Prod.mk.inj (Option.some.inj h)
    rw [length_takeWhile_cut hn (ht.ends (by decide) (by decide))]
  rw [if_neg hblank] at h ⊢
  by_cases hdigit : isDigit c = true
  · rw [if_pos hdigit] at h ⊢
    obtain ⟨rfl, hn⟩ := Prod.mk.inj (Option.some.inj h)
    rw [length_takeWhile_cut hn (ht.ends (by decide) (by decide))]
  rw [if_neg hdigit] at h ⊢
  by_cases hletter : isLetter c = true
  · rw [if_pos hletter] at h ⊢
    obtain ⟨rfl, hn⟩ := Prod.mk.inj (Option.some.inj h)
    rw [length_takeWhile_cut hn (ht.ends (by decide) (by decide))]
  rw [if_neg hletter] at h ⊢
  obtain ⟨s, hfind, hs⟩ := Option.map_eq_some_iff.1 h
  rw [find?_spelling_cut hfind (Prod.mk.inj hs).2 ht, Option.map_some, hs]

theorem lexeme_le (h : lexeme c cs = some (l, n)) : n ≤ cs.length := by
  cases reads_of_lexeme h with
  | blank | integer | word => exact (List.takeWhile_prefix _).length_le
  | @symbol s _ _ hfind =>
    have hpre := List.find?_some hfind
    rw [List.isPrefixOf_iff_prefix] at hpre
    have := hpre.length_le
    rw [String.length_toList, List.length_cons] at this
    omega

/-- What stands in front of a position of the scanner gives the same tokens in front of
parentheses. -/
theorem Passes.cut (h : Passes pos cs p rest ts) :
    ∃ ds, cs = ds ++ rest ∧ p = pos + ds.length ∧ ∀ tail, Parenthesised tail → Scans pos ds tail ts := by
  induction h with
  | @refl pos cs =>
    refine ⟨[], rfl, rfl, fun tail _ => ?_⟩
    unfold Scans
    cases h : scan pos tail <;> simp [h, Except.map]
  | @step pos p n c cs rest l ts hl _ ih =>
    obtain ⟨ds, hds, hp, hscans⟩ := ih
    have hn : (cs.take n).length = n := List.length_take_of_le (lexeme_le hl)
    have hcs : cs = cs.take n ++ (ds ++ rest) := by rw [← hds, List.take_append_drop]
    refine ⟨c :: cs.take n ++ ds, ?_, ?_, fun tail ht => ?_⟩
    · rw [List.append_assoc, List.cons_append, ← hcs]
    · rw [hp, List.length_append, List.length_cons, hn]
      omega
    · have hlex : lexeme c (cs.take n ++ (ds ++ rest)) = some (l, (cs.take n).length) := by
        rw [← hcs, hn, hl]
      have hfirst : Scans pos (c :: cs.take n) (ds ++ tail) _ := .lexeme (lexeme_cut hlex ht)
      rw [hn] at hfirst
      refine hfirst.append ?_
      rw [List.length_cons, hn]
      exact hscans tail ht

end Token

open Token

/-! ## completing a condition -/

namespace Parser.Place

/-- An operand, if one is awaited, and the parentheses that are open. -/
def closing : Place → List Char
  | before d => '(' :: '0' :: List.replicate (d + 1) ')'
  | behind d => List.replicate d ')'

theorem parenthesised_closing (p : Place) : Parenthesised p.closing := by
  cases p with
  | before d => simp [closing, Parenthesised]
  | behind d => cases d <;> simp [closing, Parenthesised, List.replicate_succ]

theorem scan_closing_behind (d pos : Nat) :
    ∃ us, scan pos (List.replicate d ')') = .ok us ∧ (behind d).walk us = some (behind 0) ∧ Short us := by
  induction d generalizing pos with
  | zero => exact ⟨[], scan_nil pos, rfl, nofun⟩
  | succ d ih =>
    obtain ⟨us, hscan, hwalk, hshort⟩ := ih (pos + 1)
    refine ⟨⟨.symbol, ")", pos, pos + 1⟩ :: us, scan_cons rfl hscan rfl, ?_, hshort.cons nofun⟩
    rw [walk_cons_of_next (next_close d rfl), hwalk]

theorem scan_closing (p : Place) (pos : Nat) :
    ∃ us, scan pos p.closing = .ok us ∧ p.walk us = some (behind 0) ∧ Short us := by
  cases p with
  | behind d => exact scan_closing_behind d pos
  | before d =>
    obtain ⟨us, hscan, hwalk, hshort⟩ := scan_closing_behind (d + 1) (pos + 1 + 1)
    refine ⟨⟨.symbol, "(", pos, pos + 1⟩ :: ⟨.integer, "0", pos + 1, pos + 1 + 1⟩ :: us, ?_, ?_, ?_⟩
    · exact scan_cons rfl (scan_cons rfl hscan rfl) rfl
    · rw [walk_cons_of_next (next_open d rfl), walk_cons_of_next (next_operand (d + 1) rfl), hwalk]
    · have hzero : Short [⟨.integer, "0", pos + 1, pos + 1 + 1⟩] := by
        intro t ht _
        rw [List.mem_singleton.1 ht]
        show "0".length ≤ Text.maxDigits
        decide
      exact (hzero.append hshort).cons nofun

end Parser.Place

open ContractVerifier.Parser ContractVerifier.Parser.Place

/-- The first `p` characters of a text have the tokens `ts`, and with other characters behind them
they are a condition that begins with these tokens. -/
def GoesOn (source : String) (p : Nat) (ts : List Token) : Prop :=
  ∃ more us e, tokenize (String.ofList (source.toList.take p) ++ more) = .ok (ts ++ us) ∧
    parse (String.ofList (source.toList.take p) ++ more) = .ok e

theorem goesOn_of_walk {source : String} {rest : List Char} {p : Nat} {ts : List Token} {q : Place}
    (h : Passes 0 source.toList p rest ts) (hq : (before 0).walk ts = some q) (hx : Short ts) : GoesOn source p ts := by
  obtain ⟨ds, hds, hp, hscans⟩ := h.cut
  obtain ⟨us, hscan, hwalk, hshort⟩ := scan_closing q p
  have hfront : source.toList.take p = ds := by rw [hp, Nat.zero_add, hds, List.take_left]
  have hall : scan 0 (String.ofList ds ++ String.ofList q.closing).toList = .ok (ts ++ us) := by
    have hpiece : scan 0 (ds ++ q.closing) = (scan (0 + ds.length) q.closing).map (ts ++ ·) :=
      hscans q.closing q.parenthesised_closing
    rw [String.toList_append, String.toList_ofList, String.toList_ofList, hpiece, ← hp, hscan]
    rfl
  have hlegible : Legible (ts ++ us) := ⟨spelled_of_scan hall, hx.append hshort⟩
  obtain ⟨e, he⟩ := derives_of_walk hlegible ((walk_append_of_walk hq).trans hwalk)
  obtain ⟨fin, -, htokens⟩ := exists_tokenize hall
  rw [List.append_assoc] at htokens
  unfold GoesOn
  rw [hfront]
  exact ⟨String.ofList q.closing, us ++ [fin], e, htokens, parse_of_derives hall he hlegible.short⟩

/-- Nothing derives with a token that may not stand where it does. -/
theorem not_derives_of_next {xs us : List Token} {t : Token} {q : Place}
    (hxs : (before 0).walk xs = some q) (ht : q.next t = none) (e : Expr) :
    ¬ Derives .condition (xs ++ t :: us) e := by
  intro h
  have hwalk := walk_of_derives h 0
  rw [walk_append_of_walk hxs, walk_cons, ht] at hwalk
  cases hwalk

/-! ## the span of an error -/

/-- The error that a refusal becomes. -/
theorem parse_error_of_scan {source : String} {ts : List Token} {x : ParseError}
    (hs : scan 0 source.toList = .ok ts) (h : parse source = .error (.error (.parse x))) :
    condition source.length ts = .error (.refused x.cause x.start x.stop) ∧ x.source = source := by
  rw [parse_of_scan hs] at h
  cases hc : condition source.length ts with
  | ok e =>
    rw [hc] at h
    cases h
  | error r =>
    rw [hc] at h
    cases r with
    | tooLong => cases h
    | refused cause start stop =>
      cases h
      exact ⟨rfl, rfl⟩

theorem passes_to_end {source : String} {ts : List Token} (hs : scan 0 source.toList = .ok ts) :
    Passes 0 source.toList source.length [] ts := by
  obtain ⟨p, hp⟩ := passes_of_scan hs
  obtain ⟨ds, hds, hend, -⟩ := hp.cut
  have hlen : p = source.length := by
    rw [hend, Nat.zero_add, ← String.length_toList, hds, List.append_nil]
  exact hlen ▸ hp

/-- What an error points at: `t` is the only token at its position, and a condition goes on with the
text in front of it. With `t` none goes on, and its extent is the span; or `t` is the end, and the
tokens in front are no condition. -/
structure Offends (source : String) (x : ParseError) (front : List Token) (t : Token)
    (rest : List Token) : Prop where
  tokens : tokenize source = .ok (front ++ t :: rest)
  start : t.start = x.start
  alone : ∀ u ∈ front ++ rest, u.start ≠ x.start
  goesOn : GoesOn source x.start front
  span : (t.kind ≠ .finish ∧ (∀ us e, ¬ Derives .condition (front ++ t :: us) e) ∧ x.stop = t.stop) ∨
    (t.kind = .finish ∧ rest = [] ∧ (∀ e, ¬ Derives .condition front e) ∧
      x.start = source.length ∧ x.stop = source.length + 1)

/-- The first token that may not stand where it does. -/
theorem offends_token {source : String} {x : ParseError} {cause : ParseCause} {xs rest : List Token}
    {t : Token} {q : Place} (hs : scan 0 source.toList = .ok (xs ++ t :: rest))
    (hx : Short (xs ++ t :: rest)) (hxs : (before 0).walk xs = some q) (ht : q.next t = none)
    (hr : Refusal.refused x.cause x.start x.stop = refuse cause t) :
    ∃ rest', Offends source x xs t rest' := by
  have hp := passes_to_end hs
  obtain ⟨-, hlt, hle, hkind⟩ := hp.bounds t (by simp)
  obtain ⟨cs, hupto⟩ := hp.upto rfl
  have hsorted := List.pairwise_append.1 hp.sorted
  unfold refuse at hr
  rw [if_pos hlt, Refusal.refused.injEq] at hr
  obtain ⟨-, hstart, hstop⟩ := hr
  refine ⟨rest ++ [⟨.finish, "", source.length, source.length⟩], ?_, hstart.symm, fun u hu => ?_, ?_, .inl ⟨hkind, ?_, hstop⟩⟩
  · rw [tokenize, hs]
    simp
  · rw [hstart]
    simp only [List.mem_append, List.mem_singleton] at hu
    rcases hu with hu | hu | rfl
    · have hfront := hsorted.2.2 u hu t (by simp)
      have := (hp.bounds u (by simp [hu])).2.1
      omega
    · have hback := (List.pairwise_cons.1 hsorted.2.1).1 u hu
      omega
    · show source.length ≠ t.start
      omega
  · rw [hstart]
    exact goesOn_of_walk hupto hxs hx.left
  · exact fun us e => not_derives_of_next hxs ht e

/-- The end of a text that is not finished. -/
theorem offends_end {source : String} {x : ParseError} {cause : ParseCause} {ts : List Token}
    {q : Place} (hs : scan 0 source.toList = .ok ts) (hx : Short ts)
    (hts : (before 0).walk ts = some q) (hq : q ≠ behind 0)
    (hr : Refusal.refused x.cause x.start x.stop = refuseEnd cause source.length) :
    Offends source x ts ⟨.finish, "", source.length, source.length⟩ [] := by
  have hp := passes_to_end hs
  rw [refuseEnd, Refusal.refused.injEq] at hr
  obtain ⟨-, hstart, hstop⟩ := hr
  refine ⟨by rw [tokenize, hs], hstart.symm, fun u hu => ?_, ?_, .inr ⟨rfl, rfl, fun e he => ?_, hstart, hstop⟩⟩
  · rw [List.append_nil] at hu
    have := hp.bounds u hu
    omega
  · rw [hstart]
    exact goesOn_of_walk hp hts hx
  · rw [walk_of_derives he 0] at hts
    cases hts
    exact hq rfl

/-- A parse error of a text with integers that are short enough spans the one character that the
scanner comes to and that starts no lexeme.  If there is none, it spans the first token with which
no condition goes on, or the end of the text. -/
theorem parse_error_span {source : String} {x : ParseError}
    (hx : ∀ ts, tokenize source = .ok ts → Short ts)
    (h : parse source = .error (.error (.parse x))) :
    x.source = source ∧
    (∀ p c cs seen, Passes 0 source.toList p (c :: cs) seen → Foreign c cs → x.start = p ∧ x.stop = p + 1) ∧
    ((∀ p c cs seen, Passes 0 source.toList p (c :: cs) seen → ¬ Foreign c cs) →
      ∃ front t rest, Offends source x front t rest) := by
  cases hs : scan 0 source.toList with
  | error r =>
    obtain ⟨d, p⟩ := r
    obtain ⟨rest, ts, hp, hforeign⟩ := passes_of_scan_error hs
    unfold parse at h
    rw [hs] at h
    cases h
    refine ⟨rfl, fun p' c cs seen hp' hforeign' => ?_, fun hnone => absurd hforeign (hnone p d rest ts hp)⟩
    rw [scan_of_passes hp', scan_foreign hforeign'] at hs
    cases hs
    exact ⟨rfl, rfl⟩
  | ok ts =>
    obtain ⟨fin, -, htokens⟩ := exists_tokenize hs
    have hshort : Short ts := (hx _ htokens).left
    obtain ⟨hrefused, hsource⟩ := parse_error_of_scan hs h
    refine ⟨hsource, fun p c cs seen hp hforeign => absurd hforeign (not_foreign_of_scan hs hp), fun _ => ?_⟩
    cases stuck_condition ⟨spelled_of_scan hs, hshort⟩ hrefused with
    | @token q cause xs rest t hts hxs ht hr =>
      subst hts
      obtain ⟨rest', hoffends⟩ := offends_token hs hshort hxs ht hr
      exact ⟨xs, t, rest', hoffends⟩
    | finish hts hq hr => exact ⟨ts, _, [], offends_end hs hshort hts hq hr⟩

/-- A parenthesis that is closed where an operand is awaited. -/
theorem parse_error_span_close : ∃ x, parse "(p and)+1" = .error (.error (.parse x)) ∧ x.start = 6 ∧
      x.stop = 7 ∧
    ∃ front t rest, Offends "(p and)+1" x front t rest := by
  have hs : scan 0 "(p and)+1".toList =
      .ok [⟨.symbol, "(", 0, 1⟩, ⟨.identifier, "p", 1, 2⟩, ⟨.symbol, "and", 3, 6⟩, ⟨.symbol, ")", 6, 7⟩,
        ⟨.symbol, "+", 7, 8⟩, ⟨.integer, "1", 8, 9⟩] := by
    rw [show "(p and)+1".toList = ['(', 'p', ' ', 'a', 'n', 'd', ')', '+', '1'] by decide]
    exact scan_cons rfl (scan_cons rfl (scan_cons rfl (scan_cons rfl (scan_cons rfl (scan_cons rfl (scan_cons rfl
      (scan_nil _) rfl) rfl) rfl) rfl) rfl) rfl) rfl
  have hx : ∀ ts, tokenize "(p and)+1" = .ok ts → Short ts :=
    fun ts h => short_of_scan hs (by unfold Short; decide) h
  have hparse : parse "(p and)+1" = .error (.error (.parse ⟨.unexpected ")", "(p and)+1", 6, 7⟩)) := by
    rw [parse_of_scan hs]
    rfl
  obtain ⟨-, -, hspan⟩ := parse_error_span hx hparse
  exact ⟨_, hparse, rfl, rfl, hspan fun p c cs seen hp => not_foreign_of_scan hs hp⟩

end ContractVerifier
