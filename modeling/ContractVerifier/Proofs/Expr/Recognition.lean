import ContractVerifier.Proofs.Expr.Climb
import ContractVerifier.Proofs.Expr.Scan

/-!
# The parser recognises the layered grammar

`parse` and `tokenize` scan a text in the same way, and the tokens of a scan are spelled as the
grammar has them.  So `parse_iff_derives` follows from what is known of reading a token list: a text
is parsed exactly if its tokens derive from a condition, with the tree of the derivation, and any
other text is a parse error.
-/

namespace ContractVerifier

open Token

theorem scan_of_tokenize {source : String} {ts : List Token} {fin : Token}
    (h : tokenize source = .ok (ts ++ [fin])) :
    scan 0 source.toList = .ok ts := by
  unfold tokenize at h
  cases hs : scan 0 source.toList with
  | error e => simp [hs] at h
  | ok us =>
    simp only [hs, Except.ok.injEq] at h
    rw [(List.append_inj' h rfl).1]

theorem exists_tokenize {source : String} {ts : List Token} (h : scan 0 source.toList = .ok ts) :
    ∃ fin : Token, fin.kind = .finish ∧ tokenize source = .ok (ts ++ [fin]) := by
  refine ⟨⟨.finish, "", source.length, source.length⟩, rfl, ?_⟩
  unfold tokenize
  rw [h]

/-- The end of the tokens is no integer. -/
theorem short_of_scan {source : String} {ts us : List Token} (h : scan 0 source.toList = .ok ts)
    (hx : Parser.Short ts) (ht : tokenize source = .ok us) : Parser.Short us := by
  obtain ⟨fin, hf, hts⟩ := exists_tokenize h
  rw [hts] at ht
  cases ht
  refine hx.append fun t hm hk => ?_
  rw [List.mem_singleton.1 hm, hf] at hk
  cases hk

theorem parse_of_scan {source : String} {ts : List Token} (h : scan 0 source.toList = .ok ts) :
    parse source = (Parser.condition source.length ts).mapError (Parser.Refusal.toFailure source) := by
  unfold parse
  rw [h]

theorem spelled_of_scan {pos : Nat} {cs : List Char} {ts : List Token} (h : scan pos cs = .ok ts) :
    Parser.Spelled ts :=
  fun t ht => (scan_proper h t ht).boolean

theorem mapError_eq_ok {ε ε' α : Type} {f : ε → ε'} {x : Except ε α} {a : α} : x.mapError f = .ok a ↔ x = .ok a := by
  cases x <;> simp [Except.mapError]

/-- What a parsed text was scanned to. -/
theorem exists_scan_of_parse {source : String} {e : Expr} (h : parse source = .ok e) :
    ∃ ts, scan 0 source.toList = .ok ts ∧ Derives .condition ts e ∧ Parser.Short ts := by
  cases hs : scan 0 source.toList with
  | error r =>
    unfold parse at h
    simp [hs] at h
  | ok ts =>
    rw [parse_of_scan hs, mapError_eq_ok] at h
    exact ⟨ts, rfl, Parser.condition_sound (spelled_of_scan hs) h⟩

theorem parse_of_derives {source : String} {ts : List Token} {e : Expr}
    (hs : scan 0 source.toList = .ok ts) (hd : Derives .condition ts e) (hx : Parser.Short ts) :
    parse source = .ok e := by
  rw [parse_of_scan hs, Parser.condition_complete hd hx]
  rfl

/-- No other text than one with an integer that is too long is a fault. -/
theorem parse_ne_fault {source : String} (hx : ∀ ts, tokenize source = .ok ts → Parser.Short ts)
    (x : Fault) :
    parse source ≠ .error (.fault x) := by
  cases hs : scan 0 source.toList with
  | error r =>
    unfold parse
    simp [hs]
  | ok ts =>
    obtain ⟨fin, -, ht⟩ := exists_tokenize hs
    have hl : Parser.Legible ts := ⟨spelled_of_scan hs, (hx _ ht).left⟩
    rw [parse_of_scan hs]
    cases hc : Parser.condition source.length ts with
    | ok e => nofun
    | error r =>
      cases r with
      | tooLong => exact absurd rfl (Parser.condition_refused hl hc)
      | refused cause start stop => nofun

/-- A text whose integers are short enough is parsed exactly if its tokens derive from a condition,
and the result is the tree of the derivation; all other texts are parse errors. -/
theorem parse_iff_derives (source : String)
    (hx : ∀ ts, tokenize source = .ok ts → Parser.Short ts) :
    (∀ e, parse source = .ok e ↔
      ∃ ts fin, fin.kind = .finish ∧ tokenize source = .ok (ts ++ [fin]) ∧ Derives .condition ts e) ∧
    ((∀ e, parse source ≠ .ok e) → ∃ x, parse source = .error (.error (.parse x)) ∧ x.source = source) := by
  refine ⟨fun e => ⟨fun h => ?_, ?_⟩, fun hne => ?_⟩
  · obtain ⟨ts, hs, hd, -⟩ := exists_scan_of_parse h
    obtain ⟨fin, hf, ht⟩ := exists_tokenize hs
    exact ⟨ts, fin, hf, ht, hd⟩
  · rintro ⟨ts, fin, -, ht, hd⟩
    exact parse_of_derives (scan_of_tokenize ht) hd (hx _ ht).left
  · cases hs : scan 0 source.toList with
    | error r =>
      unfold parse
      simp only [hs]
      exact ⟨_, rfl, rfl⟩
    | ok ts =>
      obtain ⟨fin, -, ht⟩ := exists_tokenize hs
      have hl : Parser.Legible ts := ⟨spelled_of_scan hs, (hx _ ht).left⟩
      rw [parse_of_scan hs] at hne ⊢
      cases hc : Parser.condition source.length ts with
      | ok e => exact absurd (by rw [hc]; rfl) (hne e)
      | error r =>
        cases r with
        | tooLong => exact absurd rfl (Parser.condition_refused hl hc)
        | refused cause start stop => exact ⟨_, rfl, rfl⟩

/-- A minus in front of an integer, one in front of a name, and a second spelling of the
implication. -/
theorem parse_minus_implies :
    parse "-1 < -x => p" =
      .ok (.bin .imp (.bin .lt (.num (-1)) (.un .neg (.var ⟨"x", .unknown⟩))) (.var ⟨"p", .unknown⟩)) := by
  have hs : scan 0 "-1 < -x => p".toList =
      .ok [⟨.symbol, "-", 0, 1⟩, ⟨.integer, "1", 1, 2⟩, ⟨.symbol, "<", 3, 4⟩, ⟨.symbol, "-", 5, 6⟩,
        ⟨.identifier, "x", 6, 7⟩, ⟨.symbol, "=>", 8, 10⟩, ⟨.identifier, "p", 11, 12⟩] := by
    rw [show "-1 < -x => p".toList = ['-', '1', ' ', '<', ' ', '-', 'x', ' ', '=', '>', ' ', 'p'] by decide]
    exact scan_cons rfl (scan_cons rfl (scan_cons rfl (scan_cons rfl (scan_cons rfl (scan_cons rfl (scan_cons rfl
      (scan_cons rfl (scan_cons rfl (scan_cons rfl (scan_cons rfl (scan_nil _) rfl) rfl) rfl) rfl) rfl) rfl) rfl) rfl)
      rfl) rfl) rfl
  obtain ⟨fin, hf, ht⟩ := exists_tokenize hs
  have hx : ∀ ts, tokenize "-1 < -x => p" = .ok ts → Parser.Short ts :=
    fun ts h => short_of_scan hs (by unfold Parser.Short; decide) h
  have hone : Derives (.ofLevel 8) [⟨.symbol, "-", 0, 1⟩, ⟨.integer, "1", 1, 2⟩] (.num (-1)) :=
    .negative rfl rfl
  have hneg : Derives (.ofLevel 8) [⟨.symbol, "-", 5, 6⟩, ⟨.identifier, "x", 6, 7⟩] (.un .neg (.var ⟨"x", .unknown⟩)) :=
    .signed rfl (by simp) (.bare (.identifier rfl))
  have hp : Derives (.ofLevel 9) [⟨.identifier, "p", 11, 12⟩] (.var ⟨"p", .unknown⟩) :=
    .identifier rfl
  have hlt :=
    derives_bin (t := ⟨.symbol, "<", 3, 4⟩) (hone.loosen (by decide)) rfl (hneg.loosen (by decide))
  have himp :=
    derives_bin (t := ⟨.symbol, "=>", 8, 10⟩) (hlt.loosen (by decide)) rfl (hp.loosen (by decide))
  exact ((parse_iff_derives _ hx).1 _).2 ⟨_, fin, hf, ht, himp⟩

end ContractVerifier
