import ContractVerifier.Proofs.Program.Contracts

/-!
# Functions that are defined again

The signature that goes with a name is that of its last definition.  Its contract is so too, unless
the last definition gives none: then one that an earlier definition has given stays behind.

* `FromLast` : the contract of a name is that of its last definition, if it gives one;
* `LeftBehind` : an earlier definition gives a contract, and the last one does not;
* `contracts_fromLast` : the first holds of a name exactly if the second does not.
-/

namespace ContractVerifier

open Source

/-- The name has a contract exactly if its last definition has well formed conditions under its own
signature, and then it is that of the last definition. -/
def FromLast (fs : List Annotated) (cs : Contracts) (x : String) : Prop :=
  ∀ c, cs.get? x = some c ↔ ∃ f, IsLast fs f ∧ f.name = x ∧ Offers f.fn.signature f c

/-- The last definition of the name gives no contract, but some definition does under the signature
of the last one. -/
def LeftBehind (fs : List Annotated) (x : String) : Prop :=
  ∃ f, IsLast fs f ∧ f.name = x ∧ (∀ c, ¬ Offers f.fn.signature f c) ∧
    ∃ g ∈ fs, g.name = x ∧ ∃ c, Offers f.fn.signature g c

section

variable {fs : List Annotated} {f g : Annotated}

theorem IsLast.unique (h : IsLast fs f) (h' : IsLast fs g) (hn : f.name = g.name) : f = g := by
  obtain ⟨before, after, rfl, hafter⟩ := h
  obtain ⟨before', after', heq, hafter'⟩ := h'
  rcases List.append_eq_append_iff.1 heq with ⟨mid, -, hmid⟩ | ⟨mid, -, hmid⟩
  · cases mid with
    | nil => exact (List.cons.inj hmid).1
    | cons k mid =>
      have hg : g ∈ after := by
        rw [(List.cons.inj hmid).2]
        simp
      exact absurd hn.symm (hafter g hg)
  · cases mid with
    | nil => exact (List.cons.inj hmid).1.symm
    | cons k mid =>
      have hf : f ∈ after' := by
        rw [(List.cons.inj hmid).2]
        simp
      exact absurd hn (hafter' f hf)

/-- Conditions are read under the signature of the last definition. -/
theorem IsLast.signatureOf_eq (h : IsLast fs f) (hn : g.name = f.name) :
    signatureOf (signatures fs) g = f.fn.signature :=
  signatureOf_of_get? (by rw [hn]; exact h.get?_signatures)

variable {cs : Contracts} {events : List Event} {x : String}

/-- What stays behind is a contract. -/
theorem LeftBehind.not_fromLast (h : LeftBehind fs x)
    (hcs : (contractsOf fs (signatures fs)).exec = (.ok cs, events)) :
    ¬ FromLast fs cs x := by
  obtain ⟨f, hlast, rfl, hnone, g, hg, hname, c, hc⟩ := h
  intro hfrom
  rw [← hlast.signatureOf_eq hname] at hc
  obtain ⟨c', hc'⟩ := exists_get?_contracts hcs hg hc
  rw [hname] at hc'
  obtain ⟨f', hlast', hname', hoffers⟩ := (hfrom c').1 hc'
  cases hlast'.unique hlast hname'
  exact hnone c' hoffers

theorem fromLast_of_not (h : ¬ LeftBehind fs x)
    (hcs : (contractsOf fs (signatures fs)).exec = (.ok cs, events)) :
    FromLast fs cs x := by
  have hlast : ∀ {f c}, IsLast fs f → f.name = x → Offers f.fn.signature f c → cs.get? x = some c := by
    rintro f c hf rfl hc
    rw [← hf.signatureOf_eq rfl] at hc
    exact hf.get?_contracts hcs hc
  intro c
  constructor
  · intro hc
    obtain ⟨g, hg, rfl, hoffers⟩ := exists_of_get?_contracts hcs hc
    obtain ⟨f, hf, hname⟩ := exists_isLast hg
    rw [hf.signatureOf_eq hname.symm] at hoffers
    -- the last definition gives a contract, and so it is this one
    obtain ⟨c', hc'⟩ : ∃ c', Offers f.fn.signature f c' := by
      by_contra hno
      exact h ⟨f, hf, hname, not_exists.1 hno, g, hg, rfl, c, hoffers⟩
    cases hc.symm.trans (hlast hf hname hc')
    exact ⟨f, hf, hname, hc'⟩
  · rintro ⟨f, hf, hname, hc⟩
    exact hlast hf hname hc

end

/-- In a module names may be defined any number of times.  Where the integers of its conditions are
short enough, there are contracts; and they are those of the last definitions, except for the names
for which a contract was left behind. -/
theorem contracts_fromLast (fs : List Annotated) :
    ((∀ f ∈ fs, ∀ text, f.pre = some text ∨ f.post = some text → ∀ ts, tokenize text = .ok ts → Parser.Short ts) →
      ∃ cs events, (contractsOf fs (signatures fs)).exec = (.ok cs, events)) ∧
    ∀ cs events, (contractsOf fs (signatures fs)).exec = (.ok cs, events) → ∀ x, FromLast fs cs x ↔ ¬ LeftBehind fs x := by
  refine ⟨fun hx => exists_contracts fun f hf x => conditions_ne_fault (hx f hf) x, fun cs events hcs x => ?_⟩
  exact ⟨fun hfrom hleft => hleft.not_fromLast hcs hfrom, fun h => fromLast_of_not h hcs⟩

/-! ## one function, with and without conditions -/

namespace Flag

/-- `return True` -/
def promised : Annotated where
  fn :=
    { span := ⟨2, 3⟩, name := "flag", params := [], more := [], decorators := [], result := some (.name ⟨2, 2⟩ "bool")
      body := [.ret ⟨3, 3⟩ (some (.constant ⟨3, 3⟩ (.bool true)))] }
  pre := some "true"
  post := some "ret"

/-- `return False`, without conditions. -/
def plain : Annotated where
  fn :=
    { span := ⟨5, 6⟩, name := "flag", params := [], more := [], decorators := [], result := some (.name ⟨5, 5⟩ "bool")
      body := [.ret ⟨6, 6⟩ (some (.constant ⟨6, 6⟩ (.bool false)))] }

def contract : Contract := ⟨"flag", [], .bool, .truth, .var ⟨resultName, .bool⟩⟩

theorem scan_true : Token.scan 0 "true".toList = .ok [⟨.boolean, "true", 0, 4⟩] := by
  rw [show "true".toList = ['t', 'r', 'u', 'e'] by decide]
  exact Token.scan_cons rfl (Token.scan_nil _) rfl

theorem scan_ret : Token.scan 0 "ret".toList = .ok [⟨.identifier, "ret", 0, 3⟩] := by
  rw [show "ret".toList = ['r', 'e', 't'] by decide]
  exact Token.scan_cons rfl (Token.scan_nil _) rfl

theorem offers : Offers promised.fn.signature promised contract where
  decorator := rfl
  pre := by
    refine ⟨"true", rfl, ?_⟩
    unfold condition parse
    rw [scan_true]
    rfl
  post := by
    refine ⟨"ret", rfl, ?_⟩
    unfold condition parse
    rw [scan_ret]
    rfl
  name := rfl
  params := rfl
  result := rfl

theorem not_offers (s : Signature) (c : Contract) : ¬ Offers s plain c := by
  rintro ⟨-, ⟨text, h, -⟩, -⟩
  cases h

/-- The texts of both definitions. -/
theorem short (fs : List Annotated) (hfs : ∀ f ∈ fs, f = promised ∨ f = plain) :
    ∀ f ∈ fs, ∀ text, f.pre = some text ∨ f.post = some text → ∀ ts, tokenize text = .ok ts → Parser.Short ts := by
  intro f hf text htext ts ht
  rcases hfs f hf with rfl | rfl
  · rcases htext with h | h
    · cases h
      exact short_of_scan scan_true (by unfold Parser.Short; decide) ht
    · cases h
      exact short_of_scan scan_ret (by unfold Parser.Short; decide) ht
  · rcases htext with h | h <;> cases h

end Flag

/-- The definition with conditions is the last one, and the contract is its own. -/
theorem flag_fromLast : ∃ cs events,
    (contractsOf [Flag.plain, Flag.promised] (signatures [Flag.plain, Flag.promised])).exec = (.ok cs, events) ∧
      FromLast [Flag.plain, Flag.promised] cs "flag" ∧ cs.get? "flag" = some Flag.contract := by
  have hlast : IsLast [Flag.plain, Flag.promised] Flag.promised := ⟨[Flag.plain], [], rfl, by simp⟩
  obtain ⟨hex, hiff⟩ := contracts_fromLast [Flag.plain, Flag.promised]
  obtain ⟨cs, events, hcs⟩ := hex (Flag.short _ (by simp))
  have hfrom : FromLast [Flag.plain, Flag.promised] cs "flag" := by
    refine (hiff cs events hcs "flag").2 ?_
    rintro ⟨f, hf, hname, hnone, -⟩
    cases hf.unique hlast hname
    exact hnone _ Flag.offers
  exact ⟨cs, events, hcs, hfrom, (hfrom Flag.contract).2 ⟨Flag.promised, hlast, rfl, Flag.offers⟩⟩

/-- The last definition has no conditions and returns `False`, and the name still has the contract
of the first one. -/
theorem flag_leftBehind : ∃ cs events,
    (contractsOf [Flag.promised, Flag.plain] (signatures [Flag.promised, Flag.plain])).exec = (.ok cs, events) ∧
      cs.get? "flag" = some Flag.contract ∧ IsLast [Flag.promised, Flag.plain] Flag.plain ∧
        Flag.plain.name = "flag" ∧
      ∀ c, ¬ Offers Flag.plain.fn.signature Flag.plain c := by
  have hlast : IsLast [Flag.promised, Flag.plain] Flag.plain := ⟨[Flag.promised], [], rfl, by simp⟩
  obtain ⟨cs, events, hcs⟩ := exists_contracts fun f hf x =>
    conditions_ne_fault (t := (signatureOf (signatures [Flag.promised, Flag.plain]) f).table)
      (Flag.short [Flag.promised, Flag.plain] (by simp) f hf) x
  refine ⟨cs, events, hcs, ?_, hlast, rfl, Flag.not_offers _⟩
  have hsig : signatureOf (signatures [Flag.promised, Flag.plain]) Flag.promised = Flag.promised.fn.signature :=
    hlast.signatureOf_eq rfl
  have hgives : contract? (signatures [Flag.promised, Flag.plain]) Flag.promised = some Flag.contract :=
    contract?_eq_some.2 (hsig ▸ Flag.offers)
  rw [contracts_eq_ofList hcs, contractEntries, List.filterMap_cons, hgives]
  rfl

end ContractVerifier
