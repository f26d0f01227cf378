import ContractVerifier.Cli.Files
import ContractVerifier.Proofs.Keyed

/-!
# Fewer and more files

* `Files.route` : the places a path leads through; what is found at its end depends on these only
  (`read_congr`);
* `Below fs gs` : `gs` has all the files and directories of `fs`.  Making directories and writing
  takes nothing away;
* `Below.makeDirectories`, `Below.writeAll` : what can be made and written among more files can be
  made and written among fewer.  Places where the two agree stay so, and they agree where something
  is written.
-/

namespace ContractVerifier.Cli

/-! ## routes -/

namespace Place

/-- Where one part of a path leads. -/
def advance (p : Place) (c : String) : Place :=
  if c = "" || c = "." then p else if c = ".." then p.dropLast else p ++ [c]

@[simp] theorem advance_empty (p : Place) : p.advance "" = p := rfl

/-- The places that the parts of a path lead through, without the last one. -/
def before : Place → List String → List Place
  | _, [] => []
  | p, c :: cs => p :: before (p.advance c) cs

/-- All of them. -/
def through (p : Place) (cs : List String) : List Place := before p cs ++ [cs.foldl advance p]

theorem through_cons (p : Place) (c : String) (cs : List String) : through p (c :: cs) = p :: through (p.advance c) cs := rfl

end Place

namespace Files

variable {fs gs : Files}

/-- The place at the end of a path. -/
def place (fs : Files) (path : String) : Place :=
  (pathParts path).foldl Place.advance (fs.start path)

/-- The places on the way to it. -/
def way (fs : Files) (path : String) : List Place := Place.before (fs.start path) (pathParts path)

def route (fs : Files) (path : String) : List Place := fs.way path ++ [fs.place path]

theorem follow_cons (p : Place) (c : String) (cs : List String) :
    fs.follow p (c :: cs) =
      if !fs.isDirectory p then .error (if (fs.document? p).isSome then .notDirectory else .noSuchFile)
      else if maxName < c.utf8ByteSize then .error .nameTooLong
      else fs.follow (p.advance c) cs := by
  rw [follow, Place.advance]
  split_ifs <;> rfl

/-- A path is followed if its places are directories and its parts short. -/
theorem follow_eq_ok_iff {p r : Place} {cs : List String} : fs.follow p cs = .ok r ↔
    (∀ q ∈ Place.before p cs, fs.isDirectory q = true) ∧ (∀ c ∈ cs, c.utf8ByteSize ≤ maxName) ∧
      cs.foldl Place.advance p = r := by
  induction cs generalizing p with
  | nil => simp [follow, Place.before]
  | cons c cs ih =>
    rw [follow_cons, Place.before, List.forall_mem_cons, List.forall_mem_cons, List.foldl_cons]
    by_cases hd : fs.isDirectory p = true
    · by_cases hn : maxName < c.utf8ByteSize
      · simp [hd, hn, Nat.not_le.2 hn]
      · simp [hd, hn, Nat.not_lt.1 hn, ih]
    · simp [hd]

/-- The two have the same at a place. -/
def Agree (fs gs : Files) (p : Place) : Prop :=
  fs.document? p = gs.document? p ∧ fs.isDirectory p = gs.isDirectory p

theorem Agree.refl (fs : Files) (p : Place) : fs.Agree fs p := ⟨rfl, rfl⟩

theorem Agree.trans {hs : Files} {p : Place} (h : fs.Agree gs p) (h' : gs.Agree hs p) :
    fs.Agree hs p :=
  ⟨h.1.trans h'.1, h.2.trans h'.2⟩

theorem start_congr (h : fs.working = gs.working) (path : String) : fs.start path = gs.start path := by
  rw [start, start, h]

theorem place_congr (h : fs.working = gs.working) (path : String) : fs.place path = gs.place path := by
  rw [place, place, start_congr h]

theorem way_congr (h : fs.working = gs.working) (path : String) : fs.way path = gs.way path := by
  rw [way, way, start_congr h]

theorem locate_eq_ok_iff {path : String} {r : Place} : fs.locate path = .ok r ↔
    path ≠ "" ∧ path.utf8ByteSize ≤ maxPath ∧ (∀ q ∈ fs.way path, fs.isDirectory q = true) ∧
      (∀ c ∈ pathParts path, c.utf8ByteSize ≤ maxName) ∧ fs.place path = r := by
  rw [locate]
  split_ifs with he hl
  · simp [he]
  · simp [he, Nat.not_le.2 hl]
  · rw [follow_eq_ok_iff]
    exact ⟨fun h => ⟨he, Nat.not_lt.1 hl, h⟩, fun h => h.2.2⟩

theorem read_of_locate {path : String} (hl : fs.locate path = gs.locate path)
    (h : ∀ r, fs.locate path = .ok r → fs.Agree gs r) : fs.read path = gs.read path := by
  rw [read, read, ← hl]
  cases hr : fs.locate path with
  | error f => rfl
  | ok r => simp only [bind, Except.bind, (h r hr).1, (h r hr).2]

theorem isDirectory_iff {p : Place} : fs.isDirectory p = true ↔
    p <+: fs.working ∨ p ∈ fs.made ∨ ∃ q ∈ fs.documents.keys, p <+: q ∧ p.length < q.length := by
  simp [isDirectory, or_assoc]

/-- A directory more. -/
def madeAt (fs : Files) (q : Place) : Files := { fs with made := fs.made ++ [q] }

theorem isDirectory_madeAt (q p : Place) : (fs.madeAt q).isDirectory p = true ↔ fs.isDirectory p = true ∨ p = q := by
  rw [isDirectory_iff, isDirectory_iff]
  simp only [madeAt, List.mem_append, List.mem_singleton, or_assoc, or_comm (a := p = q)]

/-- A document more, or in the place of another. -/
def putAt (fs : Files) (q : Place) (d : Document) : Files :=
  { fs with documents := fs.documents.put q d }

theorem document?_putAt (q p : Place) (d : Document) :
    (fs.putAt q d).document? p = if q = p then some d else fs.document? p := Keyed.get?_put _ _ _ _

theorem isDirectory_putAt (q p : Place) (d : Document) :
    (fs.putAt q d).isDirectory p = true ↔ fs.isDirectory p = true ∨ p <+: q ∧ p.length < q.length := by
  have hk (r : Place) : r ∈ (fs.putAt q d).documents.keys ↔ r ∈ fs.documents.keys ∨ r = q := by
    show r ∈ (fs.documents.put q d).keys ↔ _
    rw [Keyed.keys_put]
    split_ifs with hq
    · exact ⟨.inl, fun h => h.elim id fun h => h ▸ hq⟩
    · simp
  rw [isDirectory_iff, isDirectory_iff]
  simp only [hk]
  constructor
  · rintro (h | h | ⟨r, hr | rfl, h⟩)
    · exact .inl (.inl h)
    · exact .inl (.inr (.inl h))
    · exact .inl (.inr (.inr ⟨r, hr, h⟩))
    · exact .inr h
  · rintro ((h | h | ⟨r, hr, h⟩) | h)
    · exact .inl h
    · exact .inr (.inl h)
    · exact .inr (.inr ⟨r, .inl hr, h⟩)
    · exact .inr (.inr ⟨q, .inr rfl, h⟩)

/-- `gs` has everything that `fs` has. -/
structure Below (fs gs : Files) : Prop where
  working : fs.working = gs.working
  document : ∀ p, gs.document? p = none → fs.document? p = none
  directory : ∀ p, fs.isDirectory p = true → gs.isDirectory p = true

namespace Below

theorem refl (fs : Files) : fs.Below fs := ⟨rfl, fun _ h => h, fun _ h => h⟩

theorem trans {hs : Files} (h : fs.Below gs) (h' : gs.Below hs) : fs.Below hs :=
  ⟨h.working.trans h'.working, fun p hp => h.document p (h'.document p hp), fun p hp => h'.directory p (h.directory p hp)⟩

theorem madeAt (fs : Files) (q : Place) : fs.Below (fs.madeAt q) :=
  ⟨rfl, fun _ h => h, fun p h => (isDirectory_madeAt q p).2 (.inl h)⟩

theorem putAt (fs : Files) (q : Place) (d : Document) : fs.Below (fs.putAt q d) := by
  refine ⟨rfl, fun p h => ?_, fun p h => (isDirectory_putAt q p d).2 (.inl h)⟩
  rw [document?_putAt] at h
  split_ifs at h
  exact h

end Below

/-! ## making directories -/

/-- A directory with all those above it. -/
def Rooted (fs : Files) (p : Place) : Prop := ∀ q, q <+: p → fs.isDirectory q = true

theorem Rooted.below {p : Place} (h : fs.Rooted p) (hb : fs.Below gs) : gs.Rooted p :=
  fun q hq => hb.directory q (h q hq)

theorem rooted_start (fs : Files) (path : String) : fs.Rooted (fs.start path) := by
  intro q hq
  refine isDirectory_iff.2 (.inl ?_)
  unfold start at hq
  split_ifs at hq
  · rw [List.prefix_nil.1 hq]
    exact List.nil_prefix
  · exact hq

/-- What `makeFrom` does at one part of a path. -/
def enter (fs : Files) (p : Place) (c : String) : Option Files :=
  if c = "" || c = "." || c = ".." then some fs
  else if maxName < c.utf8ByteSize || (fs.document? (p ++ [c])).isSome then none
  else if fs.isDirectory (p ++ [c]) then some fs
  else some (fs.madeAt (p ++ [c]))

theorem makeFrom_cons {p : Place} {c : String} {cs : List String} :
    fs.makeFrom p (c :: cs) = .ok gs ↔ ∃ hs, fs.enter p c = some hs ∧ hs.makeFrom (p.advance c) cs = .ok gs := by
  rw [makeFrom, enter, Place.advance]
  by_cases hs : c = "" || c = "."
  · simp [hs]
  · by_cases hu : c = ".."
    · simp [hu]
    · by_cases hl : maxName < c.utf8ByteSize
      · simp [hs, hu, hl]
      · by_cases hd : (fs.document? (p ++ [c])).isSome
        · simp [hs, hu, hl, hd]
        · by_cases hi : fs.isDirectory (p ++ [c]) = true <;> simp [hs, hu, hl, hd, hi, madeAt]

/-- Entering a part leads to a directory, and changes nothing elsewhere. -/
theorem enter_spec {p : Place} {c : String} (hp : fs.Rooted p) (h : fs.enter p c = some gs) :
    fs.Below gs ∧ gs.Rooted (p.advance c) ∧ ∀ q, q ≠ p.advance c → fs.Agree gs q := by
  unfold enter at h
  split_ifs at h with hs hx hd
  · cases h
    refine ⟨.refl _, ?_, fun q _ => .refl _ _⟩
    unfold Place.advance
    split_ifs with hc hu
    · exact hp
    · exact fun q hq => hp q (hq.trans (List.dropLast_prefix p))
    · simp_all
  all_goals
    have ha : p.advance c = p ++ [c] := by
      unfold Place.advance
      simp_all
    rw [ha]
    cases h
  · refine ⟨.refl _, fun q hq => ?_, fun q _ => .refl _ _⟩
    rcases List.prefix_concat_iff.1 hq with rfl | hq
    · exact hd
    · exact hp q hq
  · refine ⟨.madeAt _ _, fun q hq => (isDirectory_madeAt _ _).2 ?_, fun q hq => ⟨rfl, ?_⟩⟩
    · rcases List.prefix_concat_iff.1 hq with rfl | hq
      · exact .inr rfl
      · exact .inl (hp q hq)
    · rw [Bool.eq_iff_iff, isDirectory_madeAt]
      simp [hq]

/-- What can be entered among more files can be entered among fewer. -/
theorem Below.enter {fs' gs' : Files} {p : Place} {c : String} (hb : fs.Below fs')
    (h : fs'.enter p c = some gs') :
    ∃ gs, fs.enter p c = some gs ∧ gs.Below gs' ∧ ∀ q, fs.Agree fs' q → gs.Agree gs' q := by
  unfold Files.enter at h ⊢
  split_ifs at h with hs hx hd
  · cases h
    exact ⟨fs, by simp [hs], hb, fun q hq => hq⟩
  all_goals
    cases h
    simp only [Bool.or_eq_true, decide_eq_true_eq, not_or, Bool.not_eq_true,
      Option.isSome_eq_false_iff, Option.isNone_iff_eq_none] at hx
    have hn : fs.document? (p ++ [c]) = none := hb.document _ hx.2
  · by_cases hd' : fs.isDirectory (p ++ [c]) = true
    · exact ⟨fs, by simp [hs, hx.1, hn, hd'], hb, fun q hq => hq⟩
    · refine ⟨fs.madeAt (p ++ [c]), by simp [hs, hx.1, hn, hd'], ⟨hb.working, hb.document, fun q hq => ?_⟩, fun q hq => ?_⟩
      · rcases (isDirectory_madeAt _ _).1 hq with hq | rfl
        · exact hb.directory q hq
        · exact hd
      · refine ⟨hq.1, ?_⟩
        rw [Bool.eq_iff_iff, isDirectory_madeAt, hq.2]
        exact ⟨fun h => h.elim id fun h => h ▸ hd, .inl⟩
  · have hd' : ¬ fs.isDirectory (p ++ [c]) = true := fun h => hd (hb.directory _ h)
    refine ⟨fs.madeAt (p ++ [c]), by simp [hs, hx.1, hn, hd'], ⟨hb.working, hb.document, fun q hq => ?_⟩, fun q hq => ?_⟩
    · rw [isDirectory_madeAt] at hq ⊢
      exact hq.imp_left (hb.directory q)
    · refine ⟨hq.1, ?_⟩
      rw [Bool.eq_iff_iff, isDirectory_madeAt, isDirectory_madeAt, hq.2]

theorem makeFrom_spec {p : Place} {cs : List String} (hp : fs.Rooted p)
    (h : fs.makeFrom p cs = .ok gs) :
    fs.Below gs ∧ (∀ q ∈ Place.through p cs, gs.Rooted q) ∧ ∀ q, q ∉ Place.through p cs → fs.Agree gs q := by
  induction cs generalizing fs p with
  | nil =>
    cases h
    exact ⟨.refl _, fun q hq => List.mem_singleton.1 hq ▸ hp, fun q _ => .refl _ _⟩
  | cons c cs ih =>
    obtain ⟨hs, he, hm⟩ := makeFrom_cons.1 h
    obtain ⟨hb, hr, ha⟩ := enter_spec hp he
    obtain ⟨hb', hr', ha'⟩ := ih hr hm
    rw [Place.through_cons]
    refine ⟨hb.trans hb', List.forall_mem_cons.2 ⟨hp.below (hb.trans hb'), hr'⟩, fun q hq => ?_⟩
    have hq' : q ∉ Place.through (p.advance c) cs := fun h => hq (List.mem_cons_of_mem _ h)
    have hn : q ≠ p.advance c := by
      rintro rfl
      cases cs with
      | nil => exact hq' (List.mem_singleton_self _)
      | cons d cs => exact hq' List.mem_cons_self
    exact (ha q hn).trans (ha' q hq')

theorem Below.makeFrom {fs' gs' : Files} {p : Place} {cs : List String} (hb : fs.Below fs')
    (h : fs'.makeFrom p cs = .ok gs') :
    ∃ gs, fs.makeFrom p cs = .ok gs ∧ gs.Below gs' ∧ ∀ q, fs.Agree fs' q → gs.Agree gs' q := by
  induction cs generalizing fs fs' p with
  | nil =>
    cases h
    exact ⟨fs, rfl, hb, fun q hq => hq⟩
  | cons c cs ih =>
    obtain ⟨hs', he', hm'⟩ := makeFrom_cons.1 h
    obtain ⟨hs, he, hb, ha⟩ := hb.enter he'
    obtain ⟨gs, hm, hb, ha'⟩ := ih hb hm'
    exact ⟨gs, makeFrom_cons.2 ⟨hs, he, hm⟩, hb, fun q hq => ha' q (ha q hq)⟩

theorem makeDirectories_spec {path : String} (h : fs.makeDirectories path = .ok gs) :
    fs.Below gs ∧ (∀ q ∈ fs.route path, gs.Rooted q) ∧ ∀ q, q ∉ fs.route path → fs.Agree gs q :=
  makeFrom_spec (rooted_start fs path) h

theorem Below.makeDirectories {fs' gs' : Files} {path : String} (hb : fs.Below fs')
    (h : fs'.makeDirectories path = .ok gs') :
    ∃ gs, fs.makeDirectories path = .ok gs ∧ gs.Below gs' ∧ ∀ q, fs.Agree fs' q → gs.Agree gs' q := by
  rw [Files.makeDirectories, ← start_congr hb.working] at h
  exact hb.makeFrom h

/-! ## paths into a directory -/

theorem write_eq_ok_iff {path : String} {d : Document} : fs.write path d = .ok gs ↔
    fs.locate path = .ok (fs.place path) ∧ fs.isDirectory (fs.place path) = false ∧ gs = fs.putAt (fs.place path) d := by
  unfold write
  cases hr : fs.locate path with
  | error f => simp [bind, Except.bind]
  | ok r =>
    obtain ⟨-, -, -, -, rfl⟩ := locate_eq_ok_iff.1 hr
    by_cases hd : fs.isDirectory (fs.place path) = true <;> simp [bind, Except.bind, hd, putAt, eq_comm]

/-- Several documents, one after the other. -/
def writeAll (fs : Files) : List (String × Document) → Except FileFault Files
  | [] => .ok fs
  | (path, d) :: ws => do
    let fs ← fs.write path d
    fs.writeAll ws

theorem writeAll_cons {path : String} {d : Document} {ws : List (String × Document)} :
    fs.writeAll ((path, d) :: ws) = .ok gs ↔ ∃ hs, fs.write path d = .ok hs ∧ hs.writeAll ws = .ok gs := by
  rw [writeAll]
  cases fs.write path d with
  | error f => simp [bind, Except.bind]
  | ok hs => simp [bind, Except.bind]

theorem write_below {path : String} {d : Document} (h : fs.write path d = .ok gs) : fs.Below gs := by
  obtain ⟨-, -, rfl⟩ := write_eq_ok_iff.1 h
  exact .putAt _ _ _

theorem writeAll_below {ws : List (String × Document)} (h : fs.writeAll ws = .ok gs) : fs.Below gs := by
  induction ws generalizing fs with
  | nil =>
    cases h
    exact .refl _
  | cons w ws ih =>
    obtain ⟨hs, hw, hws⟩ := writeAll_cons.1 h
    exact (write_below hw).trans (ih hws)

namespace Below

variable {fs' gs' : Files}

theorem locate {path : String} {r : Place} (hb : fs.Below gs) (h : fs.locate path = .ok r) : gs.locate path = .ok r := by
  obtain ⟨he, hl, hw, hn, hp⟩ := locate_eq_ok_iff.1 h
  rw [way_congr hb.working] at hw
  rw [place_congr hb.working] at hp
  exact locate_eq_ok_iff.2 ⟨he, hl, fun q hq => hb.directory q (hw q hq), hn, hp⟩

/-- What can be written among more files can be written among fewer that have the directories for
it. -/
theorem write {path : String} {d : Document} (hb : fs.Below fs')
    (hd : ∀ q ∈ fs.way path, fs.isDirectory q = true) (h : fs'.write path d = .ok gs') :
    ∃ gs, fs.write path d = .ok gs ∧ gs.Below gs' ∧ (∀ q, fs.Agree fs' q → gs.Agree gs' q) ∧ gs.Agree gs' (fs.place path) := by
  obtain ⟨hl, hi, rfl⟩ := write_eq_ok_iff.1 h
  obtain ⟨he, hm, -, hn, -⟩ := locate_eq_ok_iff.1 hl
  have hp := place_congr hb.working path
  rw [← hp] at hi ⊢
  have hi' : fs.isDirectory (fs.place path) = false := by
    rw [← Bool.not_eq_true] at hi ⊢
    exact fun h => hi (hb.directory _ h)
  have hl' : fs.locate path = .ok (fs.place path) := locate_eq_ok_iff.2 ⟨he, hm, hd, hn, rfl⟩
  refine ⟨_, write_eq_ok_iff.2 ⟨hl', hi', rfl⟩, ⟨hb.working, fun q hq => ?_, fun q hq => ?_⟩, fun q hq => ⟨?_, ?_⟩, ?_, ?_⟩
  · rw [document?_putAt] at hq ⊢
    split_ifs at hq ⊢
    exact hb.document q hq
  · rw [isDirectory_putAt] at hq ⊢
    exact hq.imp_left (hb.directory q)
  · rw [document?_putAt, document?_putAt, hq.1]
  · rw [Bool.eq_iff_iff, isDirectory_putAt, isDirectory_putAt, hq.2]
  · rw [document?_putAt, document?_putAt, if_pos rfl, if_pos rfl]
  · rw [Bool.eq_iff_iff, isDirectory_putAt, isDirectory_putAt, hi, hi']

theorem writeAll {ws : List (String × Document)} (hb : fs.Below fs')
    (hd : ∀ w ∈ ws, ∀ q ∈ fs.way w.1, fs.isDirectory q = true) (h : fs'.writeAll ws = .ok gs') :
    ∃ gs, fs.writeAll ws = .ok gs ∧ gs.Below gs' ∧ (∀ q, fs.Agree fs' q → gs.Agree gs' q) ∧
      ∀ w ∈ ws, gs.read w.1 = gs'.read w.1 := by
  induction ws generalizing fs fs' with
  | nil =>
    cases h
    exact ⟨fs, rfl, hb, fun q hq => hq, by simp⟩
  | cons w ws ih =>
    obtain ⟨hs', hw', hws'⟩ := writeAll_cons.1 h
    obtain ⟨hs, hw, hb', ha, hp⟩ := hb.write (hd w List.mem_cons_self) hw'
    have hg := write_below hw
    obtain ⟨gs, hws, hb'', ha', hread⟩ := ih hb' (fun v hv q hq => by
      rw [← way_congr hg.working] at hq
      exact hg.directory q (hd v (List.mem_cons_of_mem _ hv) q hq)) hws'
    refine ⟨gs, writeAll_cons.2 ⟨hs, hw, hws⟩, hb'', fun q hq => ha' q (ha q hq), List.forall_mem_cons.2 ⟨?_, hread⟩⟩
    -- later documents take no directory away, so the first one is still found at its path
    have hl := (hg.trans (writeAll_below hws)).locate (write_eq_ok_iff.1 hw).1
    refine read_of_locate (hl.trans (hb''.locate hl).symm) fun r hr => ?_
    rw [hl] at hr
    cases hr
    exact ha' _ hp

end Below

end Files

end ContractVerifier.Cli
