import ContractVerifier.Cli.Session
import ContractVerifier.Proofs.Cli.Files
import ContractVerifier.Proofs.Store

/-!
# The turn of a program

`Attends` says, without sessions, what it takes for the turn of a program to come to its end: which
task, which outcome, what is printed, and which files are there afterwards.  `runProgram_iff` :
`runProgram` returns exactly where this holds.
-/

namespace ContractVerifier

namespace Verdict

theorem and_assoc (u v w : Verdict) : (u.and v).and w = u.and (v.and w) := by
  cases u <;> cases v <;> cases w <;> rfl

theorem and_valid (v : Verdict) : v.and .valid = v := by
  cases v <;> rfl

theorem and_eq_valid {v w : Verdict} : v.and w = .valid ↔ v = .valid ∧ w = .valid := by
  cases v <;> cases w <;> simp [and]

end Verdict

namespace Cli

/-! ## jobs that return -/

namespace Job

variable {α β : Type} {s t u : Session}

theorem exec_bind (x : Job α) (g : α → Job β) (s : Session) :
    (x >>= g).exec s = match x.exec s with
      | (.ok a, t) => (g a).exec t
      | (.error e, t) => (.error e, t) := by
  unfold exec
  rw [ExceptT.run_bind, StateT.run_bind]
  rcases StateT.run (ExceptT.run x) s with ⟨e | a, t⟩ <;> rfl

theorem exec_bind_ok {x : Job α} {g : α → Job β} {b : β} :
    (x >>= g).exec s = (.ok b, u) ↔ ∃ a t, x.exec s = (.ok a, t) ∧ (g a).exec t = (.ok b, u) := by
  rw [exec_bind]
  rcases x.exec s with ⟨e | a, t⟩ <;> simp

theorem exec_pure_ok {a b : α} : (pure a : Job α).exec s = (.ok b, t) ↔ b = a ∧ t = s := by
  show ((Except.ok a, s) : Except Fault α × Session) = (.ok b, t) ↔ _
  simp [eq_comm]

theorem exec_throw_ok {e : Fault} {b : α} : (throw e : Job α).exec s = (.ok b, t) ↔ False := by
  show ((Except.error e, s) : Except Fault α × Session) = (.ok b, t) ↔ _
  simp

theorem exec_get_bind {g : Session → Job α} : ((get : Job Session) >>= g).exec s = (g s).exec s :=
  rfl

theorem exec_print_ok {text : String} {v : Unit} :
    (print text).exec s = (.ok v, t) ↔ t = { s with output := s.output ++ text } := by
  show ((Except.ok (), { s with output := s.output ++ text }) : Except Fault Unit × Session) = (.ok v, t) ↔ _
  simp [eq_comm]

theorem exec_lift (x : Except Fault α) (s : Session) : (lift x).exec s = (x, s) := by
  cases x <;> rfl

theorem exec_lift_ok {x : Except Fault α} {a : α} : (lift x).exec s = (.ok a, t) ↔ x = .ok a ∧ t = s := by
  rw [exec_lift, Prod.mk.injEq, eq_comm (a := s)]

theorem exec_edit_ok {f : Files → Except FileFault Files} {v : Unit} :
    (edit f).exec s = (.ok v, t) ↔ ∃ fs, f s.files = .ok fs ∧ t = { s with files := fs } := by
  unfold edit
  rw [exec_get_bind]
  cases f s.files with
  | error e => exact exec_throw_ok.trans (by simp)
  | ok fs =>
    show ((Except.ok (), { s with files := fs }) : Except Fault Unit × Session) = (.ok v, t) ↔ _
    simp [eq_comm]

theorem exec_checkPath_ok {path : String} {v : Unit} :
    (checkPath path).exec s = (.ok v, t) ↔ Char.ofNat 0 ∉ path.toList ∧ t = s := by
  unfold checkPath
  split_ifs with h
  · rw [exec_throw_ok, false_iff]
    exact fun hn => hn.1 (by simpa using h)
  · rw [exec_pure_ok]
    exact ⟨fun ht => ⟨by simpa using h, ht.2⟩, fun ht => ⟨rfl, ht.2⟩⟩

end Job

open Job

variable {solve : Smt.Solver} {a : Arguments} {s t : Session} {fs gs : Files}

/-! ## what is written -/

/-- What is written about a report: the end of the name, and the text. -/
def artifacts (module : List Source.Stmt) (r : Report) : List (String × Except Fault String) :=
  (".astpretty", .ok (((definition? module r.name).map Source.Stmt.text).getD "")) ::
    ((r.graph.map fun g => (".cfg.dot", g.dot r.name)).toList ++ (r.vc.map fun e => (".vc", .ok (e.text ++ "\n"))).toList)

/-- The files about a report. -/
def filed (dir : String) (module : List Source.Stmt) (r : Report) :
    List (String × Except Fault Document) :=
  (artifacts module r).map fun x => (Path.join dir r.name ++ x.1, x.2.map fun s => { text := s })

def saveAll : List (String × Except Fault Document) → Job Unit
  | [] => pure ()
  | (path, x) :: xs => do
    let d ← lift x
    Job.write path d
    saveAll xs

theorem lift_map_bind {α β γ : Type} (x : Except Fault α) (f : α → β) (g : β → Job γ) :
    lift (x.map f) >>= g = lift x >>= fun y => g (f y) := by
  cases x <;> rfl

theorem lift_ok_bind {α β : Type} (x : α) (g : α → Job β) : lift (.ok x) >>= g = g x := rfl

theorem saveAll_append (xs ys : List (String × Except Fault Document)) :
    saveAll (xs ++ ys) = saveAll xs >>= fun _ => saveAll ys := by
  induction xs with
  | nil => rw [saveAll, pure_bind, List.nil_append]
  | cons x xs ih => simp only [List.cons_append, saveAll, ih, bind_assoc]

theorem writeReports_eq (dir : String) (module : List Source.Stmt) (rs : List Report) :
    writeReports dir module rs = saveAll (rs.flatMap (filed dir module)) := by
  induction rs with
  | nil => rfl
  | cons r rs ih =>
    unfold writeReports
    rw [List.flatMap_cons, saveAll_append, ← ih]
    cases hg : r.graph <;> cases hv : r.vc <;>
      simp [filed, artifacts, saveAll, hg, hv, lift_map_bind, lift_ok_bind, bind_assoc]

/-- Documents that are at hand. -/
def atHand (ws : List (String × Document)) : List (String × Except Fault Document) :=
  ws.map fun w => (w.1, .ok w.2)

theorem exec_saveAll_ok {xs : List (String × Except Fault Document)} {v : Unit} :
    (saveAll xs).exec s = (.ok v, t) ↔
      ∃ ws fs, xs = atHand ws ∧ s.files.writeAll ws = .ok fs ∧ t = { s with files := fs } := by
  induction xs generalizing s with
  | nil =>
    rw [saveAll, exec_pure_ok]
    constructor
    · rintro ⟨-, rfl⟩
      exact ⟨[], _, rfl, rfl, rfl⟩
    · rintro ⟨ws, fs, hx, hw, rfl⟩
      obtain rfl := List.map_eq_nil_iff.1 hx.symm
      cases hw
      exact ⟨rfl, rfl⟩
  | cons x xs ih =>
    obtain ⟨path, x⟩ := x
    simp only [saveAll, Job.write, exec_bind_ok, exec_lift_ok, exec_edit_ok, ih]
    constructor
    · rintro ⟨d, _, ⟨rfl, rfl⟩, -, _, ⟨gs, hg, rfl⟩, ws, fs, rfl, hw, rfl⟩
      exact ⟨(path, d) :: ws, fs, rfl, Files.writeAll_cons.2 ⟨gs, hg, hw⟩, rfl⟩
    · rintro ⟨ws, fs, hx, hw, rfl⟩
      obtain ⟨⟨path', d⟩, ws, rfl, hd, rfl⟩ := List.map_eq_cons_iff.1 hx.symm
      cases hd
      obtain ⟨gs, hg, hws⟩ := Files.writeAll_cons.1 hw
      exact ⟨d, s, ⟨rfl, rfl⟩, (), _, ⟨gs, hg, rfl⟩, ws, fs, rfl, hws, rfl⟩

/-! ## what is printed -/

/-- The text that the reports on a program give. -/
def reportsText (c : Console) (task : Task) : List Report → Except Fault String
  | [] => .ok ""
  | r :: rs => do
    let name := task.programName ++ "." ++ r.name
    let vc := if task.options.printVc then (r.vc.map (Console.vc name)).getD "" else ""
    let text ← c.report name r
    let rest ← reportsText c task rs
    .ok (vc ++ text ++ rest)

/-- The verdict on the functions of a program together. -/
def reportsVerdict (rs : List Report) : Verdict :=
  rs.foldr (fun r v => (reportVerdict r).and v) .valid

theorem bind_eq_ok {ε α β : Type} {x : Except ε α} {g : α → Except ε β} {b : β} :
    (x >>= g) = .ok b ↔ ∃ y, x = .ok y ∧ g y = .ok b := by
  refine ⟨exists_of_bind_ok, ?_⟩
  rintro ⟨y, rfl, hg⟩
  exact hg

theorem exec_showReports_ok {c : Console} {task : Task} {rs : List Report} {v w : Verdict} :
    (showReports c task v rs).exec s = (.ok w, t) ↔
      ∃ text, reportsText c task rs = .ok text ∧ w = v.and (reportsVerdict rs) ∧
        t = { s with output := s.output ++ text } := by
  induction rs generalizing s v with
  | nil =>
    rw [showReports, exec_pure_ok]
    simp [reportsText, reportsVerdict, Verdict.and_valid]
  | cons r rs ih =>
    have hv : reportsVerdict (r :: rs) = (reportVerdict r).and (reportsVerdict rs) := rfl
    unfold showReports
    rw [reportsText, hv, ← Verdict.and_assoc]
    cases hv : r.vc <;> by_cases hp : task.options.printVc = true <;>
      simp [hp, exec_bind_ok, exec_lift_ok, exec_print_ok, ih, bind_eq_ok, String.append_assoc]

/-! ## a turn -/

/-- The task a word stands for, by the files there are. -/
def taskAt (a : Arguments) (fs : Files) (p : String) : Except Fault Task :=
  ((taskOf a p).exec { files := fs }).1

theorem exec_taskOf (a : Arguments) (p : String) (s : Session) : (taskOf a p).exec s = (taskAt a s.files p, s) := by
  unfold taskAt taskOf checkPath
  split_ifs with he hc
  · rfl
  · rw [pure_bind, exec_get_bind, exec_get_bind]
    cases s.files.read p with
    | error f => rfl
    | ok d => simp only [exec_lift]
  · rw [exec_lift, exec_lift]

/-- How the turn of a program ends. -/
inductive Outcome where
  | unreadable (f : FileFault)
  | unparsable (e : SyntaxError)
  | verified (rs : List Report)

def Outcome.verdict : Outcome → Verdict
  | .unreadable _ => .unknown
  | .unparsable _ => .unknown
  | .verified rs => reportsVerdict rs

def Arguments.console (a : Arguments) : Console := ⟨a.compact, a.logLevel⟩

/-- The copy of a program. -/
def copied (task : Task) (d : Document) : String × Document :=
  (Path.join task.outputDirectory "program.py", { d with text := String.ofList (lineFeeds d.text.toList) })

/-- The output directory is made and documents are written to it, unless there is to be no
output. -/
def Leaves (a : Arguments) (task : Task) (fs : Files) (ws : List (String × Document)) (gs : Files) :
    Prop :=
  if a.noOutput then gs = fs
  else Char.ofNat 0 ∉ task.outputDirectory.toList ∧
    ∃ hs, fs.makeDirectories task.outputDirectory = .ok hs ∧ hs.writeAll ws = .ok gs

/-- A turn that comes to the point where the program is read. -/
structure Begins (a : Arguments) (fs : Files) (p : String) (task : Task) (text : String) :
    Prop where
  assigned : taskAt a fs p = .ok task
  announced : a.console.task task.programName (.list task.options.functions) task.options.limit = .ok text
  path : Char.ofNat 0 ∉ task.program.toList

inductive Attends (solve : Smt.Solver) (a : Arguments) (fs : Files) (p : String) :
    Task → Outcome → String → Files → Prop where
  | unreadable {task : Task} {text : String} {f : FileFault} (hb : Begins a fs p task text)
      (hr : fs.read task.program = .error f) :
      Attends solve a fs p task (.unreadable f)
        (text ++ a.console.result task.programName "IO_ERROR" Verdict.unknown.text (some f.text)) fs
  | unparsable {task : Task} {text : String} {d : Document} {e : SyntaxError} {gs : Files} (hb : Begins a fs p task text)
      (hr : fs.read task.program = .ok d) (hm : d.module = .error e) (hl : Leaves a task fs [copied task d] gs) :
      Attends solve a fs p task (.unparsable e)
        (text ++ a.console.status ["parsing"] ++
          a.console.result task.programName "SYNTAX_INVALID" Verdict.unknown.text (some e.text)) gs
  | verified {task : Task} {text : String} {d : Document} {m : List Source.Stmt} {rs : List Report} {es : List Event}
      {ws : List (String × Document)} {gs : Files} {noted told : String} (hb : Begins a fs p task text)
      (hr : fs.read task.program = .ok d) (hm : d.module = .ok m)
      (hv : (verifyModule solve m task.options).exec = (.ok rs, es)) (hn : a.console.events es = .ok noted)
      (hw : a.noOutput = false → rs.flatMap (filed task.outputDirectory m) = atHand ws)
      (hl : Leaves a task fs (copied task d :: ws) gs) (ht : reportsText a.console task rs = .ok told) :
      Attends solve a fs p task (.verified rs)
        (text ++ a.console.status ["parsing"] ++ a.console.status ["verifying"] ++ noted ++ told) gs

theorem exec_runModule_ok {c : Console} {task : Task} {v w : Verdict} {m : List Source.Stmt} :
    (runModule solve a c task v m).exec s = (.ok w, t) ↔ ∃ rs es noted told ws gs,
      (verifyModule solve m task.options).exec = (.ok rs, es) ∧ c.events es = .ok noted ∧
      (a.noOutput = false → rs.flatMap (filed task.outputDirectory m) = atHand ws) ∧
      (if a.noOutput then gs = s.files else s.files.writeAll ws = .ok gs) ∧ reportsText c task rs = .ok told ∧
      w = v.and (reportsVerdict rs) ∧
      t = { files := gs, output := s.output ++ c.status ["verifying"] ++ noted ++ told } := by
  unfold runModule
  rcases hv : (verifyModule solve m task.options).exec with ⟨r, es⟩
  simp only [exec_bind_ok, exec_print_ok, exec_lift_ok, writeReports_eq]
  cases hn : a.noOutput
  · simp only [Bool.not_false, ↓reduceIte, exec_bind_ok, exec_saveAll_ok, exec_showReports_ok]
    constructor
    · rintro ⟨-, _, rfl, noted, _, ⟨hn, rfl⟩, -, _, rfl, rs, _, ⟨rfl, rfl⟩, -, _, ⟨ws, gs, hx, hw, rfl⟩, told, ht, rfl, rfl⟩
      exact ⟨rs, es, noted, told, ws, gs, rfl, hn, fun _ => hx, hw, ht, rfl, rfl⟩
    · rintro ⟨rs, _, noted, told, ws, gs, ⟨⟩, hn, hx, hw, ht, rfl, rfl⟩
      exact ⟨(), _, rfl, noted, _, ⟨hn, rfl⟩, (), _, rfl, rs, _, ⟨rfl, rfl⟩, (), _,
        ⟨ws, gs, hx trivial, hw, rfl⟩, told, ht, rfl, rfl⟩
  · simp only [Bool.not_true, Bool.false_eq_true, ↓reduceIte, exec_showReports_ok]
    constructor
    · rintro ⟨-, _, rfl, noted, _, ⟨hn, rfl⟩, -, _, rfl, rs, _, ⟨rfl, rfl⟩, told, ht, rfl, rfl⟩
      exact ⟨rs, es, noted, told, [], _, rfl, hn, by simp, rfl, ht, rfl, rfl⟩
    · rintro ⟨rs, _, noted, told, -, _, ⟨⟩, hn, -, rfl, ht, rfl, rfl⟩
      exact ⟨(), _, rfl, noted, _, ⟨hn, rfl⟩, (), _, rfl, rs, _, ⟨rfl, rfl⟩, told, ht, rfl, rfl⟩

/-- The documents may be written one after the other. -/
theorem leaves_cons {task : Task} {x : String × Document} {ws : List (String × Document)} :
    Leaves a task fs (x :: ws) gs ↔
      ∃ hs, Leaves a task fs [x] hs ∧ if a.noOutput then gs = hs else hs.writeAll ws = .ok gs := by
  obtain ⟨path, d⟩ := x
  unfold Leaves
  cases a.noOutput
  · simp only [Bool.false_eq_true, ↓reduceIte, Files.writeAll_cons]
    constructor
    · rintro ⟨hz, hs, hm, is, hw, hws⟩
      exact ⟨is, ⟨hz, hs, hm, is, hw, rfl⟩, hws⟩
    · rintro ⟨is, ⟨hz, hs, hm, _, hw, ⟨⟩⟩, hws⟩
      exact ⟨hz, hs, hm, is, hw, hws⟩
  · simp

/-- The output directory and the copy in it. -/
def deposit (a : Arguments) (task : Task) (d : Document) : Job Unit := do
  if !a.noOutput then
    checkPath task.outputDirectory
    edit fun fs => fs.makeDirectories task.outputDirectory
    Job.write (copied task d).1 (copied task d).2

theorem exec_deposit_ok {task : Task} {d : Document} {v : Unit} :
    (deposit a task d).exec s = (.ok v, t) ↔
    ∃ gs, Leaves a task s.files [copied task d] gs ∧ t = { s with files := gs } := by
  unfold deposit Leaves
  cases a.noOutput
  · simp only [Bool.not_false, Bool.false_eq_true, ↓reduceIte, Job.write, exec_bind_ok,
      exec_checkPath_ok, exec_edit_ok]
    constructor
    · rintro ⟨-, _, ⟨hz, rfl⟩, -, _, ⟨hs, hm, rfl⟩, gs, hw, rfl⟩
      exact ⟨gs, ⟨hz, hs, hm, Files.writeAll_cons.2 ⟨gs, hw, rfl⟩⟩, rfl⟩
    · rintro ⟨gs, ⟨hz, hs, hm, hw⟩, rfl⟩
      obtain ⟨_, hw, ⟨⟩⟩ := Files.writeAll_cons.1 hw
      exact ⟨(), s, ⟨hz, rfl⟩, (), _, ⟨hs, hm, rfl⟩, gs, hw, rfl⟩
  · simp only [Bool.not_true, Bool.false_eq_true, ↓reduceIte, exec_pure_ok]
    exact ⟨fun h => ⟨_, rfl, h.2⟩, fun ⟨_, hg, ht⟩ => ⟨trivial, by rw [ht, hg]⟩⟩

/-- What follows when a program has been parsed or not. -/
def examine (solve : Smt.Solver) (a : Arguments) (task : Task) (v : Verdict) :
    Except SyntaxError (List Source.Stmt) → Job Verdict
  | .error e => do
    Job.print (a.console.result task.programName "SYNTAX_INVALID" Verdict.unknown.text (some e.text))
    return v.and .unknown
  | .ok module => runModule solve a a.console task v module

/-- What follows when a program has been read or not. -/
def receive (solve : Smt.Solver) (a : Arguments) (task : Task) (v : Verdict) :
    Except FileFault Document → Job Verdict
  | .error f => do
    Job.print (a.console.result task.programName "IO_ERROR" Verdict.unknown.text (some f.text))
    return v.and .unknown
  | .ok d => do
    deposit a task d
    Job.print (a.console.status ["parsing"])
    examine solve a task v d.module

theorem runProgram_eq (v : Verdict) (p : String) : runProgram solve a v p = (do
    let task ← taskOf a p
    let text ← Job.lift (a.console.task task.programName (.list task.options.functions) task.options.limit)
    Job.print text
    checkPath task.program
    let s ← get
    receive solve a task v (s.files.read task.program)) := by
  unfold runProgram
  refine bind_congr fun task => bind_congr fun text => bind_congr fun _ => bind_congr fun _ => bind_congr fun s => ?_
  cases s.files.read task.program with
  | error f => rfl
  | ok d =>
    obtain ⟨content, module, data⟩ := d
    unfold receive deposit examine
    cases module <;> cases a.noOutput <;> simp [bind_assoc, Arguments.console, copied]

/-- `runProgram` returns exactly where a turn comes to its end. -/
theorem runProgram_iff {v w : Verdict} {p : String} : (runProgram solve a v p).exec s = (.ok w, t) ↔
    ∃ task o text gs, Attends solve a s.files p task o text gs ∧ w = v.and o.verdict ∧
      t = { files := gs, output := s.output ++ text } := by
  rw [runProgram_eq]
  simp only [exec_bind_ok, exec_taskOf, exec_lift_ok, exec_print_ok, exec_checkPath_ok,
    exec_get_bind, Prod.mk.injEq]
  constructor
  · rintro ⟨task, s, ⟨hk, rfl⟩, text, s, ⟨hc, rfl⟩, -, _, rfl, -, _, ⟨hz, rfl⟩, h⟩
    have hb : Begins a s.files p task text := ⟨hk, hc, hz⟩
    cases hr : s.files.read task.program with
    | error f =>
      simp only [hr, receive, exec_bind_ok, exec_print_ok, exec_pure_ok] at h
      obtain ⟨-, _, rfl, rfl, rfl⟩ := h
      exact ⟨task, _, _, _, .unreadable hb hr, rfl, by rw [String.append_assoc]⟩
    | ok d =>
      simp only [hr, receive, exec_bind_ok, exec_deposit_ok, exec_print_ok] at h
      obtain ⟨-, _, ⟨hs, hl, rfl⟩, -, _, rfl, h⟩ := h
      cases hm : d.module with
      | error e =>
        simp only [hm, examine, exec_bind_ok, exec_print_ok, exec_pure_ok] at h
        obtain ⟨-, _, rfl, rfl, rfl⟩ := h
        exact ⟨task, _, _, _, .unparsable hb hr hm hl, rfl, by simp only [String.append_assoc]⟩
      | ok m =>
        simp only [hm, examine, exec_runModule_ok] at h
        obtain ⟨rs, es, noted, told, ws, gs, hv, hn, hx, hw, ht, rfl, rfl⟩ := h
        exact ⟨task, _, _, _, .verified hb hr hm hv hn hx (leaves_cons.2 ⟨hs, hl, hw⟩) ht, rfl,
          by simp only [String.append_assoc]⟩
  · rintro ⟨task, o, text, gs, h, rfl, rfl⟩
    cases h with
    | unreadable hb hr =>
      refine ⟨task, s, ⟨hb.assigned, rfl⟩, _, s, ⟨hb.announced, rfl⟩, (), _, rfl, (), _, ⟨hb.path, rfl⟩, ?_⟩
      simp only [hr, receive, exec_bind_ok, exec_print_ok, exec_pure_ok]
      exact ⟨(), _, rfl, rfl, by rw [String.append_assoc]⟩
    | unparsable hb hr hm hl =>
      refine ⟨task, s, ⟨hb.assigned, rfl⟩, _, s, ⟨hb.announced, rfl⟩, (), _, rfl, (), _, ⟨hb.path, rfl⟩, ?_⟩
      simp only [hr, receive, hm, examine, exec_bind_ok, exec_deposit_ok, exec_print_ok,
        exec_pure_ok]
      exact ⟨(), _, ⟨gs, hl, rfl⟩, (), _, rfl, (), _, rfl, rfl, by simp only [String.append_assoc]⟩
    | verified hb hr hm hv hn hx hl ht =>
      obtain ⟨hs, hl, hw⟩ := leaves_cons.1 hl
      refine ⟨task, s, ⟨hb.assigned, rfl⟩, _, s, ⟨hb.announced, rfl⟩, (), _, rfl, (), _, ⟨hb.path, rfl⟩, ?_⟩
      simp only [hr, receive, hm, examine, exec_bind_ok, exec_deposit_ok, exec_print_ok,
        exec_runModule_ok]
      exact ⟨(), _, ⟨hs, hl, rfl⟩, (), _, rfl, _, _, _, _, _, gs, hv, hn, hx, hw, ht, rfl, by simp only [String.append_assoc]⟩

end Cli

end ContractVerifier
