import ContractVerifier.Report
import ContractVerifier.Smt.Check
import ContractVerifier.Source.Lower
import ContractVerifier.Wp.Condition

/-!
# Events of a run

What happens while functions are verified, with the level of detail from which on it is shown.
-/

namespace ContractVerifier

namespace Wp.Step

/-- Conditions from level 1, every step from level 5. -/
def level : Step → Int
  | weakest _ | obligation _ => 1
  | visited .. | called .. | havocked .. => 5

def text : Step → String
  | visited i e => "[WP DEBUG] wp(" ++ toString i ++ ") = " ++ e.text
  | called c r e => "[WP DEBUG] call " ++ c.text ++ ": requires " ++ r.text ++ ", ensures " ++ e.text
  | havocked h vs => "[WP DEBUG] loop at " ++ toString h ++ " havocs " ++ ", ".intercalate (vs.map (·.name))
  | weakest e => "[VC DEBUG] wp: " ++ e.text
  | obligation e => "[VC DEBUG] obligation: " ++ e.text

end Wp.Step

namespace Smt.Step

def level : Step → Int
  | limitIgnored _ => 1
  | asserted _ => 5

def text : Step → String
  | limitIgnored s => "[SMT WARN] timeout is not supported for solver " ++ s
  | asserted t => "[SMT DEBUG] asserting " ++ t.shortText

end Smt.Step

inductive Event where
  | noContract (name : String) (e : Error)
  | skipped (name : String)
  | verifying (s : Source.Signature)
  | normalized (f : Source.Function)
  | lowered (name : String) (t : Table) (g : Flow.Graph)
  | wp (s : Wp.Step)
  | smt (s : Smt.Step)
  | reported (r : Report)
  /-- An event of a job that runs on its own, of which nothing is printed. -/
  | unseen (e : Event)

namespace Event

def level : Event → Int
  | noContract .. | skipped _ | verifying _ | reported _ => 1
  | lowered .. => 2
  | normalized _ => 3
  | wp s => s.level
  | smt s => s.level
  | unseen e => e.level

def text : Event → String
  | noContract x e => "[VERIFIER DEBUG] no contract for " ++ x ++ ": " ++ e.text
  | skipped x => "[VERIFIER DEBUG] skipping " ++ x ++ ", it has no pre- and postcondition"
  | verifying s => "[VERIFIER DEBUG] verifying " ++ s.text
  | normalized f => "[PREPROCESS DEBUG] " ++ f.name ++ ":\n" ++ f.toStmt.text
  | lowered x t g => "[FRONTEND DEBUG] " ++ x ++ ": " ++ t.text ++ "\n" ++ g.text
  | wp s => s.text
  | smt s => s.text
  | reported r => "[" ++ r.name ++ "] " ++ r.describe
  | unseen e => e.text

/-- An event is written down, whether it is shown or not; this is what may keep it from that. -/
def fault? : Event → Option Fault
  | normalized f => if f.toStmt.isWritable then none else some .unwritable
  | lowered _ _ g => if g.isWritable then none else some .numeralTooLong
  | wp s => if s.isWritable then none else some .numeralTooLong
  | _ => none

/-- What is printed of an event. -/
def printed : Event → String
  | unseen _ => ""
  | e => e.text ++ "\n"

end Event

end ContractVerifier
