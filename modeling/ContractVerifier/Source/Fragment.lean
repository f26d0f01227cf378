import ContractVerifier.Error
import ContractVerifier.Source.Printer

/-!
# The supported fragment

`Stmt.check` accepts what the verifier understands and names the first construct outside of it.
-/

namespace ContractVerifier.Source

/-- `what` at line `line` is not supported. -/
def reject (what : Construct) (line : Option Int) : Except Failure Unit :=
  .error (.error (.unsupported (.construct what) line))

/-- A message that shows code needs code that has a text. -/
def rejectShown (isWritable : Bool) (what : Construct) (line : Option Int) : Except Failure Unit :=
  if isWritable then reject what line else .error (.fault .unwritable)

namespace Arith

def supported : Arith → Bool
  | add | sub | mult | floorDiv | mod => true
  | _ => false

def check (op : Arith) : Except Failure Unit :=
  if op.supported then .ok () else reject (.kind op.kind) none

end Arith

namespace Sign

def supported : Sign → Bool
  | invert => false
  | _ => true

def check (op : Sign) : Except Failure Unit :=
  if op.supported then .ok () else reject (.kind op.kind) none

end Sign

namespace Comparison

def supported : Comparison → Bool
  | eq | notEq | lt | ltE | gt | gtE => true
  | _ => false

def check (op : Comparison) : Except Failure Unit :=
  if op.supported then .ok () else reject (.kind op.kind) none

end Comparison

namespace Constant

/-- The constant as it is named in a message. -/
def shown : Constant → String
  | none => "None"
  | bool true => "True"
  | bool false => "False"
  | int n => toString n
  | text s => Text.quoted s
  | other s => s

def supported : Constant → Bool
  | bool _ | int _ => true
  | _ => false

end Constant

def Exp.isStarred : Exp → Bool
  | .other _ "Starred" _ => true
  | _ => false

/-! ## loop conditions -/

/-- A call or conditional expression inside another expression. -/
structure Nested where
  depth : Nat
  kind : String
  line : Int

namespace Nested

/-- The less deep of two, the first one of equals. -/
def shallower : Option Nested → Option Nested → Option Nested
  | some a, some b => if b.depth < a.depth then some b else some a
  | some a, none => some a
  | none, b => b

def below (x : Option Nested) : Option Nested := x.map fun n => { n with depth := n.depth + 1 }

end Nested

open Nested in
mutual

/-- The least deep call or conditional expression of an expression. -/
def Exp.nested : Exp → Option Nested
  | .call sp _ _ _ => some ⟨0, "Call", sp.line⟩
  | .ifElse sp _ _ _ => some ⟨0, "IfExp", sp.line⟩
  | .constant .. | .name .. => none
  | .unary _ _ e => below e.nested
  | .binary _ l _ r => shallower (below l.nested) (below r.nested)
  | .logic _ _ es => below (Exp.nestedL es)
  | .compare _ l _ rs => shallower (below l.nested) (below (Exp.nestedL rs))
  | .other _ _ ps => Part.nestedL ps

def Exp.nestedL : List Exp → Option Nested
  | [] => none
  | e :: es => shallower e.nested (Exp.nestedL es)

def Part.nested : Part → Option Nested
  | .exp e => below e.nested
  | .keyword _ _ e => below (below e.nested)
  | .node _ _ ps => below (Part.nestedL ps)
  | .list ps => Part.nestedL ps
  | .field _ p => p.nested
  | .missing | .text _ | .number _ | .stmt _ => none

def Part.nestedL : List Part → Option Nested
  | [] => none
  | p :: ps => shallower p.nested (Part.nestedL ps)

end

/-- A loop condition is evaluated again and again, so nothing may be moved out of it. -/
def Exp.checkLoopTest (e : Exp) : Except Failure Unit :=
  match e.nested with
  | some n => reject (.inLoopCondition n.kind) (some n.line)
  | none => .ok ()

/-! ## expressions -/

mutual

def Exp.check : Exp → Except Failure Unit
  | .constant sp c => if c.supported then .ok () else reject (.constant c.shown) (some sp.line)
  | .name .. => .ok ()
  | .unary _ op e => do
    op.check
    e.check
  | .binary sp l op r => do
    if op = .div then reject .trueDivision (some sp.line)
    l.check
    op.check
    r.check
  | .logic _ _ es => Exp.checkL es
  | .compare _ l ops rs => do
    l.check
    ops.forM Comparison.check
    Exp.checkL rs
  | .ifElse _ t a b => do
    t.check
    a.check
    b.check
  | .call sp f args keywords => do
    match f with
    | .name _ id => if id = "invariant" then reject .strayInvariant (some sp.line)
    | f => rejectShown f.isWritable (.callOf f.text) (some sp.line)
    if !keywords.isEmpty then reject .keywordArgument (some sp.line)
    Exp.checkArgs args
  | .other sp k _ => reject (.kind k) (some sp.line)

def Exp.checkL : List Exp → Except Failure Unit
  | [] => .ok ()
  | e :: es => do
    e.check
    Exp.checkL es

def Exp.checkArgs : List Exp → Except Failure Unit
  | [] => .ok ()
  | e :: es => do
    if e.isStarred then reject .starredArgument (some e.line)
    e.check
    Exp.checkArgs es

end

def Exp.check? : Option Exp → Except Failure Unit
  | some e => e.check
  | none => .ok ()

/-! ## statements -/

mutual

/-- `inFunction` and `inLoop` say what the statement stands in. -/
def Stmt.check (inFunction inLoop : Bool) : Stmt → Except Failure Unit
  | .function sp _ _ more body _ _ => do
    if inFunction then reject .nestedFunction (some sp.line)
    if !more.isEmpty then reject .parameterKind (some sp.line)
    match body with
    | [] => .ok ()
    | s :: ss => do
      if !s.isDocstring then s.check true inLoop
      Stmt.checkL true inLoop ss
  | .assign sp targets v => do
    match targets with
    | [t] => if !t.isName then rejectShown t.isWritable (.assignmentTo t.text) (some sp.line)
    | _ => rejectShown (targets.all Exp.isWritable && v.isWritable) (.assignmentTo (assignText targets v)) (some sp.line)
    v.check
  | .declare sp t _ v => do
    if !t.isName then rejectShown t.isWritable (.assignmentTo t.text) (some sp.line)
    Exp.check? v
  | .augment sp t op v => do
    if !t.isName then rejectShown t.isWritable (.assignmentTo t.text) (some sp.line)
    op.check
    v.check
  | .exp sp v => do
    if !v.isCall then reject .expressionStatement (some sp.line)
    v.check
  | .cond _ t body orElse => do
    t.check
    Stmt.checkL inFunction inLoop body
    Stmt.checkL inFunction inLoop orElse
  | .loop sp t body orElse => do
    if !orElse.isEmpty then reject .whileElse (some sp.line)
    t.checkLoopTest
    t.check
    Stmt.checkLoopBody inFunction body
  | .ret _ v => Exp.check? v
  | .pass _ => .ok ()
  | .brk sp => if inLoop then .ok () else reject .breakOutsideLoop (some sp.line)
  | .cont sp => if inLoop then .ok () else reject .continueOutsideLoop (some sp.line)
  | .other sp k _ => reject (.kind k) (some sp.line)

def Stmt.checkL (inFunction inLoop : Bool) : List Stmt → Except Failure Unit
  | [] => .ok ()
  | s :: ss => do
    s.check inFunction inLoop
    Stmt.checkL inFunction inLoop ss

/-- The invariants at the start of a loop body are not looked at. -/
def Stmt.checkLoopBody (inFunction : Bool) : List Stmt → Except Failure Unit
  | [] => .ok ()
  | s :: ss =>
    if s.isInvariant then Stmt.checkLoopBody inFunction ss
    else do
      s.check inFunction true
      Stmt.checkL inFunction true ss

end

/-- A tree of any kind on its own. -/
def Part.check : Part → Except Failure Unit
  | .exp e => e.check
  | .stmt s => s.check false false
  | .field _ p => p.check
  | p => reject (.kind p.kind) p.line?

end ContractVerifier.Source
