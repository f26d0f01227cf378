import ContractVerifier.Source.Hoist

/-!
# Conditional expressions

A conditional expression becomes a conditional statement, so that each way through a function shows
in its control flow.  One that is the whole value of an assignment or a return is spread over the
branches; any other one goes through a temporary.
-/

namespace ContractVerifier.Source

open Hoist

/-- The conditional statement for a test and two arms.  An arm leaves its statements pending; what
the test leaves comes in front of the whole. -/
def choose (sp : Span) (test : HoistM Exp) (arm₁ arm₂ : HoistM Exp) : HoistM Stmt := do
  let t ← test
  let before ← takeAll
  let _ ← arm₁
  let body ← takeAll
  let _ ← arm₂
  let orElse ← takeAll
  push before
  return .cond sp t body orElse

/-- What becomes of an expression without conditionals: it is handed back, or `wrap` of it is
pending. -/
def finish (wrap : Option (Exp → Stmt)) (e : Exp) : HoistM Exp :=
  match wrap with
  | none => return e
  | some wrap => do
    push [wrap e]
    return e

mutual

/-- Without `wrap` the expression that takes the place of `e`; with `wrap` the statements for
`wrap e` are left pending. -/
def Exp.liftIf : Exp → Option (Exp → Stmt) → HoistM Exp
  | .ifElse sp t a b, none => do
    let x ← fresh
    let s ← choose sp (t.liftIf none) (a.liftIf (some (assignTo x a.span))) (b.liftIf (some (assignTo x b.span)))
    push [s]
    return .name sp x
  | .ifElse sp t a b, some wrap => do
    let s ← choose sp (t.liftIf none) (a.liftIf (some wrap)) (b.liftIf (some wrap))
    push [s]
    return .ifElse sp t a b
  | .constant sp c, wrap => finish wrap (.constant sp c)
  | .name sp x, wrap => finish wrap (.name sp x)
  | .unary sp op e, wrap => do
    let e ← e.liftIf none
    finish wrap (.unary sp op e)
  | .binary sp l op r, wrap => do
    let l ← l.liftIf none
    let r ← r.liftIf none
    finish wrap (.binary sp l op r)
  | .logic sp op es, wrap => do
    let es ← Exp.liftIfL es
    finish wrap (.logic sp op es)
  | .compare sp l ops rs, wrap => do
    let l ← l.liftIf none
    let rs ← Exp.liftIfL rs
    finish wrap (.compare sp l ops rs)
  | .call sp f args keywords, wrap => do
    let f ← f.liftIf none
    let args ← Exp.liftIfL args
    let keywords ← Part.liftIfL keywords
    finish wrap (.call sp f args keywords)
  | .other sp k ps, wrap => do
    let ps ← Part.liftIfL ps
    finish wrap (.other sp k ps)

def Exp.liftIfL : List Exp → HoistM (List Exp)
  | [] => return []
  | e :: es => do
    let e ← e.liftIf none
    let es ← Exp.liftIfL es
    return e :: es

/-- A statement may give way to several or to none. -/
def Part.liftIf : Part → HoistM (List Part)
  | .exp e => do
    let e ← e.liftIf none
    return [.exp e]
  | .stmt s => do
    let ss ← s.liftIf
    return ss.map .stmt
  | .keyword sp x e => do
    let e ← e.liftIf none
    return [.keyword sp x e]
  | .node k sp ps => do
    let ps ← Part.liftIfL ps
    return [.node k sp ps]
  | .list ps => do
    let ps ← Part.liftIfL ps
    return [.list ps]
  | .field l p => do
    let ps ← p.liftIf
    return ps.map (.field l)
  | .missing => return [.missing]
  | .text s => return [.text s]
  | .number n => return [.number n]

def Part.liftIfL : List Part → HoistM (List Part)
  | [] => return []
  | p :: ps => do
    let p ← p.liftIf
    let ps ← Part.liftIfL ps
    return p ++ ps

/-- The statements that take the place of one. -/
def Stmt.liftIf : Stmt → HoistM (List Stmt)
  | .assign sp ts v => do
    if v.isIfElse then
      let _ ← v.liftIf (some (.assign sp ts))
      return []
    else
      let v ← v.liftIf none
      return [.assign sp ts v]
  | .ret sp none => return [.ret sp none]
  | .ret sp (some v) => do
    if v.isIfElse then
      let _ ← v.liftIf (some fun v => .ret sp (some v))
      return []
    else
      let v ← v.liftIf none
      return [.ret sp (some v)]
  | .cond sp t body orElse => do
    let t ← t.liftIf none
    let before ← takeAll
    let body ← Stmt.liftIfL body
    let orElse ← Stmt.liftIfL orElse
    return before ++ [.cond sp t body orElse]
  | .loop sp t body orElse => do
    let body ← Stmt.liftIfL body
    return [.loop sp t body orElse]
  | .function sp x ps more body decorators result => do
    let body ← Stmt.liftIfL body
    return [.function sp x ps more body decorators result]
  | .declare sp t u none => do
    let t ← t.liftIf none
    let u ← u.liftIf none
    return [.declare sp t u none]
  | .declare sp t u (some v) => do
    let t ← t.liftIf none
    let u ← u.liftIf none
    let v ← v.liftIf none
    return [.declare sp t u (some v)]
  | .augment sp t op v => do
    let t ← t.liftIf none
    let v ← v.liftIf none
    return [.augment sp t op v]
  | .exp sp v => do
    let v ← v.liftIf none
    return [.exp sp v]
  | .other sp k ps => do
    let ps ← Part.liftIfL ps
    return [.other sp k ps]
  | .pass sp => return [.pass sp]
  | .brk sp => return [.brk sp]
  | .cont sp => return [.cont sp]

/-- Each statement behind what was moved out of it. -/
def Stmt.liftIfL : List Stmt → HoistM (List Stmt)
  | [] => return []
  | s :: ss => do
    let s ← s.liftIf
    let before ← takeAll
    let ss ← Stmt.liftIfL ss
    return before ++ s ++ ss

end

end ContractVerifier.Source
