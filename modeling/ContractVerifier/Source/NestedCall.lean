import ContractVerifier.Source.Hoist

/-!
# Nested calls

A call inside an expression moves into an assignment to a temporary.  Afterwards calls stand only as
`x = f(...)` or as a statement `f(...)`, and their arguments are free of calls.
-/

namespace ContractVerifier.Source

open Hoist

mutual

/-- `whole` says that the expression is all of an assigned value or of a statement, where a call may
stay. -/
def Exp.liftCall : Exp → Bool → HoistM Exp
  | .call sp f args keywords, whole => do
    let args ← Exp.liftCallL args
    if whole then return .call sp f args keywords
    else
      let x ← fresh
      push [assignTo x sp (.call sp f args keywords)]
      return .name sp x
  | .constant sp c, _ => return .constant sp c
  | .name sp x, _ => return .name sp x
  | .unary sp op e, _ => do
    let e ← e.liftCall false
    return .unary sp op e
  | .binary sp l op r, _ => do
    let l ← l.liftCall false
    let r ← r.liftCall false
    return .binary sp l op r
  | .logic sp op es, _ => do
    let es ← Exp.liftCallL es
    return .logic sp op es
  | .compare sp l ops rs, _ => do
    let l ← l.liftCall false
    let rs ← Exp.liftCallL rs
    return .compare sp l ops rs
  | .ifElse sp t a b, _ => do
    let t ← t.liftCall false
    let a ← a.liftCall false
    let b ← b.liftCall false
    return .ifElse sp t a b
  | .other sp k ps, _ => do
    let ps ← Part.liftCallL ps
    return .other sp k ps

def Exp.liftCallL : List Exp → HoistM (List Exp)
  | [] => return []
  | e :: es => do
    let e ← e.liftCall false
    let es ← Exp.liftCallL es
    return e :: es

/-- A statement may give way to several. -/
def Part.liftCall : Part → HoistM (List Part)
  | .exp e => do
    let e ← e.liftCall false
    return [.exp e]
  | .stmt s => do
    let ss ← s.liftCall
    return ss.map .stmt
  | .keyword sp x e => do
    let e ← e.liftCall false
    return [.keyword sp x e]
  | .node k sp ps => do
    let ps ← Part.liftCallL ps
    return [.node k sp ps]
  | .list ps => do
    let ps ← Part.liftCallL ps
    return [.list ps]
  | .field l p => do
    let ps ← p.liftCall
    return ps.map (.field l)
  | .missing => return [.missing]
  | .text s => return [.text s]
  | .number n => return [.number n]

def Part.liftCallL : List Part → HoistM (List Part)
  | [] => return []
  | p :: ps => do
    let p ← p.liftCall
    let ps ← Part.liftCallL ps
    return p ++ ps

/-- The statements that take the place of one. -/
def Stmt.liftCall : Stmt → HoistM (List Stmt)
  | .assign sp ts v => do
    let v ← v.liftCall true
    return [.assign sp ts v]
  | .declare sp t u none => return [.declare sp t u none]
  | .declare sp t u (some v) => do
    let v ← v.liftCall true
    return [.declare sp t u (some v)]
  | .exp sp v => do
    if v.isCall then
      let v ← v.liftCall true
      return [.exp sp v]
    else return [.exp sp v]
  | .ret sp none => return [.ret sp none]
  | .ret sp (some v) => do
    let v ← v.liftCall false
    return [.ret sp (some v)]
  | .cond sp t body orElse => do
    let t ← t.liftCall false
    let before ← takeAll
    let body ← Stmt.liftCallL body
    let orElse ← Stmt.liftCallL orElse
    return before ++ [.cond sp t body orElse]
  | .loop sp t body orElse => do
    let body ← Stmt.liftCallL body
    return [.loop sp t body orElse]
  | .function sp x ps more body decorators result => do
    let body ← Stmt.liftCallL body
    return [.function sp x ps more body decorators result]
  | .augment sp t op v => do
    let t ← t.liftCall false
    let v ← v.liftCall false
    return [.augment sp t op v]
  | .other sp k ps => do
    let ps ← Part.liftCallL ps
    return [.other sp k ps]
  | .pass sp => return [.pass sp]
  | .brk sp => return [.brk sp]
  | .cont sp => return [.cont sp]

/-- Each statement behind what was moved out of it. -/
def Stmt.liftCallL : List Stmt → HoistM (List Stmt)
  | [] => return []
  | s :: ss => do
    let s ← s.liftCall
    let before ← takeAll
    let ss ← Stmt.liftCallL ss
    return before ++ s ++ ss

end

end ContractVerifier.Source
