import ContractVerifier.Error
import ContractVerifier.Source.Tree

/-!
# Augmented assignments

`x op= e` becomes `x = x op e`, wherever it stands.
-/

namespace ContractVerifier.Source

/-- The assignment for `target op= value`. -/
def expandAugment (sp : Span) (target : Exp) (op : Arith) (value : Exp) : Except Fault Stmt :=
  match target with
  | .name nsp x => .ok (.assign sp [.name nsp x] (.binary sp (.name nsp x) op value))
  | _ => .error .targetNotName

mutual

def Stmt.expandAugments : Stmt → Except Fault Stmt
  | .augment sp t op v => expandAugment sp t op v
  | .function sp x ps more body decorators result => do
    let body ← Stmt.expandAugmentsL body
    .ok (.function sp x ps more body decorators result)
  | .cond sp t body orElse => do
    let body ← Stmt.expandAugmentsL body
    let orElse ← Stmt.expandAugmentsL orElse
    .ok (.cond sp t body orElse)
  | .loop sp t body orElse => do
    let body ← Stmt.expandAugmentsL body
    let orElse ← Stmt.expandAugmentsL orElse
    .ok (.loop sp t body orElse)
  | .other sp k ps => do
    let ps ← Part.expandAugmentsL ps
    .ok (.other sp k ps)
  | .assign sp ts v => .ok (.assign sp ts v)
  | .declare sp t u v => .ok (.declare sp t u v)
  | .exp sp v => .ok (.exp sp v)
  | .ret sp v => .ok (.ret sp v)
  | .pass sp => .ok (.pass sp)
  | .brk sp => .ok (.brk sp)
  | .cont sp => .ok (.cont sp)

def Stmt.expandAugmentsL : List Stmt → Except Fault (List Stmt)
  | [] => .ok []
  | s :: ss => do
    let s ← s.expandAugments
    let ss ← Stmt.expandAugmentsL ss
    .ok (s :: ss)

/-- Expressions hold no statements. -/
def Part.expandAugments : Part → Except Fault Part
  | .stmt s => do
    let s ← s.expandAugments
    .ok (.stmt s)
  | .node k sp ps => do
    let ps ← Part.expandAugmentsL ps
    .ok (.node k sp ps)
  | .list ps => do
    let ps ← Part.expandAugmentsL ps
    .ok (.list ps)
  | .field l p => do
    let p ← p.expandAugments
    .ok (.field l p)
  | .missing => .ok .missing
  | .text s => .ok (.text s)
  | .number n => .ok (.number n)
  | .exp e => .ok (.exp e)
  | .keyword sp x e => .ok (.keyword sp x e)

def Part.expandAugmentsL : List Part → Except Fault (List Part)
  | [] => .ok []
  | p :: ps => do
    let p ← p.expandAugments
    let ps ← Part.expandAugmentsL ps
    .ok (p :: ps)

end

end ContractVerifier.Source
