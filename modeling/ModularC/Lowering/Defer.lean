import ModularC.Syntax.Basic

/-!
`defer` removed from function bodies: each deferred expression is replayed before every later
`return` of its function, and where the body can run off its end.
-/

namespace ModularC

/-- Statements in a slot that holds one: nothing becomes `;`, several become a block. -/
def Stmt.collapse : List Stmt → Stmt
  | [] => .empty
  | [s] => s
  | ss => .block ss

mutual

/-- The statements a statement becomes once defers are replayed, given the expressions deferred
before it, and the deferred expressions after it. -/
def Stmt.replayDefers (pending : List Expr) : Stmt → List Stmt × List Expr
  | .defer e => ([], pending ++ [e])
  | .return_ v => (pending.map .expr ++ [.return_ v], pending)
  | .block ss =>
    let (ss, p) := Stmt.replayDefersAll pending ss
    ([.block ss], p)
  | .if_ c thn els =>
    let (t, p) := thn.replayDefers pending
    match els with
    | none => ([.if_ c (Stmt.collapse t) none], p)
    | some e =>
      let (e, p) := e.replayDefers p
      ([.if_ c (Stmt.collapse t) (some (Stmt.collapse e))], p)
  | .while_ c body =>
    let (b, p) := body.replayDefers pending
    ([.while_ c (Stmt.collapse b)], p)
  | .doWhile body c =>
    let (b, p) := body.replayDefers pending
    ([.doWhile (Stmt.collapse b) c], p)
  | .for_ i c st body =>
    let (b, p) := body.replayDefers pending
    ([.for_ i c st (Stmt.collapse b)], p)
  | .switch v cases =>
    let (cs, p) := Case.replayDefersAll pending cases
    ([.switch v cs], p)
  | s => ([s], pending)

def Stmt.replayDefersAll (pending : List Expr) : List Stmt → List Stmt × List Expr
  | [] => ([], pending)
  | s :: ss =>
    let (out, p) := s.replayDefers pending
    let (rest, p) := Stmt.replayDefersAll p ss
    (out ++ rest, p)

def Case.replayDefersAll (pending : List Expr) : List Case → List Case × List Expr
  | [] => ([], pending)
  | ⟨label, body⟩ :: cs =>
    let (body, p) := Stmt.replayDefersAll pending body
    let (rest, p) := Case.replayDefersAll p cs
    (⟨label, body⟩ :: rest, p)

end

/-- Whether a statement list ends in `return`. -/
def Stmt.endsInReturn (ss : List Stmt) : Bool :=
  match ss.getLast? with
  | some (.return_ _) => true
  | _ => false

/-- The function with its defers replayed before each `return` and, where the body can run off its
end, at the end. -/
def FunctionDef.replayDefers (f : FunctionDef) : FunctionDef :=
  match f.body with
  | none => f
  | some [] => f
  | some body =>
    let body :=
      if f.name? != some "main" && f.returnsVoid && !Stmt.endsInReturn body then
        body ++ [.return_ none]
      else body
    let (out, pending) := Stmt.replayDefersAll [] body
    let out := if Stmt.endsInReturn body then out else out ++ pending.map .expr
    { f with body := some out }

end ModularC
