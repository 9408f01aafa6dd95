import AdaptiveLL.Script.Expr

/-!
# Scripted statements

The statements of which the actions of a scripted grammar are made. Each
evaluates an expression before it does anything else.
-/

namespace AdaptiveLL

/-- A statement of a script. -/
inductive Statement
  /-- Writes a value and a line break. -/
  | print (e : Expr)
  /-- Sets a local, new or not. -/
  | setLocal (name : String) (e : Expr)
  /-- Sets a return, new or not. -/
  | setReturn (name : String) (e : Expr)
  /-- Replaces the value of a local. -/
  | assignLocal (name : String) (e : Expr)
  /-- Appends to a local. -/
  | pushLocal (name : String) (e : Expr)
  /-- Appends to a return. -/
  | pushReturn (name : String) (e : Expr)

namespace Statement

/-- Changes the locals. -/
def onLocals (f : Scope → Except Fault Scope) : Effect Expr.Memory Unit := do
  let s ← get
  let locals ← Effect.ofExcept (f s.locals)
  set { s with locals }

/-- Changes the returns. -/
def onReturns (f : Scope → Except Fault Scope) : Effect Expr.Memory Unit := do
  let s ← get
  let returns ← Effect.ofExcept (f s.returns)
  set { s with returns }

/-- Executes a statement. -/
def execute (scene : ActionScene) : Statement → Effect Expr.Memory Unit
  | print e => do
    let v ← e.eval (.action scene)
    modify fun s => { s with out := s.out ++ v.text ++ "\n" }
  | setLocal name e => do
    let v ← e.eval (.action scene)
    onLocals fun s => .ok (s.set name v)
  | setReturn name e => do
    let v ← e.eval (.action scene)
    onReturns fun s => .ok (s.set name v)
  | assignLocal name e => do
    let v ← e.eval (.action scene)
    onLocals fun s => s.assign name v
  | pushLocal name e => do
    let v ← e.eval (.action scene)
    onLocals fun s => s.push name v
  | pushReturn name e => do
    let v ← e.eval (.action scene)
    onReturns fun s => s.push name v

/-- Executes statements, one after the other. -/
def executeAll (scene : ActionScene) : List Statement → Effect Expr.Memory Unit
  | [] => return ()
  | s :: rest => do
    s.execute scene
    executeAll scene rest

/-- The action that consists of some statements. -/
def toAction (text : String) (statements : List Statement) : Action Tally :=
  { text, run := some fun scene => executeAll scene statements }

end Statement

end AdaptiveLL
