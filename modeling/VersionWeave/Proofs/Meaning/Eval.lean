import VersionWeave.Entries
import VersionWeave.Tree.Basic

namespace VersionWeave

inductive Value where
  | null
  | int (n : Int)
  | bool (b : Bool)
  | str (text : String)
  | object (id : Nat)
  deriving DecidableEq, Repr

/-- How a value reads when it is added to a string. -/
def Value.text : Value → String
  | .null => "null"
  | .int n => toString n
  | .bool b => toString b
  | .str text => text
  | .object id => "object " ++ id.repr

/-- Integers and strings can be added; with a string everything can. -/
def Value.add? : Value → Value → Option Value
  | .int a, .int b => some (.int (a + b))
  | .str a, b => some (.str (a ++ b.text))
  | a, .str b => some (.str (a.text ++ b))
  | _, _ => none

/-- The value of a literal; characters and floating-point numbers have none here. -/
def Literal.value? : Literal → Option Value
  | .int n | .long n => some (.int n.toInt)
  | .bool b => some (.bool b)
  | .str text => some (.str text)
  | .null => some .null
  | _ => none

/-- The objects made so far with the names of their types, and what every field holds. -/
structure Memory where
  objects : List String
  fields : Nat → String → Value

namespace Memory

def write (m : Memory) (id : Nat) (name : String) (value : Value) : Memory :=
  { m with fields := fun i n => if i = id ∧ n = name then value else m.fields i n }

/-- A new object of a type; its own constructor is not looked into, so its fields are what they are. -/
def allocate (m : Memory) (type : String) : Memory :=
  { m with objects := m.objects ++ [type] }

end Memory

/-- Why an evaluation ends early: a throw, or a step that is given no meaning here. -/
inductive Abort where
  | thrown (value : Value)
  | stuck
  deriving DecidableEq, Repr

/-- Evaluation over a memory; one that ends early leaves the memory it came to. -/
abbrev Exec := EStateM Abort Memory

namespace Exec

variable {α : Type}

def ofOption : Option α → Exec α
  | some a => pure a
  | none => throw .stuck

def create (type : String) : Exec Nat := fun m => .ok m.objects.length (m.allocate type)

/-- The memory after an evaluation, however it ended. -/
def after (x : Exec α) (m : Memory) : Memory :=
  match x m with
  | .ok _ m => m
  | .error _ m => m

end Exec

/-- The object at work and the parameters of the method. -/
structure Env where
  self : Nat
  locals : Entries String Value

def Value.object? : Value → Option Nat
  | .object id => some id
  | _ => none

/-- What a call means: receiver, name and arguments. -/
abbrev Calls := Value → String → List Value → Exec Value

mutual

def Expr.eval (call : Calls) (env : Env) : Expr → Exec Value
  | .literal l => Exec.ofOption l.value?
  | .ident n => Exec.ofOption (env.locals.get? n)
  | .this => pure (.object env.self)
  | .field receiver name => do
    let id ← Exec.ofOption (← receiver.eval call env).object?
    return (← get).fields id name
  | .call receiver name args => do
    let receiver ← Expr.evalReceiver call env receiver
    let args ← Expr.evalAll call env args
    call receiver name args
  | .create ty args => do
    let _ ← Expr.evalAll call env args
    return .object (← Exec.create ty.name)
  | .assign target .assign value => do
    let (id, name) ← target.evalPlace call env
    let value ← value.eval call env
    modify fun m => m.write id name value
    return value
  | .binary .add lhs rhs => do
    let a ← lhs.eval call env
    let b ← rhs.eval call env
    Exec.ofOption (a.add? b)
  | _ => throw .stuck

/-- The field that is written to. -/
def Expr.evalPlace (call : Calls) (env : Env) : Expr → Exec (Nat × String)
  | .field receiver name => do
    let id ← Exec.ofOption (← receiver.eval call env).object?
    return (id, name)
  | _ => throw .stuck

/-- A call without receiver goes to the object at work. -/
def Expr.evalReceiver (call : Calls) (env : Env) : Option Expr → Exec Value
  | none => pure (.object env.self)
  | some e => e.eval call env

def Expr.evalAll (call : Calls) (env : Env) : List Expr → Exec (List Value)
  | [] => pure []
  | e :: rest => do
    let value ← e.eval call env
    let values ← Expr.evalAll call env rest
    return value :: values

end

/-- How a statement ends when nothing is thrown. -/
inductive Flow where
  | next
  | broke
  | returned (value : Value)
  deriving DecidableEq, Repr

/-- Labels are literals. -/
def SwitchCase.matches (value : Value) (arm : SwitchCase) : Bool :=
  arm.labels.any fun
    | .literal l => l.value? = some value
    | _ => false

/-- Whether a switch on a value starts at an arm: at a label that matches, else at the default. -/
def SwitchCase.startsAt (arms : List SwitchCase) (value : Value) (arm : SwitchCase) : Bool :=
  if arms.any (SwitchCase.matches value) then arm.matches value else arm.labels.isEmpty

mutual

def Stmt.exec (call : Calls) (env : Env) : Stmt → Exec Flow
  | .expr e => do
    let _ ← e.eval call env
    return .next
  | .block stmts => Stmt.execAll call env stmts
  | .ret none => return .returned .null
  | .ret (some e) => return .returned (← e.eval call env)
  | .throw e => do throw (.thrown (← e.eval call env))
  | .switch selector arms => do
    let value ← selector.eval call env
    let flow ← SwitchCase.execAll call env (SwitchCase.startsAt arms value) false arms
    return if flow = .broke then .next else flow
  | .breakOut => return .broke
  | .empty => return .next
  | _ => throw .stuck

def Stmt.execAll (call : Calls) (env : Env) : List Stmt → Exec Flow
  | [] => return .next
  | s :: rest => do
    match ← s.exec call env with
    | .next => Stmt.execAll call env rest
    | flow => return flow

/-- Arms run from where the switch starts and fall through until one of them ends it. -/
def SwitchCase.execAll (call : Calls) (env : Env) (starts : SwitchCase → Bool) (entered : Bool) :
    List SwitchCase → Exec Flow
  | [] => return .next
  | ⟨labels, body⟩ :: rest => do
    if entered || starts ⟨labels, body⟩ then
      match ← Stmt.execAll call env body with
      | .next => SwitchCase.execAll call env starts true rest
      | flow => return flow
    else SwitchCase.execAll call env starts false rest

end

/-- The arguments under the names of the parameters, if there are as many. -/
def Env.enter (self : Nat) (params : List Param) (args : List Value) : Exec Env :=
  if params.length = args.length then pure { self, locals := (params.map Param.name).zip args }
  else throw .stuck

def MethodDecl.invoke (call : Calls) (self : Nat) (m : MethodDecl) (args : List Value) :
    Exec Value := do
  let env ← Env.enter self m.params args
  let body ← Exec.ofOption m.body
  match ← Stmt.execAll call env body with
  | .returned value => return value
  | .next => return .null
  | .broke => throw .stuck

namespace TypeDecl

/-- The method that a call means, by name and number of arguments; of several the last. -/
def resolve? (t : TypeDecl) (name : String) (arity : Nat) : Option MethodDecl :=
  t.methods.reverse.find? fun m => m.name = name ∧ m.params.length = arity

/-- Calls on an object of the type, to a limited depth; calls on other objects are not followed. -/
def call (t : TypeDecl) (self : Nat) : Nat → Calls
  | 0 => fun _ _ _ => throw .stuck
  | depth + 1 => fun receiver name args =>
    if receiver = .object self then do
      let m ← Exec.ofOption (t.resolve? name args.length)
      m.invoke (t.call self depth) self args
    else throw .stuck

/-- Makes an object of the type and runs one of its constructors on it. -/
def construct (t : TypeDecl) (depth : Nat) (c : ConstructorDecl) (args : List Value) :
    Exec Nat := do
  let self ← Exec.create t.name
  let env ← Env.enter self c.params args
  let _ ← Stmt.execAll (t.call self depth) env c.body
  return self

end TypeDecl

end VersionWeave
