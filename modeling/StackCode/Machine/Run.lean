import StackCode.Machine.Basic

/-!
# Runs

A configuration is the active body and the bodies that wait for it to return. `Configuration.step` makes
one step; `Progress.run` repeats it, and gives nothing where the steps allowed do not suffice.

Memory is taken to suffice. A body begins whatever number of locals it declares, and a call is refused
only for the calls that are active already.
-/

namespace StackCode

structure Configuration where
  machine : Machine
  active : Activation
  /-- The activations that called the active one, nearest first. -/
  callers : List Activation

inductive Outcome where
  | completed (completion : Completion)
  | failed (e : ExecutionError)
  /-- A push went above the limit of its stack; the machine is of no use afterwards. -/
  | overflowed (slots limit : Nat)
deriving DecidableEq

inductive Progress where
  | running (c : Configuration)
  | stopped (m : Machine) (outcome : Outcome)

inductive Entered where
  | finished (value : Option Value)
  | started (a : Activation)

def Machine.enter (m : Machine) (d : MethodDefinition) (arguments : List Value) :
    Except ExecutionError Entered :=
  if m.options.maxDepth ≤ m.depth then .error (.callDepthExceeded m.options.maxDepth)
  else
    match d.body with
    | .native run =>
      match run arguments with
      | .ok v => .ok (.finished v)
      | .error e => .error e
    | .code code => .ok (.started (.start code (some d.method) (argumentSlots arguments)))

def callCount (activations : List Activation) : Nat :=
  activations.countP fun a => a.method.isSome

namespace Configuration

variable (c : Configuration)

/-- Ends the run. An error leaves every active call. -/
def stop : Fault → Progress
  | .error e =>
    .stopped { c.machine with depth := c.machine.depth - callCount (c.active :: c.callers) } (.failed e)
  | .overflow slots limit => .stopped c.machine (.overflowed slots limit)

def goTo (pc : Nat) (stack : Stack) : Progress :=
  .running { c with active := { c.active with pc := pc, stack := stack } }

/-- Goes on after the active instruction, with one more value on the stack if there is one. -/
def resume (stack : Stack) : Option Value → Progress
  | none => c.goTo (c.active.pc + 1) stack
  | some v =>
    match stack.push v with
    | .ok stack => c.goTo (c.active.pc + 1) stack
    | .error f => c.stop f

def finish (completion : Completion) : Progress :=
  let m := { c.machine with depth := c.machine.depth - callCount [c.active] }
  match c.callers with
  | [] => .stopped m (.completed completion)
  | a :: rest => (Configuration.mk m a rest).resume a.stack completion.value?

def act : Action → Progress
  | .proceed stack => c.goTo (c.active.pc + 1) stack
  | .pushLiteral stack text =>
    let (o, m) := c.machine.literal text
    { c with machine := m }.resume stack (some (.object o))
  | .pushInstance stack ofClass =>
    let (o, m) := c.machine.allocate (.instance ofClass)
    { c with machine := m }.resume stack (some (.object o))
  | .jump stack target =>
    match c.active.code.position? target with
    | some pc => c.goTo pc stack
    | none => c.stop (.error (.unresolvedLabel c.active.pc target))
  | .call stack callee arguments =>
    match c.machine.enter callee arguments with
    | .error e => c.stop (.error e)
    | .ok (.finished v) => c.resume stack v
    | .ok (.started a) =>
      .running ⟨{ c.machine with depth := c.machine.depth + 1 }, a,
        { c.active with stack := stack } :: c.callers⟩
  | .leave v => c.finish (.returned v)

/-- One step: an instruction, or the end of the active body. A method called must not end without a
return. -/
def step : Progress :=
  match c.active.code.instructions[c.active.pc]? with
  | some i =>
    match c.machine.perform c.active i with
    | .ok action => c.act action
    | .error f => c.stop f
  | none =>
    match c.active.method with
    | some m => c.stop (.error (.fellOffEnd (toString m)))
    | none => c.finish (.fellThrough c.active.stack.contents)

end Configuration

def Progress.run : Nat → Progress → Option (Machine × Outcome)
  | _, .stopped m outcome => some (m, outcome)
  | 0, .running _ => none
  | fuel + 1, .running c => c.step.run fuel

namespace Machine

variable (m : Machine)

def call (d : MethodDefinition) (arguments : List Value) : Progress :=
  match m.enter d arguments with
  | .error e => .stopped m (.failed e)
  | .ok (.finished v) => .stopped m (.completed (.returned v))
  | .ok (.started a) => .running ⟨{ m with depth := m.depth + 1 }, a, []⟩

def execute (code : Code) (locals : List Value) : Progress :=
  .running ⟨m, .start code none locals, []⟩

def invokeStatic (ref : MethodRef) (arguments : List Value) : Progress :=
  match m.staticMethod ref with
  | .error e => .stopped m (.failed e)
  | .ok d => m.call d arguments

/-- Allocates an instance and begins its initializer without parameters. Gives the instance, if the
class and the initializer exist; it is the result if the run completes. -/
def newInstance (className : String) : Except ExecutionError (Object × Progress) :=
  match m.loader.class? className with
  | none => .error (.noSuchClass className)
  | some c =>
    match c.declaredMethod? .nullaryInit with
    | none => .error (.noSuchMethod ⟨className, .nullaryInit⟩)
    | some d =>
      let (o, m) := m.allocate (.instance c.identity)
      .ok (o, m.call d [.object o])

end Machine

end StackCode
