import ByteMachine.Machine.Processor
import ByteMachine.Stream.Sink

/-!
The host of a program: it owns the value stack and the output, starts processors at exported
symbols, serves the calls that they raise, and may limit the number of their steps.
-/
namespace ByteMachine

structure Host where
  /-- No processor completes more instructions than this. -/
  stepLimit : Option Nat
  stack : ValueStack
  output : Sink
  deriving DecidableEq

/-- Where and when a processor halted. -/
structure Outcome where
  pc : Address
  steps : Nat
  deriving DecidableEq

/-- Repeats a step until it yields a result, at most so many times. -/
def Action.untilSome {σ α : Type} (step : Action σ (Option α)) : Nat → Action σ (Option α)
  | 0 => return none
  | n + 1 => do
    match ← step with
    | some a => return some a
    | none => untilSome step n

namespace Host

def create (capacity : Nat) (stepLimit : Option Nat) (output : Sink) : Host :=
  ⟨stepLimit, .empty capacity, output⟩

/-- A computation on the value stack as one on the host. -/
def onStack {α : Type} (action : Action ValueStack α) : Action Host α := fun h =>
  match action h.stack with
  | .ok a stack => .ok a { h with stack }
  | .error e stack => .error e { h with stack }

def print (bytes : List UInt8) : Action Host Unit := fun h =>
  match Sink.write bytes h.output with
  | .ok () output => .ok () { h with output }
  | .error e output => .error e { h with output }

/-- Pops a byte and writes it. -/
def printByte : Action Host Unit := do
  print [← onStack ValueStack.popByte]

/-- Pops a text and writes it. -/
def printText : Action Host Unit := do
  print (Utf8.encode (← onStack ValueStack.popText))

/-- The services that a program can call by name. -/
def service (name : String) : Action Host Unit :=
  if name = "out_b" then printByte
  else if name = "out_s" then printText
  else throw (.unknownCall name)

def serve : Syscall → Action Host Unit
  | .halt => return ()
  | .out => printByte
  | .kernelCall => do service (← onStack ValueStack.popText)

/-- The code position named by a symbol; without a symbol, the beginning of the code. -/
def entry (m : Module) : Option String → Except Error Nat
  | none => .ok 0
  | some symbol => do
    match ← m.resolve symbol with
    | some position => .ok position
    | none => .error (.missingStart symbol)

/-- A processor at a symbol, with an empty value stack. -/
def start (m : Module) (symbol : Option String) : Action Host Processor := do
  let position ← Action.ofExcept (entry m symbol)
  modify fun h => { h with stack := h.stack.clear }
  Action.ofExcept (Processor.start m position)

/-- The limit that keeps a processor from another step. -/
def limitReached (h : Host) (p : Processor) : Option Nat :=
  h.stepLimit.filter (· ≤ p.steps)

/-- Executes one instruction and serves the call that it raises. A call that fails stops the
processor. -/
def step (m : Module) : Action (Processor × Host) (Option Outcome)
  | (p, h) =>
    match h.limitReached p with
    | some limit => .error (.stepLimit limit) (p, h)
    | none =>
      match Processor.step m (p, h.stack) with
      | .error e (p, stack) => .error e (p, { h with stack })
      | .ok none (p, stack) => .ok none (p, { h with stack })
      | .ok (some .halt) (p, stack) => .ok (some ⟨p.pc, p.steps⟩) (p, { h with stack })
      | .ok (some call) (p, stack) =>
        match serve call { h with stack } with
        | .ok () h => .ok none (p, h)
        | .error e h => .error e (p.fault e, h)

/-- A run is given up after so many steps: one more than its limit, or than a word counts to if it
has none. -/
def patience (h : Host) : Nat :=
  h.stepLimit.getD Numeral.wordLimit + 1

/-- Runs a module from a symbol until it halts; nothing if it is given up. -/
def run (m : Module) (symbol : Option String) : Action Host (Option Outcome) := fun h =>
  match start m symbol h with
  | .error e h => .error e h
  | .ok p h =>
    match (step m).untilSome h.patience (p, h) with
    | .ok outcome (_, h) => .ok outcome h
    | .error e (_, h) => .error e h

end Host

end ByteMachine
