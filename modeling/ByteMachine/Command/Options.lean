import ByteMachine.Text.Numeral
import ByteMachine.Machine.ValueStack

/-!
The arguments of a command. An option begins with two dashes and is given at most once; its value
follows an equals sign or is the next argument. Two dashes alone end the options.
-/
namespace ByteMachine.Command

structure OptionForm where
  name : String
  /-- Which values it takes; a switch takes none. -/
  accepts : Option (String → Bool)

structure Form where
  options : List OptionForm
  /-- The number of arguments that are no options. -/
  positionals : Nat

/-- Why there is nothing to run. -/
inductive Refusal where
  | help
  | usage
  deriving DecidableEq, Repr

structure Arguments where
  /-- The options given and their values; that of a switch is empty. -/
  options : List (String × String) := []
  positionals : List String := []
  deriving DecidableEq, Repr

namespace Arguments

def addPositional (form : Form) (a : Arguments) (value : String) : Except Refusal Arguments :=
  if value.isEmpty || form.positionals ≤ a.positionals.length then .error .usage
  else .ok { a with positionals := a.positionals ++ [value] }

def addOption (a : Arguments) (o : OptionForm) (value : Option String) : Except Refusal Arguments :=
  let added : Arguments := { a with options := (o.name, value.getD "") :: a.options }
  if (a.options.lookup o.name).isSome then .error .usage
  else
    match o.accepts, value with
    | none, none => .ok added
    | some accepts, some value => if accepts value then .ok added else .error .usage
    | _, _ => .error .usage

end Arguments

/-- The name of an option and the value behind an equals sign, if there is one. -/
def splitOption (cs : List Char) : String × Option String :=
  let name := String.ofList (cs.takeWhile (· != '='))
  match cs.dropWhile (· != '=') with
  | [] => (name, none)
  | _ :: value => (name, some (String.ofList value))

/-- Whether an argument cannot be the value of the option before it. -/
def isDashed (arg : String) : Bool :=
  match arg.toList with
  | '-' :: _ :: _ => true
  | _ => false

def readArguments (form : Form) (a : Arguments) : List String → Except Refusal Arguments
  | [] => .ok a
  | arg :: rest =>
    match arg.toList with
    | ['-', '-'] => rest.foldlM (Arguments.addPositional form) a
    | '-' :: '-' :: cs =>
      let (name, value) := splitOption cs
      match form.options.find? fun o => o.name = name with
      | none => .error (if arg = "--help" then .help else .usage)
      | some o =>
        if value.isNone && o.accepts.isSome then
          match rest with
          | next :: rest =>
            if isDashed next then .error .usage
            else do readArguments form (← a.addOption o (some next)) rest
          | [] => .error .usage
        else do readArguments form (← a.addOption o value) rest
    | '-' :: c :: _ => .error (if c = 'h' then .help else .usage)
    | _ => do readArguments form (← a.addPositional form arg) rest

def parseArguments (form : Form) (args : List String) : Except Refusal Arguments := do
  let a ← readArguments form {} args
  if a.positionals.length < form.positionals then throw .usage
  return a

def readCount (text : String) : Option Nat :=
  Numeral.readSigned 10 Numeral.wordLimit text.toList

def isCount (text : String) : Bool :=
  (readCount text).isSome

/-- How a module is to be run. -/
structure RunOptions where
  file : String
  start : Option String
  trace : Bool
  capacity : Nat
  stepLimit : Option Nat
  deriving DecidableEq, Repr

def runForm : Form :=
  { options :=
      [⟨"start", some fun _ => true⟩, ⟨"trace", none⟩, ⟨"stack-capacity", some isCount⟩,
       ⟨"max-steps", some isCount⟩]
    positionals := 1 }

def assembleForm : Form :=
  { options := [], positionals := 2 }

def RunOptions.ofArguments (file : String) (a : Arguments) : RunOptions :=
  { file
    start := a.options.lookup "start"
    trace := (a.options.lookup "trace").isSome
    capacity := ((a.options.lookup "stack-capacity").bind readCount).getD ValueStack.defaultCapacity
    stepLimit := (a.options.lookup "max-steps").bind readCount }

end ByteMachine.Command
