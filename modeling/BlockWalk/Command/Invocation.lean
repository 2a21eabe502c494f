import BlockWalk.Command.Arguments

/-!
# Invocations

A whole command line: the name of a command and its arguments, and among them, up to `--`, the
options that every command takes, which say where the settings are and how the log looks.
-/

namespace BlockWalk

/-- What the program was called for. -/
structure Invocation where
  /-- the file of the settings -/
  config : Option String
  /-- how the log looks -/
  logFormat : Option LogFormat
  /-- the other arguments, first to last -/
  rest : List String
  deriving DecidableEq, Repr

namespace Invocation

/-- Sets the file of the settings. -/
def setConfig (path : String) (i : Invocation) : Except UsageError Invocation :=
  if i.config.isSome then .error .conflict
  else if path.isEmpty then .error .noValue
  else .ok { i with config := some path }

/-- Sets how the log looks. -/
def setLogFormat (name : String) (i : Invocation) : Except UsageError Invocation :=
  if i.logFormat.isSome then .error .conflict
  else match LogFormat.ofText name with
    | .ok f => .ok { i with logFormat := some f }
    | .error _ => .error .badValue

/-- What an option sets, if every command takes it. -/
def setting? (name : String) : Option (String → Invocation → Except UsageError Invocation) :=
  if name = "--config" then some setConfig
  else if name = "--log-format" then some setLogFormat
  else none

/-- Takes the options that every command takes out of the arguments. -/
def ofArguments : List String → Except UsageError Invocation
  | [] => .ok ⟨none, none, []⟩
  | "--" :: args => .ok ⟨none, none, "--" :: args⟩
  | arg :: args =>
    let name := String.ofList (arg.toList.takeWhile (· ≠ '='))
    match setting? name with
    | none => do
      let i ← ofArguments args
      return { i with rest := arg :: i.rest }
    | some set =>
      match arg.toList.dropWhile (· ≠ '='), args with
      | _ :: value, args => do set (String.ofList value) (← ofArguments args)
      | [], [] => .error .noValue
      | [], value :: args => do set value (← ofArguments args)
termination_by args => args.length

end Invocation

end BlockWalk
