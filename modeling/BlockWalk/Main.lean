import BlockWalk.Command
import BlockWalk.Command.Invocation
import BlockWalk.Store.Route

/-!
# The program

Runs a command on the files of the machine, and writes what it reports.
-/

namespace BlockWalk.Machine

/-- Why a file of the machine was not read or written. -/
def fileError : IO.Error → FileError
  | .noFileOrDirectory .. => .missing
  | _ => .other

/-- Uses a file of the machine. -/
def attempt {α : Type} (act : IO α) : IO (Except FileError α) := do
  try
    return .ok (← act)
  catch ε =>
    return .error (fileError ε)

/-- The content of a file of the machine. -/
def readBytes (path : String) : IO Bytes := do
  return (← IO.FS.readBinFile path).data.toList

/-- Whether there is a file or folder on the machine. -/
def isOnDisk (path : String) : IO (Except FileError Bool) := do
  match ← attempt (IO.FS.realPath path) with
  | .ok _ => return .ok true
  | .error .missing => return .ok false
  | .error .other => return .error .other

/-- The files in a folder of the machine. -/
def diskFolder (path : String) : Folder IO where
  read name := attempt (readBytes (Route.join path name))
  isThere name := isOnDisk (Route.join path name)
  write name β := attempt (IO.FS.writeBinFile (Route.join path name) ⟨β.toArray⟩)
  rename name other := attempt (IO.FS.rename (Route.join path name) (Route.join path other))

/-- The files of the machine. -/
def disk : Files IO where
  read path := attempt (readBytes path)
  openFolder path := do
    match ← attempt (unless path.isEmpty do IO.FS.createDirAll path) with
    | .ok () => return .ok (diskFolder path)
    | .error ε => return .error ε

/-- How the program is called. -/
def usage : String :=
  "Usage: blockwalk [--config FILE] [--log-format json|pretty] COMMAND\n\n" ++
  "Commands:\n" ++
  "  select FILE [--store DIR]                  print the blocks that a document selects\n" ++
  "  import FILE [--store DIR] [--codec NAME]   put the nodes of a description into the store\n" ++
  "  cat CID [--store DIR]                      print a stored block as JSON\n"

/-- What is wrong with the arguments, in words. -/
def usageMessage : UsageError → String
  | .missing => "a required argument is missing"
  | .unknown => "unexpected argument"
  | .badValue => "invalid value for an argument"
  | .noValue => "an argument needs a value"
  | .conflict => "an argument is used more than once"
  | .extraValue => "an argument takes no value"
  | .help => usage

/-- Tells what is wrong with the arguments. -/
def refuse : UsageError → IO UInt32
  | .help => do
    IO.print usage
    return 0
  | ε => do
    IO.eprintln ("error: " ++ usageMessage ε ++ "\n\n" ++ usage)
    return 2

/-- Tells why a command failed. -/
def fail (chain : List String) : IO UInt32 := do
  match chain with
  | [] => pure ()
  | ε :: causes =>
    IO.eprintln ("Error: " ++ ε)
    unless causes.isEmpty do
      IO.eprintln "\nCaused by:"
      causes.forM fun cause => IO.eprintln ("    " ++ cause)
  return 1

/-- More pulls than any traversal takes. -/
def enoughPulls : Nat := 1000000000000000000

/-- Runs what the arguments ask for. -/
def run (i : Invocation) : IO UInt32 := do
  match i.rest with
  | [] => refuse .missing
  | name :: args =>
    match Command.Verb.ofText? name with
    | none => refuse (if name = "-h" ∨ name = "--help" then .help else .unknown)
    | some verb =>
      let env ← IO.getEnv Command.storeVariable
      match Command.ofArguments verb env args with
      | .error ε => refuse ε
      | .ok command =>
        match ← Config.loadIfGiven disk i.config with
        | .error chain => fail chain
        | .ok config =>
          match ← command.run disk config enoughPulls with
          | none => return 1
          | some report =>
            IO.print report.out
            match report.ending with
            | .ok code => return code.toUInt32
            | .error chain => fail chain

/-- Runs what the command line asks for. -/
def runLine (args : List String) : IO UInt32 :=
  match Invocation.ofArguments args with
  | .error ε => refuse ε
  | .ok i => run i

end BlockWalk.Machine

/-- The program. -/
def main (args : List String) : IO UInt32 := BlockWalk.Machine.runLine args
