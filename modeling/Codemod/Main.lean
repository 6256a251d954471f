import Codemod.CommandLine.Demand
import Codemod.Grammar.Program
import Std.Time.DateTime.Timestamp

/-!
The program: looks at the files that a command line asks about, answers it and carries out what the
answer does.
-/
namespace Codemod

/-- What a path of the real file system leads to. -/
def lookAt (path : Path) : IO Entry := do
  match ← (IO.FS.Handle.mk path.spelling .read).toBaseIO with
  | .error (.permissionDenied ..) => return .file none
  | .error _ => return .missing
  | .ok handle =>
    match ← handle.readBinToEnd.toBaseIO with
    | .ok bytes => return .file (String.fromUTF8? bytes)
    | .error _ => return .directory

def pictureOf (known : List (String × Entry)) : FileSystem := fun path =>
  (known.lookup path.spelling).getD .missing

/-- Looks at what a request asks about until it asks about nothing new. -/
def survey (request : Request) : Nat → List (String × Entry) → IO (List (String × Entry))
  | 0, known => return known
  | rounds + 1, known => do
    let asked := request.asks (pictureOf known) Language.readProgram
    match asked.find? fun path => (known.lookup path.spelling).isNone with
    | none => return known
    | some path => survey request rounds ((path.spelling, ← lookAt path) :: known)

/-- The number of files that are looked at before a request is answered. -/
def surveyRounds : Nat := 64

def Action.carryOut : Action → IO Unit
  | makeDirectory path => IO.FS.createDirAll path.spelling
  | writeFile path text => do
    if path.directory.spelling != "" then IO.FS.createDirAll path.directory.spelling
    IO.FS.writeFile path.spelling text

def freshId : IO Uuid := do
  return .ofRandom (← IO.getRandomBytes 16).toList

def now : IO Instant := do
  let time ← Std.Time.Timestamp.now
  let nanos := time.toNanosecondsSinceUnixEpoch.val
  return ⟨nanos / 1000000000, (nanos % 1000000000).toNat⟩

/-- Answers a command line and carries the answer out. -/
def program (words : List String) : IO UInt32 := do
  let env ← Request.variableNames.filterMapM fun name => do
    return (← IO.getEnv name).map fun value => (name, value)
  let lookup (name : String) : Option String := env.lookup name
  let started ← now
  let known ← match Request.ofWords lookup words with
    | .ok request => survey request surveyRounds []
    | .error _ => pure []
  let (verdict, actions) := CommandLine.run Action.noting (pictureOf known) Language.readProgram
    lookup ⟨← freshId, started, ← now⟩ words []
  verdict.log.forM fun line => IO.eprintln line
  try
    actions.forM Action.carryOut
    IO.print verdict.output
    return verdict.status.toUInt32
  catch error =>
    IO.eprintln error
    return 1

end Codemod

def main (words : List String) : IO UInt32 := Codemod.program words
