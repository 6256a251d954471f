import Codemod.CommandLine.FileSystem
import Codemod.CommandLine.Listing
import Codemod.Report.StatusLine

/-!
Doing what a command line asks for.

A setup reads its configuration and the project, writes the report if one is wanted, and then shows
the patch or writes the staged files. A run that was stopped writes no source file.
-/
namespace Codemod

/-- How a command ends: its exit status, what it prints, and what it tells on the way. -/
structure Verdict where
  status : Nat
  output : String
  log : List String

namespace CommandLine

def tool : ToolInfo := ⟨"graft", some "0.1.0"⟩

def versionText : String := "graft 0.1.0\n"

def helpText : String :=
  "Usage: graft <COMMAND>\n\nCommands:\n  setup  Wire Firebase into an Angular project\n"
    ++ "  steps  List the setup steps in execution order\n"

def failed (log : List String) (reason : String) : Verdict := ⟨1, "", log ++ [reason]⟩

/-- The configuration under a root, an empty one where there is no file. -/
def loadConfig (files : FileSystem) (root : Path) : Except String Config :=
  let path := root.join ⟨configName⟩
  match files path with
  | .missing => .ok .empty
  | .file (some text) =>
    match Config.read? text with
    | some config => .ok config
    | none => .error ("parse config file " ++ path.spelling)
  | _ => .error ("read config file " ++ path.spelling)

def loadSettings (files : FileSystem) (root : Path) (overrides : Overrides) :
    Except String SetupSettings :=
  match loadConfig files root with
  | .error reason => .error reason
  | .ok config =>
    match config.settings root overrides with
    | .ok settings => .ok settings
    | .error error => .error error.message

/-- Keeps the status lines of a run. -/
def logSink : Sink (List String) := fun log entry => log ++ [entry.statusLine]

def writeReport {σ : Type} (writer : Writer σ) (settings : SetupSettings)
    (outcome : SetupOutcome) (state : σ) : Except String Unit × σ :=
  match settings.reportDir with
  | none => (.ok (), state)
  | some dir => writer.writeArtifacts outcome (settings.projectRoot.join dir) state

/-- Writes the staged files of a setup that was not stopped and is no dry run. -/
def writeSources {σ : Type} (writer : Writer σ) (settings : SetupSettings)
    (outcome : SetupOutcome) (state : σ) : Except String Unit × σ :=
  if settings.dryRun || outcome.report.isFailure then (.ok (), state)
  else
    match writer.writeStaged outcome settings.projectRoot state with
    | (.ok _, state) => (.ok (), state)
    | (.error reason, state) => (.error reason, state)

/-- How a setup ends once all is written. -/
def conclude (settings : SetupSettings) (outcome : SetupOutcome) (log : List String) : Verdict :=
  let output := if settings.dryRun then outcome.patch else ""
  match outcome.check with
  | .ok () => ⟨0, output, log⟩
  | .error error => ⟨error.exitCode, output, log ++ [error.message]⟩

def runSetup {σ : Type} (writer : Writer σ) (files : FileSystem) (reader : TreeReader)
    (stamp : RunStamp) (settings : SetupSettings) (state : σ) : Verdict × σ :=
  let project : Project := ⟨files.view settings.projectRoot, reader⟩
  let (outcome, log) := SetupOutcome.ofRun logSink stamp tool project settings []
  match writeReport writer settings outcome state with
  | (.error reason, state) => (failed log reason, state)
  | (.ok (), state) =>
    match writeSources writer settings outcome state with
    | (.error reason, state) => (failed log reason, state)
    | (.ok (), state) => (conclude settings outcome log, state)

def answer {σ : Type} (writer : Writer σ) (files : FileSystem) (reader : TreeReader)
    (stamp : RunStamp) (request : Request) (state : σ) : Verdict × σ :=
  match request with
  | .version => (⟨0, versionText, []⟩, state)
  | .help => (⟨0, helpText, []⟩, state)
  | .steps format => (⟨0, format.listing, []⟩, state)
  | .setup root overrides =>
    match loadSettings files root overrides with
    | .error reason => (failed [] reason, state)
    | .ok settings => runSetup writer files reader stamp settings state

def run {σ : Type} (writer : Writer σ) (files : FileSystem) (reader : TreeReader)
    (env : String → Option String) (stamp : RunStamp) (words : List String) (state : σ) :
    Verdict × σ :=
  match Request.ofWords env words with
  | .error error => (⟨2, "", [error.message]⟩, state)
  | .ok request => answer writer files reader stamp request state

end CommandLine

end Codemod
