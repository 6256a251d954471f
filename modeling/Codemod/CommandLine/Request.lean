import Codemod.CommandLine.Options
import Codemod.Setup.Config

/-!
What a command line asks for.
-/
namespace Codemod

inductive ListingFormat where
  | text
  | json
  deriving DecidableEq, Repr

/-- What a command line asks for. -/
inductive Request where
  | setup (root : Path) (overrides : Overrides)
  | steps (format : ListingFormat)
  | version
  | help

namespace Request

def setupOptions : OptionNames where
  valued := ["project-root", "main", "environment", "package-json", "api-key", "auth-domain",
    "database-url", "project-id", "storage-bucket", "messaging-sender-id", "app-id",
    "firebase-version", "angular-fire-version", "report-dir"]
  switches := ["no-environment", "no-package-json", "dry-run"]

def stepsOptions : OptionNames := ⟨["format"], []⟩

def variableNames : List String :=
  ["GRAFT_FIREBASE_API_KEY", "GRAFT_FIREBASE_AUTH_DOMAIN", "GRAFT_FIREBASE_DATABASE_URL",
    "GRAFT_FIREBASE_PROJECT_ID", "GRAFT_FIREBASE_STORAGE_BUCKET",
    "GRAFT_FIREBASE_MESSAGING_SENDER_ID", "GRAFT_FIREBASE_APP_ID"]

/-- The value of an option, or that of an environment variable where the option is not given. -/
def valueOr (env : String → Option String) (options : GivenOptions)
    (name variable_ : String) : Option String :=
  (options.value? name).or (env variable_)

/-- The application's values. Each can come from an environment variable. -/
def firebaseChoice (env : String → Option String) (options : GivenOptions) :
    FirebaseChoice :=
  let value := valueOr env options
  { apiKey := value "api-key" "GRAFT_FIREBASE_API_KEY"
    authDomain := value "auth-domain" "GRAFT_FIREBASE_AUTH_DOMAIN"
    databaseUrl := value "database-url" "GRAFT_FIREBASE_DATABASE_URL"
    projectId := value "project-id" "GRAFT_FIREBASE_PROJECT_ID"
    storageBucket := value "storage-bucket" "GRAFT_FIREBASE_STORAGE_BUCKET"
    messagingSenderId := value "messaging-sender-id" "GRAFT_FIREBASE_MESSAGING_SENDER_ID"
    appId := value "app-id" "GRAFT_FIREBASE_APP_ID" }

def overrides (env : String → Option String) (options : GivenOptions) : Overrides :=
  let path (name : String) : Option Path := (options.value? name).map Path.mk
  { main := path "main"
    environment := path "environment"
    noEnvironment := options.isGiven "no-environment"
    manifest := path "package-json"
    noManifest := options.isGiven "no-package-json"
    firebase := firebaseChoice env options
    firebaseVersion := options.value? "firebase-version"
    angularFireVersion := options.value? "angular-fire-version"
    dryRun := options.isGiven "dry-run"
    reportDir := path "report-dir" }

def conflict? (options : GivenOptions) : Option UsageError :=
  if options.isGiven "environment" && options.isGiven "no-environment" then
    some (.conflict "environment" "no-environment")
  else if options.isGiven "package-json" && options.isGiven "no-package-json" then
    some (.conflict "package-json" "no-package-json")
  else none

def ofSetupOptions (env : String → Option String) (words : List String) :
    Except UsageError Request :=
  match OptionsResult.read setupOptions none words [] with
  | .help => .ok help
  | .refused error => .error error
  | .given options =>
    match conflict? options with
    | some error => .error error
    | none =>
      .ok (setup ⟨(options.value? "project-root").getD "."⟩ (overrides env options))

def ofStepsOptions (words : List String) : Except UsageError Request :=
  match OptionsResult.read stepsOptions none words [] with
  | .help => .ok help
  | .refused error => .error error
  | .given options =>
    match options.value? "format" with
    | none | some "text" => .ok (steps .text)
    | some "json" => .ok (steps .json)
    | some value => .error (.invalidValue "format" value)

/-- What is asked about by `help`. -/
def ofHelpWords : List String → Except UsageError Request
  | [] | ["setup"] | ["steps"] | ["help"] => .ok help
  | word :: _ => .error (.unknownCommand word)

def ofWords (env : String → Option String) : List String → Except UsageError Request
  | [] => .error .noCommand
  | "setup" :: rest => ofSetupOptions env rest
  | "steps" :: rest => ofStepsOptions rest
  | "help" :: rest => ofHelpWords rest
  | word :: _ =>
    match Word.ofText word with
    | .long "version" none => .ok version
    | .long "help" none => .ok help
    | .short ('V' :: _) => .ok version
    | .short ('h' :: _) => .ok help
    | .plain text => .error (.unknownCommand text)
    | .terminator => .error .noCommand
    | _ => .error (.unexpectedArgument word)

end Request

end Codemod
