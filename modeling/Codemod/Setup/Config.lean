import Codemod.Setup.Settings
import Codemod.Toml.Decode
import Codemod.Toml.Reader

/-!
The configuration file, and how its values meet those of the command line.

A value of the command line comes before one of the file, and that before the usual one. Every value
of the application except its identifier has to come from one of the two.
-/
namespace Codemod

open Toml (optField? fieldOr? record?)

/-- The configuration file, next to the project's other files. -/
def configName : String := "graft.toml"

structure FirebaseChoice where
  apiKey : Option String
  authDomain : Option String
  databaseUrl : Option String
  projectId : Option String
  storageBucket : Option String
  messagingSenderId : Option String
  appId : Option String
  deriving DecidableEq

namespace FirebaseChoice

def blank : FirebaseChoice := ⟨none, none, none, none, none, none, none⟩

/-- One choice, and another where it leaves something open. -/
def orElse (first second : FirebaseChoice) : FirebaseChoice where
  apiKey := first.apiKey.or second.apiKey
  authDomain := first.authDomain.or second.authDomain
  databaseUrl := first.databaseUrl.or second.databaseUrl
  projectId := first.projectId.or second.projectId
  storageBucket := first.storageBucket.or second.storageBucket
  messagingSenderId := first.messagingSenderId.or second.messagingSenderId
  appId := first.appId.or second.appId

end FirebaseChoice

structure Config where
  main : Option Path
  environment : Option Path
  manifest : Option Path
  firebase : FirebaseChoice
  firebaseVersion : Option String
  angularFireVersion : Option String
  dryRun : Bool
  reportDir : Option Path

namespace Config

def path? (value : Toml) : Option Path := value.string?.map Path.mk

def section? (members : Toml.Members) (name : String) (fields : List String) :
    Option Toml.Members :=
  fieldOr? members name [] (record? fields)

def firebaseOf? (section_ : Toml.Members) : Option FirebaseChoice := do
  return {
    apiKey := ← optField? section_ "apiKey" Toml.string?
    authDomain := ← optField? section_ "authDomain" Toml.string?
    databaseUrl := ← optField? section_ "databaseURL" Toml.string?
    projectId := ← optField? section_ "projectId" Toml.string?
    storageBucket := ← optField? section_ "storageBucket" Toml.string?
    messagingSenderId := ← optField? section_ "messagingSenderId" Toml.string?
    appId := ← optField? section_ "appId" Toml.string? }

def ofMembers? (members : Toml.Members) : Option Config := do
  let project ← section? members "project" ["main", "environment", "package_json"]
  let firebase ← section? members "firebase"
    ["apiKey", "authDomain", "databaseURL", "projectId", "storageBucket", "messagingSenderId",
      "appId"]
  let versions ← section? members "versions" ["firebase", "angular_fire"]
  let output ← section? members "output" ["dry_run", "report_dir"]
  return {
    main := ← optField? project "main" path?
    environment := ← optField? project "environment" path?
    manifest := ← optField? project "package_json" path?
    firebase := ← firebaseOf? firebase
    firebaseVersion := ← optField? versions "firebase" Toml.string?
    angularFireVersion := ← optField? versions "angular_fire" Toml.string?
    dryRun := ← fieldOr? output "dry_run" false Toml.boolean?
    reportDir := ← optField? output "report_dir" path? }

def read? (text : String) : Option Config := (Toml.read? text).bind ofMembers?

def empty : Config := ⟨none, none, none, .blank, none, none, false, none⟩

end Config

structure Overrides where
  main : Option Path
  environment : Option Path
  noEnvironment : Bool
  manifest : Option Path
  noManifest : Bool
  firebase : FirebaseChoice
  firebaseVersion : Option String
  angularFireVersion : Option String
  dryRun : Bool
  reportDir : Option Path

inductive ConfigError where
  /-- The file is no configuration. -/
  | notToml
  /-- A value of the application is given nowhere; the flag is the one that would give it. -/
  | missing (key flag : String)

def ConfigError.message : ConfigError → String
  | notToml => "invalid TOML"
  | missing key flag =>
    "missing Firebase option `" ++ key ++ "`: pass " ++ flag ++ " or set firebase." ++ key
      ++ " in " ++ configName

def required (key flag : String) : Option String → Except ConfigError String
  | some value => .ok value
  | none => .error (.missing key flag)

/-- The application's values, if all that are needed are given. -/
def FirebaseChoice.options (choice : FirebaseChoice) : Except ConfigError FirebaseOptions := do
  return {
    apiKey := ← required "apiKey" "--api-key" choice.apiKey
    authDomain := ← required "authDomain" "--auth-domain" choice.authDomain
    databaseUrl := ← required "databaseURL" "--database-url" choice.databaseUrl
    projectId := ← required "projectId" "--project-id" choice.projectId
    storageBucket := ← required "storageBucket" "--storage-bucket" choice.storageBucket
    messagingSenderId :=
      ← required "messagingSenderId" "--messaging-sender-id" choice.messagingSenderId
    appId := choice.appId }

namespace Config

/-- The project's files by the command line and a configuration file. -/
def projectFiles (config : Config) (cli : Overrides) : ProjectFiles :=
  let usual := ProjectFiles.usual
  { main := (cli.main.or config.main).getD usual.main
    environment :=
      if cli.noEnvironment then none
      else (cli.environment.or config.environment).or usual.environment
    manifest :=
      if cli.noManifest then none else (cli.manifest.or config.manifest).or usual.manifest }

def settings (config : Config) (root : Path) (cli : Overrides) :
    Except ConfigError SetupSettings := do
  let firebase ← (cli.firebase.orElse config.firebase).options
  return {
    projectRoot := root
    project := config.projectFiles cli
    firebase := firebase
    versions := {
      firebase := (cli.firebaseVersion.or config.firebaseVersion).getD
        PackageVersions.latest.firebase
      angularFire := (cli.angularFireVersion.or config.angularFireVersion).getD
        PackageVersions.latest.angularFire }
    dryRun := cli.dryRun || config.dryRun
    reportDir := cli.reportDir.or config.reportDir }

end Config

end Codemod
