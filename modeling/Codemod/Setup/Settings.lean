import Codemod.Change.Codec

/-!
What a setup is told: where the project has its files, what its application is configured with,
and which versions to ask for.
-/
namespace Codemod

open Json

/-- Where a project has its files, relative to its root. -/
structure ProjectFiles where
  main : Path
  environment : Option Path
  manifest : Option Path
  deriving DecidableEq

structure FirebaseOptions where
  apiKey : String
  authDomain : String
  databaseUrl : String
  projectId : String
  storageBucket : String
  messagingSenderId : String
  appId : Option String
  deriving DecidableEq

structure PackageVersions where
  firebase : String
  angularFire : String
  deriving DecidableEq

structure SetupSettings where
  projectRoot : Path
  project : ProjectFiles
  firebase : FirebaseOptions
  versions : PackageVersions
  /-- Source files are not written. -/
  dryRun : Bool
  /-- Where the report goes, if it is wanted. -/
  reportDir : Option Path

namespace ProjectFiles

def usual : ProjectFiles where
  main := ⟨"src/main.ts"⟩
  environment := some ⟨"src/environments/environment.ts"⟩
  manifest := some ⟨"package.json"⟩

def toJson (project : ProjectFiles) : Json :=
  objectOf [("main_entry", some project.main.toJson),
    ("environment", project.environment.map Path.toJson),
    ("package_json", project.manifest.map Path.toJson)]

def ofJson? (j : Json) : Option ProjectFiles := do
  let fields ← record? ["main_entry", "environment", "package_json"] j
  return ⟨← field? fields "main_entry" Path.ofJson?,
    ← optField? fields "environment" Path.ofJson?,
    ← optField? fields "package_json" Path.ofJson?⟩

end ProjectFiles

namespace FirebaseOptions

def blank : FirebaseOptions := ⟨"", "", "", "", "", "", none⟩

/-- The entries of the configuration, in the order in which they are written. -/
def entries (options : FirebaseOptions) : List ConfigEntry :=
  [⟨"apiKey", options.apiKey⟩, ⟨"authDomain", options.authDomain⟩,
    ⟨"databaseURL", options.databaseUrl⟩, ⟨"projectId", options.projectId⟩,
    ⟨"storageBucket", options.storageBucket⟩, ⟨"messagingSenderId", options.messagingSenderId⟩]
    ++ (options.appId.map fun id => ⟨"appId", id⟩).toList

def toJson (options : FirebaseOptions) : Json :=
  .object (options.entries.map fun entry => (entry.key, .string entry.value))

def ofJson? (j : Json) : Option FirebaseOptions := do
  let fields ← record?
    ["apiKey", "authDomain", "databaseURL", "projectId", "storageBucket", "messagingSenderId",
      "appId"] j
  return {
    apiKey := ← field? fields "apiKey" string?
    authDomain := ← field? fields "authDomain" string?
    databaseUrl := ← field? fields "databaseURL" string?
    projectId := ← field? fields "projectId" string?
    storageBucket := ← field? fields "storageBucket" string?
    messagingSenderId := ← field? fields "messagingSenderId" string?
    appId := ← optField? fields "appId" string? }

end FirebaseOptions

namespace PackageVersions

def latest : PackageVersions := ⟨"latest", "latest"⟩

def toJson (versions : PackageVersions) : Json :=
  .object [("firebase", .string versions.firebase),
    ("angular_fire", .string versions.angularFire)]

def ofJson? (j : Json) : Option PackageVersions := do
  let fields ← record? ["firebase", "angular_fire"] j
  return ⟨← fieldOr? fields "firebase" latest.firebase string?,
    ← fieldOr? fields "angular_fire" latest.angularFire string?⟩

end PackageVersions

def SetupSettings.usual : SetupSettings where
  projectRoot := ⟨"."⟩
  project := .usual
  firebase := .blank
  versions := .latest
  dryRun := false
  reportDir := none

end Codemod
