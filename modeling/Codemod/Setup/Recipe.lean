import Codemod.Chain.ManifestStep
import Codemod.Setup.Settings

/-!
The steps that make an application use Firebase.

A file that is missing never stops the setup; the steps that need it are left out. The last step is
left out as well while the root module has no `environment`, so that no undefined name is put there.
-/
namespace Codemod

inductive RecipeStep where
  | declare (step : ManifestStep)
  | patch (step : PatchStep)

namespace RecipeStep

def name : RecipeStep → String
  | declare step => step.name
  | patch step => step.name

def policy : RecipeStep → FailurePolicy
  | declare step => step.policy
  | patch step => step.policy

def toStep (project : Project) : RecipeStep → Step
  | declare step => step.toStep project
  | patch step => step.toStep project

end RecipeStep

namespace Recipe

def packageDependencies (project : ProjectFiles) (versions : PackageVersions) : ManifestStep where
  name := "package-dependencies"
  policy := .warn
  manifest := project.manifest
  dependencies := [⟨"firebase", versions.firebase⟩, ⟨"@angular/fire", versions.angularFire⟩]

def environmentConfig (project : ProjectFiles) (options : FirebaseOptions) : PatchStep where
  name := "environment-config"
  policy := .warn
  target := .file project.environment
  change := .fixed (.appendField (some "environment") "firebase" options.entries)
  requires := none

def importEnvironment (project : ProjectFiles) : PatchStep where
  name := "import-environment"
  policy := .abort
  target := .rootModuleOf project.main
  change := .importFrom "environment" project.environment
  requires := none

def importAngularFire (project : ProjectFiles) : PatchStep where
  name := "import-angular-fire"
  policy := .abort
  target := .rootModuleOf project.main
  change := .fixed (.insertImport "AngularFireModule" "@angular/fire")
  requires := none

def registerAngularFire (project : ProjectFiles) : PatchStep where
  name := "register-angular-fire"
  policy := .abort
  target := .rootModuleOf project.main
  change := .fixed (.register "NgModule" (some "imports")
    "AngularFireModule.initializeApp(environment.firebase)")
  requires := some "environment"

def firebase (project : ProjectFiles) (options : FirebaseOptions) (versions : PackageVersions) :
    List RecipeStep :=
  [.declare (packageDependencies project versions), .patch (environmentConfig project options),
    .patch (importEnvironment project), .patch (importAngularFire project),
    .patch (registerAngularFire project)]

end Recipe

end Codemod
