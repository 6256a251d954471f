import Codemod.CommandLine.Run

/-!
What a request looks at and what it does.

A request is answered from a picture of the file system. `Request.asks` lists the paths that it
looks up in one, so that a picture can be completed until it holds them all. The writes of an answer
are noted as actions to be carried out in order.
-/
namespace Codemod

def ChangeSpec.asks : ChangeSpec → List Path
  | fixed _ => []
  | importFrom _ file => file.toList

def TargetFile.asks (project : Project) (tree : Tree) : TargetFile → List Path
  | file path => path.toList
  | rootModuleOf main =>
    match (tree.source project main).1 with
    | .ok source => [main, source.rootModule.getD main]
    | .error _ => [main]

namespace Recipe

/-- The files that a step looks up. -/
def stepAsks (project : Project) (tree : Tree) : RecipeStep → List Path
  | .declare step => step.manifest.toList
  | .patch step => step.target.asks project tree ++ step.change.asks

def asks (project : Project) : List RecipeStep → Tree → List Path
  | [], _ => []
  | step :: rest, tree =>
    stepAsks project tree step ++ asks project rest ((step.toStep project).run tree).2

end Recipe

def Request.asks (files : FileSystem) (reader : TreeReader) : Request → List Path
  | setup root overrides =>
    root.join ⟨configName⟩ ::
      match CommandLine.loadSettings files root overrides with
      | .error _ => []
      | .ok settings =>
        let steps := Recipe.firebase settings.project settings.firebase settings.versions
        (Recipe.asks ⟨files.view root, reader⟩ steps .empty).map root.join
  | _ => []

/-- Something to be done to a file system. -/
inductive Action where
  | makeDirectory (path : Path)
  | writeFile (path : Path) (text : String)

def Action.noting : Writer (List Action) where
  writeFile path text actions := (.ok (), actions ++ [writeFile path text])
  makeDirectory path actions := (.ok (), actions ++ [makeDirectory path])

end Codemod
