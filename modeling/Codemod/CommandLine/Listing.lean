import Codemod.CommandLine.Request
import Codemod.Json.Printer
import Codemod.Setup.Recipe

/-!
The list of the steps of a setup.
-/
namespace Codemod

def listedSteps : List RecipeStep := Recipe.firebase .usual .blank .latest

def padRight (width : Nat) (s : String) : String :=
  String.ofList (s.toList ++ List.replicate (width - s.toList.length) ' ')

def listingLine (number step policy : String) : String :=
  "  " ++ padRight 3 number ++ " " ++ padRight 24 step ++ " " ++ policy ++ "\n"

def listingLines : Nat → List RecipeStep → String
  | _, [] => ""
  | number, step :: rest =>
    listingLine (toString number) step.name step.policy.label ++ listingLines (number + 1) rest

def ListingFormat.listing : ListingFormat → String
  | text => listingLine "#" "STEP" "POLICY" ++ listingLines 1 listedSteps
  | json =>
    let item (step : RecipeStep) : Json :=
      .object [("step", .string step.name), ("policy", step.policy.toJson)]
    (Json.array (listedSteps.map item)).pretty "  " ++ "\n"

end Codemod
