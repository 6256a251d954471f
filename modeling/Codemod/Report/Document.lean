import Codemod.Chain.Codec
import Codemod.Json.Printer

/-!
Reports as JSON documents.
-/
namespace Codemod

def Report.document (report : Report) : String := report.toJson.pretty "  " ++ "\n"

end Codemod
