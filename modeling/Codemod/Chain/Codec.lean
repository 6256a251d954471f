import Codemod.Chain.Report

/-!
The JSON form of reports.
-/
namespace Codemod

open Json

namespace Uuid

def toJson (id : Uuid) : Json := .string id.toText

def ofJson? (j : Json) : Option Uuid := j.string?.bind ofText?

end Uuid

namespace Instant

def toJson (instant : Instant) : Json := .string instant.toText

def ofJson? (j : Json) : Option Instant := j.string?.bind ofText?

end Instant

namespace StepReport

def toJson (entry : StepReport) : Json :=
  objectOf [("step", some (.string entry.step)), ("target", entry.target.map Path.toJson),
    ("outcome", some entry.outcome.toJson), ("message", some (.string entry.message))]

def ofJson? (j : Json) : Option StepReport := do
  let fields ← record? ["step", "target", "outcome", "message"] j
  return ⟨← field? fields "step" string?, ← optField? fields "target" Path.ofJson?,
    ← field? fields "outcome" StepOutcome.ofJson?, ← field? fields "message" string?⟩

end StepReport

namespace ToolInfo

def toJson (tool : ToolInfo) : Json :=
  objectOf [("name", some (.string tool.name)), ("version", tool.version.map .string)]

def ofJson? (j : Json) : Option ToolInfo := do
  let fields ← record? ["name", "version"] j
  return ⟨← field? fields "name" string?, ← optField? fields "version" string?⟩

end ToolInfo

namespace Summary

def toJson (summary : Summary) : Json :=
  .object [("steps_total", .ofNat summary.total), ("applied", .ofNat summary.applied),
    ("skipped", .ofNat summary.skipped), ("warned", .ofNat summary.warned),
    ("failed", .ofNat summary.failed)]

def ofJson? (j : Json) : Option Summary := do
  let fields ← record? ["steps_total", "applied", "skipped", "warned", "failed"] j
  return ⟨← field? fields "steps_total" nat?, ← field? fields "applied" nat?,
    ← field? fields "skipped" nat?, ← field? fields "warned" nat?,
    ← field? fields "failed" nat?⟩

end Summary

namespace Report

def toJson (report : Report) : Json :=
  let files :=
    if report.files.isEmpty then none else some (.array (report.files.map FileChange.toJson))
  objectOf [
    ("schema", some (.string report.schema)),
    ("tool", report.tool.map ToolInfo.toJson),
    ("run_id", some report.runId.toJson),
    ("started_at", some report.startedAt.toJson),
    ("ended_at", report.endedAt.map Instant.toJson),
    ("steps", some (.array (report.steps.map StepReport.toJson))),
    ("aborted_by", report.abortedBy.map .string),
    ("files", files),
    ("summary", some report.summary.toJson)]

def ofJson? (j : Json) : Option Report := do
  let fields ← record?
    ["schema", "tool", "run_id", "started_at", "ended_at", "steps", "aborted_by", "files",
      "summary"] j
  return {
    schema := ← field? fields "schema" string?
    tool := ← optField? fields "tool" ToolInfo.ofJson?
    runId := ← field? fields "run_id" Uuid.ofJson?
    startedAt := ← field? fields "started_at" Instant.ofJson?
    endedAt := ← optField? fields "ended_at" Instant.ofJson?
    steps := ← fieldOr? fields "steps" [] (list? StepReport.ofJson?)
    abortedBy := ← optField? fields "aborted_by" string?
    files := ← fieldOr? fields "files" [] (list? FileChange.ofJson?)
    summary := ← fieldOr? fields "summary" .empty Summary.ofJson? }

end Report

end Codemod
