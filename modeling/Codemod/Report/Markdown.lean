import Codemod.Chain.Report

/-!
Reports as Markdown: the counts, a table of the steps and a list of the changed files.
-/
namespace Codemod

def escapeCellChar (c : Char) : List Char :=
  if c = '|' then ['\\', '|'] else if c = '\n' then [' '] else [c]

def escapeCell (s : String) : String := String.ofList (s.toList.flatMap escapeCellChar)

/-- A text in backticks. -/
def codeSpan (s : String) : String := "`" ++ s ++ "`"

def StepReport.row (number : Nat) (entry : StepReport) : String :=
  let target := match entry.target with
    | some path => codeSpan path.spelling
    | none => "-"
  "| " ++ toString number ++ " | " ++ codeSpan entry.step ++ " | " ++ entry.outcome.label
    ++ " | " ++ target ++ " | " ++ escapeCell entry.message ++ " |\n"

/-- The rows of steps, numbered from a number on. -/
def StepReport.rows : Nat → List StepReport → String
  | _, [] => ""
  | number, entry :: rest => entry.row number ++ rows (number + 1) rest

/-- The first twelve bytes of a digest, all of it where there is no boundary there. -/
def shortDigest (digest : String) : String := Text.before digest 12

def FileChange.item (change : FileChange) : String :=
  "- " ++ codeSpan change.path.spelling ++ " " ++ shortDigest change.digestBefore ++ " → "
    ++ shortDigest change.digestAfter ++ " (" ++ toString change.edits ++ " edit"
    ++ (if change.edits = 1 then "" else "s") ++ ")\n"

def Summary.items (summary : Summary) : String :=
  "- Steps: " ++ toString summary.total ++ "\n- Applied: " ++ toString summary.applied
    ++ "\n- Skipped: " ++ toString summary.skipped ++ "\n- Warned: " ++ toString summary.warned
    ++ "\n- Failed: " ++ toString summary.failed ++ "\n"

namespace Report

def markdownHead (report : Report) : String :=
  let aborted := match report.abortedBy with
    | some step => "- Aborted by: " ++ codeSpan step ++ "\n"
    | none => ""
  "# graft setup\n\n" ++ report.summary.items ++ aborted ++ "\n"

def markdownTable (report : Report) : String :=
  "| # | Step | Outcome | Target | Message |\n|---|------|---------|--------|---------|\n"
    ++ StepReport.rows 1 report.steps

def markdownFiles (report : Report) : String :=
  if report.files.isEmpty then ""
  else "\n## Files changed\n\n" ++ String.join (report.files.map FileChange.item)

/-- A report as Markdown. Without steps there is neither a table nor a list of files. -/
def markdown (report : Report) : String :=
  report.markdownHead ++ "## Steps\n\n"
    ++ (if report.steps.isEmpty then "_No steps ran._\n"
        else report.markdownTable ++ report.markdownFiles)

end Report

end Codemod
