import Mathlib.Data.List.Forall2
import Codemod.Report.Markdown
import Codemod.Proofs.PatchReading

/-!
The table of a report, as a reader of Markdown takes it apart.

A reader cuts a text into lines, and a line of a table into cells at the bars that no backslash
escapes. Of the free texts of a row only the message is written with its bars escaped and its line
feeds replaced; step and target stand there as they are. What a row comes to is therefore the sum of
what its five texts come to, and the table is read back row by row exactly where none of them holds
a line end or a bar that a reader would split at.
-/
namespace Codemod

namespace Markdown

def consFirst (c : Char) : List (List Char) → List (List Char)
  | [] => [[c]]
  | cs :: rest => (c :: cs) :: rest

/-- The lines of a text, without their ends. A line ends at a line feed, at a carriage return, or
at a carriage return and the line feed after it. -/
def lines : (afterReturn : Bool) → List Char → List (List Char)
  | _, [] => []
  | afterReturn, c :: cs =>
    if c = '\r' then [] :: lines true cs
    else if c = '\n' then if afterReturn then lines false cs else [] :: lines false cs
    else consFirst c (lines false cs)

/-- Whether the character after `c` is escaped, where `escaped` says whether `c` is. -/
def escapes (escaped : Bool) (c : Char) : Bool := !escaped && c == '\\'

/-- The parts of a text between the bars that are not escaped. -/
def parts : (escaped : Bool) → List Char → List (List Char)
  | _, [] => [[]]
  | escaped, c :: cs =>
    if c = '|' ∧ escaped = false then [] :: parts false cs
    else consFirst c (parts (escapes escaped c) cs)

/-- The cells of a line that begins and ends with a bar. -/
def cells (line : List Char) : List (List Char) := ((parts false line).drop 1).dropLast

/-- For each bar of a text whether it is escaped. -/
def bars : (escaped : Bool) → List Char → List Bool
  | _, [] => []
  | escaped, c :: cs => (if c = '|' then [escaped] else []) ++ bars (escapes escaped c) cs

/-- A text without line ends. -/
def Unbroken (cs : List Char) : Prop := '\n' ∉ cs ∧ '\r' ∉ cs

/-- A text that stays one cell on one line. -/
def Fits (cs : List Char) : Prop := Unbroken cs ∧ false ∉ bars false cs

instance (cs : List Char) : Decidable (Unbroken cs) := inferInstanceAs (Decidable (_ ∧ _))

instance (cs : List Char) : Decidable (Fits cs) := inferInstanceAs (Decidable (_ ∧ _))

theorem consFirst_ne_nil (c : Char) (ls : List (List Char)) : consFirst c ls ≠ [] := by
  cases ls <;> simp [consFirst]

theorem consFirst_append (c : Char) {ls : List (List Char)} (h : ls ≠ []) (ms : List (List Char)) :
    consFirst c (ls ++ ms) = consFirst c ls ++ ms := by
  cases ls with
  | nil => exact absurd rfl h
  | cons l ls => rfl

theorem length_consFirst (c : Char) {ls : List (List Char)} (h : ls ≠ []) :
    (consFirst c ls).length = ls.length := by
  cases ls with
  | nil => exact absurd rfl h
  | cons l ls => rfl

theorem lines_ne_nil {cs : List Char} {c : Char} (hmem : c ∈ cs) (hc : c ≠ '\n') :
    ∀ afterReturn, lines afterReturn cs ≠ [] := by
  induction cs with
  | nil => cases hmem
  | cons d cs ih =>
    intro afterReturn
    rw [lines]
    split
    · exact List.cons_ne_nil _ _
    · split
      · rename_i hd
        have hrest : c ∈ cs := (List.mem_cons.1 hmem).resolve_left (fun h => hc (h.trans hd))
        split
        · exact ih hrest false
        · exact List.cons_ne_nil _ _
      · exact consFirst_ne_nil _ _

theorem unbroken_cons {c : Char} {cs : List Char} :
    Unbroken (c :: cs) ↔ (c ≠ '\n' ∧ c ≠ '\r') ∧ Unbroken cs := by
  simp only [Unbroken, List.mem_cons, not_or, ne_comm (a := c)]
  tauto

theorem lines_of_unbroken {cs : List Char} (h : Unbroken cs) (rest : List Char) :
    lines false (cs ++ '\n' :: rest) = cs :: lines false rest := by
  induction cs with
  | nil => simp [lines]
  | cons c cs ih =>
    obtain ⟨⟨hfeed, hreturn⟩, hcs⟩ := unbroken_cons.1 h
    rw [List.cons_append, lines, if_neg hreturn, if_neg hfeed, ih hcs]
    rfl

/-- A line end inside a text that ends with a bar makes two lines of it at least. -/
theorem lines_of_broken {cs : List Char} (h : ¬ Unbroken cs) (rest : List Char) :
    (lines false rest).length + 2 ≤ (lines false (cs ++ '|' :: '\n' :: rest)).length := by
  -- after the first line end there is still the bar, and the line it is on ends before the rest
  have htail : ∀ (cs : List Char) (afterReturn : Bool),
      (lines false rest).length + 1 ≤ (lines afterReturn (cs ++ '|' :: '\n' :: rest)).length := by
    intro cs
    induction cs with
    | nil => intro afterReturn; simp [lines, consFirst]
    | cons c cs ih =>
      intro afterReturn
      have hne : lines false (cs ++ '|' :: '\n' :: rest) ≠ [] :=
        lines_ne_nil (c := '|') (by simp) (by decide) false
      rw [List.cons_append, lines]
      split
      · exact Nat.le_succ_of_le (ih true)
      · split
        · split
          · exact ih false
          · exact Nat.le_succ_of_le (ih false)
        · rw [length_consFirst c hne]
          exact ih false
  induction cs with
  | nil => exact absurd ⟨List.not_mem_nil, List.not_mem_nil⟩ h
  | cons c cs ih =>
    rw [List.cons_append, lines]
    split
    · exact Nat.succ_le_succ (htail cs true)
    · rename_i hreturn
      split
      · exact Nat.succ_le_succ (htail cs false)
      · rename_i hfeed
        rw [length_consFirst c (lines_ne_nil (c := '|') (by simp) (by decide) false)]
        exact ih fun hcs => h (unbroken_cons.2 ⟨⟨hfeed, hreturn⟩, hcs⟩)

theorem parts_ne_nil (escaped : Bool) (cs : List Char) : parts escaped cs ≠ [] := by
  cases cs with
  | nil => exact List.cons_ne_nil _ _
  | cons c cs =>
    rw [parts]
    split
    · exact List.cons_ne_nil _ _
    · exact consFirst_ne_nil _ _

theorem length_parts (cs : List Char) : ∀ escaped,
    (parts escaped cs).length = (bars escaped cs).count false + 1 := by
  induction cs with
  | nil => intro escaped; rfl
  | cons c cs ih =>
    intro escaped
    rw [parts, bars]
    by_cases hbar : c = '|'
    · subst hbar
      cases escaped with
      | false => simp [escapes, ih]
      | true => simp [escapes, length_consFirst _ (parts_ne_nil _ _), ih]
    · simp [hbar, length_consFirst _ (parts_ne_nil _ _), ih]

theorem parts_of_not_mem {cs : List Char} (h : '|' ∉ cs) : ∀ escaped, parts escaped cs = [cs] := by
  induction cs with
  | nil => intro escaped; rfl
  | cons c cs ih =>
    intro escaped
    simp only [List.mem_cons, not_or] at h
    rw [parts, if_neg (fun hc => h.1 hc.1.symm), ih h.2]
    rfl

theorem bars_of_not_mem {cs : List Char} (h : '|' ∉ cs) : ∀ escaped, bars escaped cs = [] := by
  induction cs with
  | nil => intro escaped; rfl
  | cons c cs ih =>
    intro escaped
    simp only [List.mem_cons, not_or] at h
    rw [bars, if_neg (Ne.symm h.1), ih h.2, List.append_nil]

theorem fits_of_not_mem {cs : List Char} (h : ∀ c ∈ ['\n', '\r', '|'], c ∉ cs) : Fits cs := by
  refine ⟨⟨h _ (by decide), h _ (by decide)⟩, ?_⟩
  rw [bars_of_not_mem (h _ (by decide))]
  exact List.not_mem_nil

/-- A bar after a space splits. -/
theorem parts_append (cs rest : List Char) : ∀ escaped,
    parts escaped (cs ++ ' ' :: '|' :: rest) = parts escaped (cs ++ [' ']) ++ parts false rest := by
  induction cs with
  | nil => intro escaped; cases escaped <;> rfl
  | cons c cs ih =>
    intro escaped
    rw [List.cons_append, List.cons_append, parts, parts]
    split
    · rw [ih]; rfl
    · rw [ih, consFirst_append c (parts_ne_nil _ _)]

/-- What follows a text without bars adds none to it. -/
theorem bars_append_of_not_mem (cs : List Char) {rest : List Char} (h : '|' ∉ rest) :
    ∀ escaped, bars escaped (cs ++ rest) = bars escaped cs := by
  induction cs with
  | nil => exact bars_of_not_mem h
  | cons c cs ih =>
    intro escaped
    rw [List.cons_append, bars, bars, ih]

/-- Of the bars of a message the escaping turns each into its opposite. -/
theorem bars_escapeCell (message : String) :
    bars false (escapeCell message).toList = (bars false message.toList).map (!·) := by
  have hgeneral : ∀ (cs : List Char) (escaped : Bool),
      bars escaped (cs.flatMap escapeCellChar) = (bars escaped cs).map (!·) := by
    intro cs
    induction cs with
    | nil => intro escaped; rfl
    | cons c cs ih =>
      intro escaped
      rw [List.flatMap_cons, bars, escapeCellChar]
      split
      · rename_i hbar
        subst hbar
        cases escaped <;> simp [bars, escapes, ih]
      · split
        · rename_i hbar hfeed
          subst hfeed
          simp [bars, escapes, ih]
        · rename_i hbar hfeed
          simp [bars, hbar, ih]
  rw [escapeCell, String.toList_ofList, hgeneral]

def rowLine (texts : List (List Char)) : List Char :=
  '|' :: texts.flatMap fun text => ' ' :: text ++ [' ', '|']

theorem unbroken_rowLine (texts : List (List Char)) :
    Unbroken (rowLine texts) ↔ ∀ text ∈ texts, Unbroken text := by
  simp [Unbroken, rowLine, forall_and]

theorem rowLine_endsIn_bar (texts : List (List Char)) : ∃ cs, rowLine texts = cs ++ ['|'] := by
  rcases List.eq_nil_or_concat texts with rfl | ⟨init, last, rfl⟩
  · exact ⟨[], rfl⟩
  · exact ⟨rowLine init ++ (' ' :: last ++ [' ']), by simp [rowLine]⟩

/-- A reader finds the parts of each text in turn. -/
theorem cells_rowLine (texts : List (List Char)) :
    cells (rowLine texts) = texts.flatMap fun text => parts false (' ' :: text ++ [' ']) := by
  have hparts : parts false (texts.flatMap fun text => ' ' :: text ++ [' ', '|']) =
      (texts.flatMap fun text => parts false (' ' :: text ++ [' '])) ++ [[]] := by
    induction texts with
    | nil => rfl
    | cons text texts ih =>
      have hassoc (rest : List Char) :
          ' ' :: text ++ [' ', '|'] ++ rest = (' ' :: text) ++ ' ' :: '|' :: rest := by simp
      rw [List.flatMap_cons, List.flatMap_cons, hassoc, parts_append, ih, List.append_assoc]
  have hcells : cells (rowLine texts) =
      (parts false (texts.flatMap fun text => ' ' :: text ++ [' ', '|'])).dropLast := rfl
  rw [hcells, hparts, List.dropLast_concat]

/-- Each bar that is not escaped makes one cell more. -/
theorem length_cells_rowLine (texts : List (List Char)) :
    (cells (rowLine texts)).length = texts.length + (texts.flatMap (bars false)).count false := by
  rw [cells_rowLine]
  induction texts with
  | nil => rfl
  | cons text texts ih =>
    have hbars : bars false (' ' :: text ++ [' ']) = bars false text :=
      bars_append_of_not_mem (' ' :: text) (by decide) false
    rw [List.flatMap_cons, List.length_append, ih, length_parts, hbars, List.flatMap_cons,
      List.count_append, List.length_cons]
    omega

/-- A line has five cells, the first of which is a number. -/
structure IsRow (number : Nat) (line : List Char) : Prop where
  five : (cells line).length = 5
  numbered : (cells line).head? = some (' ' :: (toString number).toList ++ [' '])

def columnLine : List Char := "| # | Step | Outcome | Target | Message |".toList

def ruleLine : List Char := "|---|------|---------|--------|---------|".toList

/-- A text has the two lines of a table's head, and then rows numbered from one to a number. -/
def IsTable (count : Nat) (text : String) : Prop :=
  ∃ rows, lines false text.toList = columnLine :: ruleLine :: rows ∧
    List.Forall₂ IsRow (List.range' 1 count) rows

/-- The head of a table is read as its two lines. -/
theorem lines_head (rest : List Char) :
    lines false (columnLine ++ '\n' :: (ruleLine ++ '\n' :: rest)) =
      columnLine :: ruleLine :: lines false rest := by
  have hcolumns : Unbroken columnLine := by decide
  have hrule : Unbroken ruleLine := by decide
  rw [lines_of_unbroken hcolumns, lines_of_unbroken hrule]

theorem fits_number (n : Nat) : Fits (toString n).toList := by
  refine fits_of_not_mem fun c hc hmem => ?_
  have hdigit := Diff.isDigit_of_mem_toString hmem
  simp only [List.mem_cons, List.not_mem_nil, or_false] at hc
  rcases hc with rfl | rfl | rfl <;> exact absurd hdigit (by decide)

theorem fits_label (outcome : StepOutcome) : Fits outcome.label.toList := by
  cases outcome <;> decide

/-- A code span leaves its text as it is. -/
theorem fits_codeSpan (s : String) : Fits (codeSpan s).toList ↔ Fits s.toList := by
  have hspan : (codeSpan s).toList = '`' :: s.toList ++ ['`'] := by simp [codeSpan]
  have hbars : bars false ('`' :: s.toList ++ ['`']) = bars false s.toList :=
    bars_append_of_not_mem ('`' :: s.toList) (by decide) false
  rw [Fits, Fits, hspan, hbars]
  simp [Unbroken]

/-- The escaping of a message leaves its carriage returns, and it takes the backslash before a bar
for nothing but a backslash. -/
theorem fits_escapeCell (message : String) :
    Fits (escapeCell message).toList ↔
      '\r' ∉ message.toList ∧ true ∉ bars false message.toList := by
  have hfeed : '\n' ∉ (escapeCell message).toList := by
    simp only [escapeCell, String.toList_ofList, List.mem_flatMap, not_exists, not_and]
    intro c _
    rw [escapeCellChar]
    split
    · decide
    · split
      · decide
      · rename_i hc
        simpa using Ne.symm hc
  have hreturn : '\r' ∈ (escapeCell message).toList ↔ '\r' ∈ message.toList := by
    simp only [escapeCell, String.toList_ofList, List.mem_flatMap]
    constructor
    · rintro ⟨c, hc, hmem⟩
      rw [escapeCellChar] at hmem
      split at hmem
      · exact absurd hmem (by decide)
      · split at hmem
        · exact absurd hmem (by decide)
        · exact List.mem_singleton.1 hmem ▸ hc
    · exact fun h => ⟨_, h, by decide⟩
  rw [Fits, Unbroken, bars_escapeCell, hreturn]
  simp [hfeed]

end Markdown

namespace StepReport

open Markdown

def cellTexts (number : Nat) (entry : StepReport) : List (List Char) :=
  [(toString number).toList, (codeSpan entry.step).toList, entry.outcome.label.toList,
    match entry.target with
    | some path => (codeSpan path.spelling).toList
    | none => ['-'],
    (escapeCell entry.message).toList]

/-- Nothing in the free texts of a step is taken for a line end or for a bar between cells: the name
and the target have no line end, and their bars are escaped; the message has no carriage return, and
none of its bars is escaped. -/
structure Plain (entry : StepReport) : Prop where
  step : Fits entry.step.toList
  target : ∀ path ∈ entry.target, Fits path.spelling.toList
  message : '\r' ∉ entry.message.toList ∧ true ∉ bars false entry.message.toList

instance (entry : StepReport) : Decidable entry.Plain :=
  decidable_of_iff (Fits entry.step.toList ∧ (∀ path ∈ entry.target, Fits path.spelling.toList) ∧
      '\r' ∉ entry.message.toList ∧ true ∉ bars false entry.message.toList)
    ⟨fun ⟨hstep, htarget, hmessage⟩ => ⟨hstep, htarget, hmessage⟩,
      fun ⟨hstep, htarget, hmessage⟩ => ⟨hstep, htarget, hmessage⟩⟩

theorem toList_row (number : Nat) (entry : StepReport) :
    (entry.row number).toList = rowLine (entry.cellTexts number) ++ ['\n'] := by
  unfold row
  cases htarget : entry.target with
  | none => simp [rowLine, cellTexts, htarget]
  | some path => simp [rowLine, cellTexts, htarget]

theorem plain_iff (number : Nat) (entry : StepReport) :
    entry.Plain ↔ ∀ text ∈ entry.cellTexts number, Fits text := by
  have htarget : Fits (match entry.target with
      | some path => (codeSpan path.spelling).toList
      | none => ['-']) ↔ ∀ path ∈ entry.target, Fits path.spelling.toList := by
    cases entry.target with
    | none => exact iff_of_true (by decide) (by simp)
    | some path => simp [fits_codeSpan]
  simp only [cellTexts, List.forall_mem_cons, htarget, fits_codeSpan, fits_escapeCell, fits_number,
    fits_label, true_and, List.not_mem_nil, false_implies, implies_true, and_true]
  exact ⟨fun h => ⟨h.step, h.target, h.message⟩, fun ⟨h₁, h₂, h₃⟩ => ⟨h₁, h₂, h₃⟩⟩

/-- A row is read as a row exactly where each bar of its texts is escaped. -/
theorem isRow_iff (number : Nat) (entry : StepReport) :
    IsRow number (rowLine (entry.cellTexts number)) ↔
      ∀ text ∈ entry.cellTexts number, false ∉ bars false text := by
  have hlength := length_cells_rowLine (entry.cellTexts number)
  have hcount : (entry.cellTexts number).length = 5 := rfl
  have hnone : ((entry.cellTexts number).flatMap (bars false)).count false = 0 ↔
      ∀ text ∈ entry.cellTexts number, false ∉ bars false text := by
    simp only [List.count_eq_zero, List.mem_flatMap, not_exists, not_and]
  rw [← hnone]
  constructor
  · intro h
    have hfive := h.five
    omega
  · intro h
    refine ⟨by omega, ?_⟩
    have hnumber : '|' ∉ ' ' :: (toString number).toList ++ [' '] := by
      intro hmem
      have hdigit : '|' ∈ (toString number).toList := by simpa using hmem
      exact absurd (Diff.isDigit_of_mem_toString hdigit) (by decide)
    rw [cells_rowLine, cellTexts, List.flatMap_cons, parts_of_not_mem hnumber]
    rfl

theorem toList_rows_cons (number : Nat) (entry : StepReport) (entries : List StepReport) :
    (rows number (entry :: entries)).toList =
      rowLine (entry.cellTexts number) ++ '\n' :: (rows (number + 1) entries).toList := by
  rw [rows, String.toList_append, toList_row, List.append_assoc, List.singleton_append]

theorem lines_rows_of_unbroken {number : Nat} {entry : StepReport}
    (h : ∀ text ∈ entry.cellTexts number, Unbroken text) (entries : List StepReport) :
    lines false (rows number (entry :: entries)).toList =
      rowLine (entry.cellTexts number) :: lines false (rows (number + 1) entries).toList := by
  rw [toList_rows_cons, lines_of_unbroken ((unbroken_rowLine _).2 h)]

/-- A row with a line end in one of its texts is read as two lines at least. -/
theorem lines_rows_of_broken {number : Nat} {entry : StepReport}
    (h : ¬ ∀ text ∈ entry.cellTexts number, Unbroken text) (entries : List StepReport) :
    (lines false (rows (number + 1) entries).toList).length + 2 ≤
      (lines false (rows number (entry :: entries)).toList).length := by
  obtain ⟨cs, hcs⟩ := rowLine_endsIn_bar (entry.cellTexts number)
  have hbroken : ¬ Unbroken cs := by
    intro hunbroken
    refine h ((unbroken_rowLine _).1 ?_)
    rw [hcs]
    simpa [Unbroken] using hunbroken
  have hlines := lines_of_broken hbroken (rows (number + 1) entries).toList
  rwa [toList_rows_cons, hcs, List.append_assoc, List.singleton_append]

/-- There is a line for each step at least. -/
theorem length_le_length_lines (entries : List StepReport) : ∀ number,
    entries.length ≤ (lines false (rows number entries).toList).length := by
  induction entries with
  | nil => intro number; exact Nat.zero_le _
  | cons entry entries ih =>
    intro number
    have hrest := ih (number + 1)
    by_cases h : ∀ text ∈ entry.cellTexts number, Unbroken text
    · rw [lines_rows_of_unbroken h, List.length_cons, List.length_cons]
      exact Nat.succ_le_succ hrest
    · have hmore := lines_rows_of_broken h entries
      rw [List.length_cons]
      omega

/-- The rows of steps are read as the rows of a table exactly where every step is plain. -/
theorem forall₂_isRow_iff (entries : List StepReport) : ∀ number,
    List.Forall₂ IsRow (List.range' number entries.length)
      (lines false (rows number entries).toList) ↔ ∀ entry ∈ entries, entry.Plain := by
  induction entries with
  | nil => intro number; simp [rows, lines]
  | cons entry entries ih =>
    intro number
    rw [List.length_cons, List.range'_succ, List.forall_mem_cons, plain_iff number]
    by_cases h : ∀ text ∈ entry.cellTexts number, Unbroken text
    · have hfits : (∀ text ∈ entry.cellTexts number, Fits text) ↔
          ∀ text ∈ entry.cellTexts number, false ∉ bars false text :=
        forall₂_congr fun text htext => and_iff_right (h text htext)
      rw [lines_rows_of_unbroken h, List.forall₂_cons, isRow_iff, ih, hfits]
    · have hrest := length_le_length_lines entries (number + 1)
      have hmore := lines_rows_of_broken h entries
      refine iff_of_false (fun hall => ?_) fun hplain => h fun text htext =>
        (hplain.1 text htext).1
      have hlength := hall.length_eq
      rw [List.length_cons, List.length_range'] at hlength
      omega

end StepReport

namespace Report

open Markdown

/-- Between the counts and the changed files a report has a table with a row for each step. -/
def Tabled (report : Report) : Prop :=
  ∃ table, report.markdown =
      report.markdownHead ++ "## Steps\n\n" ++ table ++ report.markdownFiles ∧
    IsTable report.steps.length table

theorem toList_markdownTable (report : Report) : report.markdownTable.toList =
    columnLine ++ '\n' :: (ruleLine ++ '\n' :: (StepReport.rows 1 report.steps).toList) := by
  have hhead :
    "| # | Step | Outcome | Target | Message |\n|---|------|---------|--------|---------|\n".toList
      = columnLine ++ '\n' :: (ruleLine ++ ['\n']) := by rfl
  calc report.markdownTable.toList
      = _ ++ (StepReport.rows 1 report.steps).toList := String.toList_append
    _ = (columnLine ++ '\n' :: (ruleLine ++ ['\n'])) ++ (StepReport.rows 1 report.steps).toList :=
        congrArg (· ++ (StepReport.rows 1 report.steps).toList) hhead
    _ = columnLine ++ '\n' :: (ruleLine ++ '\n' :: (StepReport.rows 1 report.steps).toList) := by
        simp only [List.append_assoc, List.cons_append, List.nil_append]

theorem isTable_markdownTable (report : Report) :
    IsTable report.steps.length report.markdownTable ↔ ∀ entry ∈ report.steps, entry.Plain := by
  rw [IsTable, toList_markdownTable, lines_head, ← StepReport.forall₂_isRow_iff report.steps 1]
  constructor
  · rintro ⟨rows, heq, hrows⟩
    have hlines := (List.cons.inj (List.cons.inj heq).2).2
    exact hlines ▸ hrows
  · exact fun h => ⟨_, rfl, h⟩

/-- A report of some steps has a table with one numbered line of five cells for each step exactly
where the free texts of every step are plain. -/
theorem tabled_iff_plain (report : Report) (h : report.steps ≠ []) :
    report.Tabled ↔ ∀ entry ∈ report.steps, entry.Plain := by
  have hmarkdown : report.markdown = report.markdownHead ++ "## Steps\n\n" ++ report.markdownTable
      ++ report.markdownFiles := by
    rw [markdown, if_neg (by simpa using h)]
    simp only [String.append_assoc]
  rw [← isTable_markdownTable]
  constructor
  · rintro ⟨table, heq, htable⟩
    rw [hmarkdown, String.append_left_inj, String.append_right_inj] at heq
    exact heq ▸ htable
  · exact fun htable => ⟨report.markdownTable, hmarkdown, htable⟩

def ofStep (entry : StepReport) : Report :=
  (start ⟨.ofRandom [], ⟨0, 0⟩, ⟨0, 0⟩⟩).push entry

def barInMessage : Report :=
  ofStep ⟨"register", some ⟨"src/main.ts"⟩, .failed, "no call of a|b\nin the file"⟩

def barInTarget : Report :=
  ofStep ⟨"register", some ⟨"src/app|main.ts"⟩, .failed, "no call"⟩

theorem tabled_barInMessage :
    barInMessage.steps ≠ [] ∧ barInTarget.steps ≠ [] ∧
      barInMessage.Tabled ∧ ¬ barInTarget.Tabled := by
  have hmessage : barInMessage.steps ≠ [] := by decide
  have htarget : barInTarget.steps ≠ [] := by decide
  exact ⟨hmessage, htarget, (tabled_iff_plain barInMessage hmessage).2 (by decide),
    fun h => absurd ((tabled_iff_plain barInTarget htarget).1 h) (by decide)⟩

end Report

end Codemod
