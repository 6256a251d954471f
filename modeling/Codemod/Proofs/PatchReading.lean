import Codemod.Proofs.Hunks
import Codemod.Proofs.PathJoins
import Codemod.Staging.Summary

/-!
Reading a patch.

`readPatch` cuts a text at the lines that begin with `diff --git `. Of each section it keeps the first
line, the lines up to the first hunk, and the hunks, whose lines are counted off by the numbers in
their headers. What is printed for a file is read back as it is: no line of a hunk can be taken for
another kind of line, since all of them are marked, and lines without a line break get theirs back
with a note that is cut off again.
-/
namespace Codemod

namespace Text

/-- A line that ends with its only line break. -/
def IsWholeLine (line : List Char) : Prop := ∃ cs, line = cs ++ ['\n'] ∧ '\n' ∉ cs

/-- A line that is not empty, with a line break at most at its end. -/
def IsLine (line : List Char) : Prop := IsWholeLine line ∨ (line ≠ [] ∧ '\n' ∉ line)

theorem lines_append_break {cs : List Char} (h : '\n' ∉ cs) (rest : List Char) :
    lines (cs ++ '\n' :: rest) = (cs ++ ['\n']) :: lines rest := by
  induction cs with
  | nil => simp [lines]
  | cons c cs ih =>
    simp only [List.mem_cons, not_or] at h
    rw [List.cons_append, lines, if_neg (Ne.symm h.1), ih h.2]
    rfl

/-- Whole lines are the lines of what they make together. -/
theorem lines_flatten {ls : List (List Char)} (h : ∀ line ∈ ls, IsWholeLine line) :
    lines ls.flatten = ls := by
  induction ls with
  | nil => rfl
  | cons line ls ih =>
    obtain ⟨⟨cs, rfl, hcs⟩, hrest⟩ := List.forall_mem_cons.1 h
    rw [List.flatten_cons, List.append_assoc, List.singleton_append, lines_append_break hcs, ih hrest]

theorem isLine_of_mem {cs line : List Char} (h : line ∈ lines cs) : IsLine line := by
  induction cs generalizing line with
  | nil => cases h
  | cons c cs ih =>
    rw [lines] at h
    split at h
    · rcases List.mem_cons.1 h with rfl | h
      · exact .inl ⟨[], rfl, by simp⟩
      · exact ih h
    · rename_i hc
      split at h
      · obtain rfl := List.mem_singleton.1 h
        exact .inr ⟨by simp, by simpa using Ne.symm hc⟩
      · rename_i first rest hl
        rcases List.mem_cons.1 h with rfl | h
        · rcases ih (hl ▸ List.mem_cons_self ..) with ⟨cs, rfl, hcs⟩ | ⟨-, hcs⟩
          · exact .inl ⟨c :: cs, rfl, by simp [hcs, Ne.symm hc]⟩
          · exact .inr ⟨by simp, by simp [hcs, Ne.symm hc]⟩
        · exact ih (hl ▸ List.mem_cons_of_mem _ h)

theorem isWhole_iff {line : List Char} (h : IsLine line) : isWhole line = true ↔ IsWholeLine line := by
  constructor
  · intro hw
    rcases h with h | ⟨-, h⟩
    · exact h
    · have hmem : '\n' ∈ line := List.mem_of_getLast? (by simpa [isWhole] using hw)
      exact absurd hmem h
  · rintro ⟨cs, rfl, -⟩
    simp [isWhole]

end Text

namespace Diff

def begins (lead : String) (line : List Char) : Bool := (Text.dropLead? lead.toList line).isSome

/-- A note on the line in front of it. -/
def isNote (line : List Char) : Bool := begins "\\ " line

/-- Lines without the notes; the lines that have one lose their line break. -/
def joinNotes : List (List Char) → List (List Char)
  | [] => []
  | line :: rest =>
    if isNote line then joinNotes rest
    else (if rest.head?.any isNote then line.dropLast else line) :: joinNotes rest

def isHeading (line : List Char) : Bool := begins "diff --git " line

/-- The lines in front of the first section, and the sections. -/
def sections : List (List Char) → List (List Char) × List (List (List Char))
  | [] => ([], [])
  | line :: rest =>
    let (front, more) := sections rest
    if isHeading line then ([], (line :: front) :: more) else (line :: front, more)

def readNumber (digits : List Char) : Option Nat :=
  if digits ≠ [] ∧ digits.all Char.isDigit then some (Nat.ofDigitChars 10 digits 0) else none

/-- A range of lines: how many lines are in front of it, and its length. Lines are counted from one,
and a range without lines names the line in front of it. -/
def readRange (cs : List Char) : Option (Nat × Nat) :=
  let place (first count : Nat) : Option (Nat × Nat) :=
    if count = 0 then some (first, 0) else if first = 0 then none else some (first - 1, count)
  match Text.split ',' cs with
  | [first] => (readNumber first).bind fun n => place n 1
  | [first, count] => (readNumber first).bind fun n => (readNumber count).bind fun m => place n m
  | _ => none

def readHeader (line : List Char) : Option ((Nat × Nat) × (Nat × Nat)) :=
  match (Text.dropLead? "@@ -".toList line).map (Text.split ' ') with
  | some [old, '+' :: new, ['@', '@', '\n']] =>
    (readRange old).bind fun o => (readRange new).map fun n => (o, n)
  | _ => none

/-- A line of a hunk, by its mark. An empty unchanged line may have lost its mark. -/
def readLine : List Char → Option (HunkLine (List Char))
  | ' ' :: line => some (.context line)
  | '-' :: line => some (.removed line)
  | '+' :: line => some (.added line)
  | ['\n'] => some (.context ['\n'])
  | _ => none

/-- What is left of two counts of lines after a line. -/
def HunkLine.countDown? {α : Type} : HunkLine α → Nat → Nat → Option (Nat × Nat)
  | context _, old + 1, new + 1 => some (old, new)
  | removed _, old + 1, new => some (old, new)
  | added _, old, new + 1 => some (old, new)
  | _, _, _ => none

/-- The lines of a hunk that show so many lines of the one text and of the other, and what follows
them. -/
def readBody : List (List Char) → Nat → Nat →
    Option (List (HunkLine (List Char)) × List (List Char))
  | rest, 0, 0 => some ([], rest)
  | [], _, _ => none
  | line :: rest, old, new =>
    match (readLine line).bind fun l => (l.countDown? old new).map fun counts => (l, counts) with
    | some (l, old, new) => (readBody rest old new).map fun (body, rest) => (l :: body, rest)
    | none => none

def readHunks : Nat → List (List Char) → Option (List (Hunk (List Char)))
  | _, [] => some []
  | 0, _ => none
  | fuel + 1, header :: rest =>
    match readHeader header with
    | some ((oldStart, oldCount), (newStart, newCount)) =>
      match readBody rest oldCount newCount with
      | some (body, rest) =>
        (readHunks fuel rest).map fun more =>
          ⟨oldStart, oldCount, newStart, newCount, body⟩ :: more
      | none => none
    | none => none

structure FilePatch where
  heading : List Char
  /-- The lines between the heading and the first hunk. -/
  names : List (List Char)
  hunks : List (Hunk (List Char))

def isHunkHeader (line : List Char) : Bool := begins "@@ " line

def readFile : List (List Char) → Option FilePatch
  | [] => none
  | heading :: rest =>
    (readHunks rest.length (rest.dropWhile fun line => !isHunkHeader line)).map fun hunks =>
      ⟨heading, rest.takeWhile fun line => !isHunkHeader line, hunks⟩

/-- The files of a patch. Nothing may stand in front of the first one. -/
def readPatch (text : String) : Option (List FilePatch) :=
  match sections (joinNotes (Text.lines text.toList)) with
  | ([], files) => files.mapM readFile
  | _ => none

/-- Puts the hunks of a file into its text. -/
def FilePatch.apply (patch : FilePatch) (text : String) : Option String :=
  (applyHunks 0 0 (Text.lines text.toList) patch.hunks).map fun lines => String.ofList lines.flatten

def breakNote : List Char := "\\ No newline at end of file\n".toList

def HunkLine.marked : HunkLine (List Char) → List Char
  | context line => if line = ['\n'] then line else ' ' :: line
  | removed line => '-' :: line
  | added line => '+' :: line

/-- The lines that are printed for a line of a hunk. -/
def HunkLine.printed (l : HunkLine (List Char)) : List (List Char) :=
  if Text.isWhole l.line then [l.marked] else [l.marked ++ ['\n'], breakNote]

theorem markedLine_eq {mark : Char} (h : mark ≠ ' ') (line : List Char) : markedLine mark line =
    if Text.isWhole line then mark :: line else mark :: line ++ '\n' :: breakNote := by
  have hmark : ¬(mark = ' ' ∧ line = ['\n']) := fun hboth => h hboth.1
  rw [markedLine, if_neg hmark]
  rfl

theorem HunkLine.text_eq (l : HunkLine (List Char)) : l.text =
    if Text.isWhole l.line then l.marked else l.marked ++ '\n' :: breakNote := by
  cases l with
  | context line =>
    simp only [text, markedLine, true_and]
    rfl
  | removed line => exact markedLine_eq (by decide) line
  | added line => exact markedLine_eq (by decide) line

theorem HunkLine.flatten_printed (l : HunkLine (List Char)) : l.printed.flatten = l.text := by
  rw [text_eq, printed]
  split <;> simp

def Hunk.header (hunk : Hunk (List Char)) : List Char :=
  ("@@ -" ++ rangeText hunk.oldStart hunk.oldCount ++ " +"
    ++ rangeText hunk.newStart hunk.newCount ++ " @@\n").toList

def Hunk.printed (hunk : Hunk (List Char)) : List (List Char) :=
  hunk.header :: hunk.lines.flatMap HunkLine.printed

theorem Hunk.flatten_printed (hunk : Hunk (List Char)) : hunk.printed.flatten = hunk.text := by
  have hlines : (hunk.lines.flatMap HunkLine.printed).flatten =
      hunk.lines.flatMap HunkLine.text := by
    induction hunk.lines with
    | nil => rfl
    | cons l lines ih => simp [ih, HunkLine.flatten_printed]
  rw [printed, List.flatten_cons, hlines]
  rfl

theorem begins_append (lead : String) (cs : List Char) : begins lead (lead.toList ++ cs) = true := by
  rw [begins, Text.dropLead?_eq_some_iff.2 rfl]
  rfl

/-- A line that begins with another character than a text does not begin with the text. -/
theorem not_begins {lead : String} {c : Char} (h : lead.toList.head? ≠ some c) (hl : lead ≠ "")
    (cs : List Char) : begins lead (c :: cs) = false := by
  rw [begins]
  cases hlead : lead.toList with
  | nil => exact absurd (by simpa using hlead) hl
  | cons d ds =>
    have hd : d ≠ c := by simpa [hlead] using h
    simp [Text.dropLead?, hd]

/-- Lines that are printed for some lines without notes, whatever follows them that is no note. -/
def Joins (printed joined : List (List Char)) : Prop :=
  ∀ rest, rest.head?.any isNote = false →
    joinNotes (printed ++ rest) = joined ++ joinNotes rest ∧
      (printed ++ rest).head?.any isNote = false

theorem joins_nil : Joins [] [] := fun _ h => ⟨rfl, h⟩

theorem Joins.append {a b c d : List (List Char)} (h : Joins a b) (h' : Joins c d) :
    Joins (a ++ c) (b ++ d) := by
  intro rest hrest
  obtain ⟨hmore, hquiet⟩ := h' rest hrest
  obtain ⟨hfirst, hhead⟩ := h (c ++ rest) hquiet
  rw [List.append_assoc, List.append_assoc, hfirst, hmore]
  exact ⟨rfl, hhead⟩

theorem joins_single {line : List Char} (h : isNote line = false) : Joins [line] [line] := by
  intro rest hrest
  simp [joinNotes, h, hrest]

theorem joins_noted {line note : List Char} (h : isNote (line ++ ['\n']) = false)
    (hn : isNote note = true) : Joins [line ++ ['\n'], note] [line] := by
  intro rest hrest
  simp [joinNotes, h, hn]

theorem joins_flatMap {β : Type} {f g : β → List (List Char)} {items : List β}
    (h : ∀ item ∈ items, Joins (f item) (g item)) : Joins (items.flatMap f) (items.flatMap g) := by
  induction items with
  | nil => exact joins_nil
  | cons item items ih =>
    obtain ⟨hfirst, hrest⟩ := List.forall_mem_cons.1 h
    exact hfirst.append (ih hrest)

/-- A marked line begins with its mark, or it is an empty unchanged line. -/
theorem HunkLine.marked_head (l : HunkLine (List Char)) :
    ∃ c cs, l.marked = c :: cs ∧ c ∈ [' ', '-', '+', '\n'] := by
  cases l with
  | context line =>
    rw [marked]
    split
    · rename_i h
      exact ⟨'\n', [], h, by decide⟩
    · exact ⟨' ', line, rfl, by decide⟩
  | removed line => exact ⟨'-', line, rfl, by decide⟩
  | added line => exact ⟨'+', line, rfl, by decide⟩

theorem HunkLine.joins_printed (l : HunkLine (List Char)) : Joins l.printed [l.marked] := by
  obtain ⟨c, cs, hm, hc⟩ := l.marked_head
  have hnote : ∀ cs, isNote (c :: cs) = false := by
    refine not_begins ?_ (by decide)
    intro he
    obtain rfl : '\\' = c := Option.some.inj he
    exact absurd hc (by decide)
  rw [printed, hm]
  split
  · exact joins_single (hnote cs)
  · exact joins_noted (hnote (cs ++ ['\n'])) (by decide)

theorem HunkLine.whole_printed {l : HunkLine (List Char)} (h : Text.IsLine l.line) :
    ∀ line ∈ l.printed, Text.IsWholeLine line := by
  have hmark : ∀ {c : Char}, c ≠ '\n' → ∀ {cs : List Char}, Text.IsWholeLine cs →
      Text.IsWholeLine (c :: cs) := by
    rintro c hc cs ⟨inner, rfl, hinner⟩
    exact ⟨c :: inner, rfl, by simp [hinner, Ne.symm hc]⟩
  intro line hline
  rw [printed] at hline
  split at hline
  · rename_i hw
    obtain rfl := List.mem_singleton.1 hline
    have hwhole := (Text.isWhole_iff h).1 hw
    cases l with
    | context line =>
      rw [marked]
      split
      · exact hwhole
      · exact hmark (by decide) hwhole
    | removed line => exact hmark (by decide) hwhole
    | added line => exact hmark (by decide) hwhole
  · rename_i hw
    have hno : '\n' ∉ l.line := by
      rcases h with h | ⟨-, h⟩
      · exact absurd ((Text.isWhole_iff (.inl h)).2 h) hw
      · exact h
    rcases List.mem_cons.1 hline with rfl | hline
    · refine ⟨l.marked, rfl, ?_⟩
      cases l with
      | context line =>
        rw [marked, if_neg (by rintro rfl; simp [HunkLine.line] at hno)]
        simpa [HunkLine.line] using hno
      | removed line => simpa [HunkLine.line, marked] using hno
      | added line => simpa [HunkLine.line, marked] using hno
    · obtain rfl := List.mem_singleton.1 hline
      exact ⟨"\\ No newline at end of file".toList, by decide, by decide⟩

theorem isDigit_of_mem_toString {n : Nat} {c : Char} (h : c ∈ (toString n).toList) :
    c.isDigit = true := by
  rw [Nat.toString_eq_ofList_toDigits, String.toList_ofList] at h
  exact Nat.isDigit_of_mem_toDigits (by decide) (by decide) h

theorem readNumber_toString (n : Nat) : readNumber (toString n).toList = some n := by
  have hall : (toString n).toList.all Char.isDigit = true :=
    List.all_eq_true.2 fun c hc => isDigit_of_mem_toString hc
  have hne : (toString n).toList ≠ [] := by
    rw [Nat.toString_eq_ofList_toDigits, String.toList_ofList]
    exact Nat.toDigits_ne_nil
  have hvalue : Nat.ofDigitChars 10 (toString n).toList 0 = n := by
    rw [Nat.toString_eq_ofList_toDigits, String.toList_ofList]
    exact Nat.ofDigitChars_toDigits (by decide) (by decide)
  rw [readNumber, if_pos ⟨hne, hall⟩, hvalue]

/-- A range of lines is read back. -/
theorem readRange_rangeText (start count : Nat) :
    readRange (rangeText start count).toList = some (start, count) := by
  have hcomma : ∀ n : Nat, ',' ∉ (toString n).toList := by
    intro n h
    exact absurd (isDigit_of_mem_toString h) (by decide)
  rw [rangeText]
  by_cases h1 : count = 1
  · subst h1
    simp only [readRange, Nat.zero_lt_one, if_true, Text.split_of_not_mem (hcomma _),
      readNumber_toString, Option.bind_some]
    simp
  · have hsplit : ∀ n : Nat, Text.split ',' (toString n ++ "," ++ toString count).toList =
        [(toString n).toList, (toString count).toList] := by
      intro n
      have hlist : (toString n ++ "," ++ toString count).toList =
          (toString n).toList ++ ',' :: (toString count).toList := by simp
      rw [hlist, Text.split_append_cons, Text.split_of_not_mem (hcomma n),
        Text.split_of_not_mem (hcomma count), List.singleton_append]
    simp only [readRange, if_neg h1, hsplit, readNumber_toString, Option.bind_some]
    by_cases h0 : count = 0
    · simp [h0]
    · simp [h0, Nat.pos_of_ne_zero h0]

/-- A range is written in digits and commas. -/
theorem not_mem_rangeText {c : Char} (hd : c.isDigit = false) (hc : c ≠ ',') (start count : Nat) :
    c ∉ (rangeText start count).toList := by
  have hnumber : ∀ n : Nat, c ∉ (toString n).toList := by
    intro n h
    rw [isDigit_of_mem_toString h] at hd
    cases hd
  rw [rangeText]
  split
  · exact hnumber _
  · simp only [String.toList_append, List.mem_append, not_or]
    exact ⟨⟨hnumber _, by simpa using hc⟩, hnumber _⟩

theorem readHeader_header (hunk : Hunk (List Char)) : readHeader hunk.header =
    some ((hunk.oldStart, hunk.oldCount), (hunk.newStart, hunk.newCount)) := by
  have hspace := @not_mem_rangeText ' ' (by decide) (by decide)
  have hold := hspace hunk.oldStart hunk.oldCount
  have hnew := hspace hunk.newStart hunk.newCount
  have hheader : hunk.header = "@@ -".toList ++ ((rangeText hunk.oldStart hunk.oldCount).toList ++
      ' ' :: (('+' :: (rangeText hunk.newStart hunk.newCount).toList) ++
        ' ' :: ['@', '@', '\n'])) := by
    simp [Hunk.header]
  have hnew' : ' ' ∉ '+' :: (rangeText hunk.newStart hunk.newCount).toList := by simpa using hnew
  rw [readHeader, hheader, Text.dropLead?_eq_some_iff.2 rfl, Option.map_some,
    Text.split_append_cons, Text.split_append_cons, Text.split_of_not_mem hold,
    Text.split_of_not_mem hnew']
  have hend : Text.split ' ' ['@', '@', '\n'] = [['@', '@', '\n']] := by decide
  rw [hend]
  simp only [List.cons_append, List.nil_append, readRange_rangeText, Option.bind_some,
    Option.map_some]

theorem readLine_marked (l : HunkLine (List Char)) : readLine l.marked = some l := by
  cases l with
  | context line =>
    rw [HunkLine.marked]
    split
    · rename_i h
      rw [h]
      rfl
    · rfl
  | removed line => rfl
  | added line => rfl

theorem countDown?_lines (l : HunkLine (List Char)) (lines : List (HunkLine (List Char))) :
    l.countDown? (olds (l :: lines)).length (news (l :: lines)).length =
      some ((olds lines).length, (news lines).length) := by
  cases l <;> rfl

theorem readBody_cons {l : HunkLine (List Char)} {old new old' new' : Nat}
    (h : l.countDown? old new = some (old', new')) (rest : List (List Char)) :
    readBody (l.marked :: rest) old new =
      (readBody rest old' new').map fun (body, rest) => (l :: body, rest) := by
  have hline : ((readLine l.marked).bind fun l => (l.countDown? old new).map fun counts =>
      (l, counts)) = some (l, old', new') := by
    rw [readLine_marked, Option.bind_some, h, Option.map_some]
  cases old with
  | succ old => simp only [readBody, hline]
  | zero =>
    cases new with
    | succ new => simp only [readBody, hline]
    | zero => cases l <;> cases h

/-- The lines of a hunk are counted off. -/
theorem readBody_marked (lines : List (HunkLine (List Char))) (rest : List (List Char)) :
    readBody (lines.map HunkLine.marked ++ rest) (olds lines).length (news lines).length =
      some (lines, rest) := by
  induction lines with
  | nil => simp [readBody, olds, news]
  | cons l lines ih =>
    rw [List.map_cons, List.cons_append, readBody_cons (countDown?_lines l lines), ih,
      Option.map_some]

def Hunk.joined (hunk : Hunk (List Char)) : List (List Char) :=
  hunk.header :: hunk.lines.map HunkLine.marked

/-- Hunks whose headers tell the numbers of their lines are read back. -/
theorem readHunks_joined {fuel : Nat} {hunks : List (Hunk (List Char))}
    (hf : hunks.length ≤ fuel) (h : ∀ hunk ∈ hunks, (olds hunk.lines).length = hunk.oldCount ∧
      (news hunk.lines).length = hunk.newCount) :
    readHunks fuel (hunks.flatMap Hunk.joined) = some hunks := by
  induction hunks generalizing fuel with
  | nil => cases fuel <;> rfl
  | cons hunk hunks ih =>
    cases fuel with
    | zero => cases hf
    | succ fuel =>
      obtain ⟨⟨hold, hnew⟩, hrest⟩ := List.forall_mem_cons.1 h
      rw [List.flatMap_cons, Hunk.joined, List.cons_append, readHunks, readHeader_header]
      simp only
      rw [← hold, ← hnew, readBody_marked]
      simp only
      rw [ih (Nat.le_of_succ_le_succ hf) hrest, Option.map_some, hold, hnew]

theorem Hunk.header_head (hunk : Hunk (List Char)) : ∃ cs, hunk.header = "@@ ".toList ++ cs := by
  refine ⟨("-" ++ rangeText hunk.oldStart hunk.oldCount ++ " +"
    ++ rangeText hunk.newStart hunk.newCount ++ " @@\n").toList, ?_⟩
  simp [header]

theorem Hunk.not_isHeading_joined (hunk : Hunk (List Char)) :
    ∀ line ∈ hunk.joined, isHeading line = false := by
  intro line hline
  rcases List.mem_cons.1 hline with rfl | hline
  · obtain ⟨cs, hcs⟩ := hunk.header_head
    rw [hcs]
    exact not_begins (by decide) (by decide) _
  · obtain ⟨l, -, rfl⟩ := List.mem_map.1 hline
    obtain ⟨c, cs, hm, hc⟩ := l.marked_head
    rw [hm]
    refine not_begins ?_ (by decide) cs
    intro he
    obtain rfl : 'd' = c := Option.some.inj he
    exact absurd hc (by decide)

theorem Hunk.joins_printed (hunk : Hunk (List Char)) : Joins hunk.printed hunk.joined := by
  obtain ⟨cs, hcs⟩ := hunk.header_head
  have hheader : Joins [hunk.header] [hunk.header] := by
    rw [hcs]
    exact joins_single (not_begins (by decide) (by decide) _)
  have hlines : Joins (hunk.lines.flatMap HunkLine.printed)
      (hunk.lines.flatMap fun l => [l.marked]) :=
    joins_flatMap fun l _ => l.joins_printed
  rw [← List.map_eq_flatMap] at hlines
  exact hheader.append hlines

/-- What is printed for a hunk of lines consists of lines. -/
theorem Hunk.whole_printed {hunk : Hunk (List Char)}
    (h : ∀ l ∈ hunk.lines, Text.IsLine l.line) :
    ∀ line ∈ hunk.printed, Text.IsWholeLine line := by
  have hbreak := @not_mem_rangeText '\n' (by decide) (by decide)
  intro line hline
  rcases List.mem_cons.1 hline with rfl | hline
  · refine ⟨("@@ -" ++ rangeText hunk.oldStart hunk.oldCount ++ " +"
      ++ rangeText hunk.newStart hunk.newCount ++ " @@").toList, ?_, ?_⟩
    · simp [header]
    · simp [hbreak]
  · obtain ⟨l, hl, hline⟩ := List.mem_flatMap.1 hline
    exact HunkLine.whole_printed (h l hl) line hline

theorem length_le_joined (hunks : List (Hunk (List Char))) :
    hunks.length ≤ (hunks.flatMap Hunk.joined).length := by
  induction hunks with
  | nil => exact Nat.le_refl _
  | cons hunk hunks ih =>
    simp only [List.flatMap_cons, List.length_append, List.length_cons, Hunk.joined]
    omega

namespace FilePatch

/-- The lines that are printed for a file. -/
def printed (patch : FilePatch) : List (List Char) :=
  patch.heading :: (patch.names ++ patch.hunks.flatMap Hunk.printed)

def joined (patch : FilePatch) : List (List Char) :=
  patch.heading :: (patch.names ++ patch.hunks.flatMap Hunk.joined)

/-- A part of a patch that can be told from what is around it: no name is another kind of line, and
the headers of the hunks tell the numbers of their lines. -/
structure WellFormed (patch : FilePatch) : Prop where
  whole : ∀ line ∈ patch.heading :: patch.names, Text.IsWholeLine line
  heading : isHeading patch.heading = true
  names : ∀ line ∈ patch.names,
    isNote line = false ∧ isHeading line = false ∧ isHunkHeader line = false
  lines : ∀ hunk ∈ patch.hunks, ∀ l ∈ hunk.lines, Text.IsLine l.line
  counts : ∀ hunk ∈ patch.hunks, (olds hunk.lines).length = hunk.oldCount ∧
    (news hunk.lines).length = hunk.newCount

theorem flatten_printed (patch : FilePatch) : patch.printed.flatten =
    patch.heading ++ (patch.names.flatten ++ patch.hunks.flatMap Hunk.text) := by
  have hhunks : (patch.hunks.flatMap Hunk.printed).flatten = patch.hunks.flatMap Hunk.text := by
    induction patch.hunks with
    | nil => rfl
    | cons hunk hunks ih => simp [ih, Hunk.flatten_printed]
  rw [printed, List.flatten_cons, List.flatten_append, hhunks]

variable {patch : FilePatch}

theorem WellFormed.whole_printed (h : patch.WellFormed) :
    ∀ line ∈ patch.printed, Text.IsWholeLine line := by
  intro line hline
  rw [printed, ← List.cons_append, List.mem_append] at hline
  rcases hline with hline | hline
  · exact h.whole line hline
  · obtain ⟨hunk, hh, hline⟩ := List.mem_flatMap.1 hline
    exact Hunk.whole_printed (h.lines hunk hh) line hline

theorem WellFormed.joins_printed (h : patch.WellFormed) : Joins patch.printed patch.joined := by
  have hheading : Joins [patch.heading] [patch.heading] := by
    obtain ⟨cs, hcs⟩ := Option.isSome_iff_exists.1 h.heading
    rw [Text.dropLead?_eq_some_iff.1 hcs]
    exact joins_single (not_begins (by decide) (by decide) _)
  have hnames : Joins (patch.names.flatMap fun line => [line])
      (patch.names.flatMap fun line => [line]) :=
    joins_flatMap fun line hline => joins_single (h.names line hline).1
  rw [List.flatMap_singleton'] at hnames
  exact hheading.append (hnames.append (joins_flatMap fun hunk _ => hunk.joins_printed))

/-- A file is read back. -/
theorem WellFormed.readFile_joined (h : patch.WellFormed) : readFile patch.joined = some patch := by
  have hnames : ∀ line ∈ patch.names, (!isHunkHeader line) = true := by
    intro line hline
    rw [(h.names line hline).2.2]
    rfl
  have hstop : (patch.hunks.flatMap Hunk.joined).takeWhile (fun line => !isHunkHeader line) = [] ∧
      (patch.hunks.flatMap Hunk.joined).dropWhile (fun line => !isHunkHeader line) =
        patch.hunks.flatMap Hunk.joined := by
    cases patch.hunks with
    | nil => exact ⟨rfl, rfl⟩
    | cons hunk hunks =>
      obtain ⟨cs, hcs⟩ := hunk.header_head
      have hheader : isHunkHeader hunk.header = true := by
        rw [isHunkHeader, hcs, begins_append]
      simp [Hunk.joined, hheader]
  have hlength : patch.hunks.length ≤
      (patch.names ++ patch.hunks.flatMap Hunk.joined).length := by
    rw [List.length_append]
    exact Nat.le_trans (length_le_joined patch.hunks) (Nat.le_add_left ..)
  rw [joined, readFile, List.takeWhile_append_of_pos hnames, List.dropWhile_append_of_pos hnames,
    hstop.1, hstop.2, readHunks_joined hlength h.counts, List.append_nil]
  rfl

end FilePatch

theorem sections_body {body : List (List Char)} (h : ∀ line ∈ body, isHeading line = false)
    (rest : List (List Char)) :
    sections (body ++ rest) = (body ++ (sections rest).1, (sections rest).2) := by
  induction body with
  | nil => rfl
  | cons line body ih =>
    obtain ⟨hline, hbody⟩ := List.forall_mem_cons.1 h
    rw [List.cons_append, sections, ih hbody]
    simp [hline]

/-- A patch is cut at the headings. -/
theorem sections_joined {files : List FilePatch} (h : ∀ patch ∈ files, patch.WellFormed) :
    sections (files.flatMap FilePatch.joined) = ([], files.map FilePatch.joined) := by
  induction files with
  | nil => rfl
  | cons patch files ih =>
    obtain ⟨hpatch, hrest⟩ := List.forall_mem_cons.1 h
    have hbody : ∀ line ∈ patch.names ++ patch.hunks.flatMap Hunk.joined,
        isHeading line = false := by
      intro line hline
      rcases List.mem_append.1 hline with hline | hline
      · exact (hpatch.names line hline).2.1
      · obtain ⟨hunk, -, hline⟩ := List.mem_flatMap.1 hline
        exact hunk.not_isHeading_joined line hline
    rw [List.flatMap_cons, FilePatch.joined, List.cons_append, sections, sections_body hbody,
      ih hrest, List.map_cons, FilePatch.joined]
    simp [hpatch.heading]

theorem mapM_readFile {files : List FilePatch} (h : ∀ patch ∈ files, patch.WellFormed) :
    (files.map FilePatch.joined).mapM readFile = some files := by
  induction files with
  | nil => rfl
  | cons patch files ih =>
    obtain ⟨hpatch, hrest⟩ := List.forall_mem_cons.1 h
    rw [List.map_cons, List.mapM_cons, hpatch.readFile_joined, ih hrest]
    rfl

/-- A printed patch is read back. -/
theorem readPatch_printed {files : List FilePatch} (h : ∀ patch ∈ files, patch.WellFormed)
    {text : String} (ht : text.toList = (files.flatMap FilePatch.printed).flatten) :
    readPatch text = some files := by
  have hlines : Text.lines text.toList = files.flatMap FilePatch.printed := by
    rw [ht, Text.lines_flatten]
    intro line hline
    obtain ⟨patch, hpatch, hline⟩ := List.mem_flatMap.1 hline
    exact (h patch hpatch).whole_printed line hline
  have hjoined : joinNotes (files.flatMap FilePatch.printed) =
      files.flatMap FilePatch.joined := by
    have hall : Joins (files.flatMap FilePatch.printed) (files.flatMap FilePatch.joined) :=
      joins_flatMap fun patch hpatch => (h patch hpatch).joins_printed
    simpa [joinNotes] using (hall [] rfl).1
  rw [readPatch, hlines, hjoined, sections_joined h]
  exact mapM_readFile h

end Diff

end Codemod
