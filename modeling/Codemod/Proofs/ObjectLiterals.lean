import Codemod.Change.Rendering

/-!
How a generated configuration field is written.

A reader of object literals is given, by the rules of the JavaScript grammar: a property is a name
or a literal in single quotes, a colon and a value, and blanks and line breaks may stand between
the tokens. Strings are sequences of UTF-16 code units there. The reader takes fewer texts than
an engine does (no comments, no numbers, no computed keys, only ASCII names). It lists the
properties as they are written, without the rules on keys that occur twice.

A generated field is read back as the key and the entries that it was made from.
-/
namespace Codemod.ObjectLiteral

/-- The code units of a code point: two of them beyond the first plane. -/
def unitsOf (code : Nat) : List Nat :=
  if code < 0x10000 then [code]
  else [0xD800 + (code - 0x10000) / 0x400, 0xDC00 + (code - 0x10000) % 0x400]

/-- The value that a string literal should have for a text. -/
def units (s : String) : List Nat := s.toList.flatMap fun c => unitsOf c.toNat

/-- A line break: a feed, a return, or one of the two separators. -/
def isBreak (c : Char) : Bool := c == '\n' || c == '\r' || c == '\u2028' || c == '\u2029'

def isBlank (c : Char) : Bool :=
  isBreak c || c == ' ' || c == '\t' || c == '\u000b' || c == '\u000c' || c == '\u00a0'
    || c == '\ufeff'

def skipBlanks (cs : List Char) : List Char := cs.dropWhile isBlank

def startsIdentifier (c : Char) : Bool := c == '$' || c == '_' || c.isAlpha

def continuesIdentifier (c : Char) : Bool := startsIdentifier c || c.isDigit

def hexDigit? (c : Char) : Option Nat :=
  if c.isDigit then some (c.toNat - '0'.toNat)
  else if 'a' ≤ c ∧ c ≤ 'f' then some (c.toNat - 'a'.toNat + 10)
  else if 'A' ≤ c ∧ c ≤ 'F' then some (c.toNat - 'A'.toNat + 10)
  else none

def hexNumber? (cs : List Char) : Option Nat :=
  if cs = [] then none
  else cs.foldlM (fun n c => (hexDigit? c).map (16 * n + ·)) 0

/-- The code units of an escape of a given number of hexadecimal digits. -/
def readHex (count : Nat) (cs : List Char) : Option (List Nat × List Char) :=
  if cs.length < count then none
  else (hexNumber? (cs.take count)).map fun n => ([n], cs.drop count)

/-- The code units of an escape in braces; it names a code point. -/
def readBraced (cs : List Char) : Option (List Nat × List Char) :=
  match cs.dropWhile (· ≠ '\x7d') with
  | [] => none
  | _ :: rest =>
    match hexNumber? (cs.takeWhile (· ≠ '\x7d')) with
    | some n => if n < 0x110000 then some (unitsOf n, rest) else none
    | none => none

/-- The code units of an escape of one character. Line breaks continue the literal; digits are
refused but for a single zero. -/
def escapeUnits? (c : Char) (next : Option Char) : Option (List Nat) :=
  if isBreak c then some []
  else if c.isDigit then if c = '0' ∧ next.any Char.isDigit = false then some [0] else none
  else match c with
    | 'b' => some [8]
    | 't' => some [9]
    | 'n' => some [10]
    | 'v' => some [11]
    | 'f' => some [12]
    | 'r' => some [13]
    | c => some (unitsOf c.toNat)

def readEscape : List Char → Option (List Nat × List Char)
  | [] => none
  | 'x' :: cs => readHex 2 cs
  | 'u' :: '\x7b' :: cs => readBraced cs
  | 'u' :: cs => readHex 4 cs
  | '\r' :: '\n' :: cs => some ([], cs)
  | c :: cs => (escapeUnits? c cs.head?).map (·, cs)

theorem length_of_readHex {count : Nat} {cs rest : List Char} {us : List Nat}
    (h : readHex count cs = some (us, rest)) : rest.length ≤ cs.length := by
  unfold readHex at h
  split at h
  · cases h
  · obtain ⟨n, -, hn⟩ := Option.map_eq_some_iff.1 h
    cases hn
    simp

theorem length_of_readBraced {cs rest : List Char} {us : List Nat}
    (h : readBraced cs = some (us, rest)) : rest.length ≤ cs.length := by
  unfold readBraced at h
  split at h
  · cases h
  · rename_i c rest' hdrop
    have hlength := (List.dropWhile_suffix (l := cs) (p := (· ≠ '\x7d'))).length_le
    rw [hdrop, List.length_cons] at hlength
    split at h
    · split at h <;> cases h
      omega
    · cases h

/-- An escape is read off the text behind the backslash. -/
theorem length_of_readEscape {cs rest : List Char} {us : List Nat}
    (h : readEscape cs = some (us, rest)) : rest.length < cs.length := by
  revert h
  fun_cases readEscape cs with
  | case1 => intro h; cases h
  | case2 cs => intro h; exact Nat.lt_succ_of_le (length_of_readHex h)
  | case3 cs =>
    intro h
    exact Nat.lt_succ_of_lt (Nat.lt_succ_of_le (length_of_readBraced h))
  | case4 cs => intro h; exact Nat.lt_succ_of_le (length_of_readHex h)
  | case5 cs => intro h; cases h; simp only [List.length_cons]; omega
  | case6 c cs =>
    intro h
    obtain ⟨units, -, hunits⟩ := Option.map_eq_some_iff.1 h
    cases hunits
    simp

/-- The value of a literal, from behind its opening quote, and what comes after its closing one. -/
def readQuoted : List Char → Option (List Nat × List Char)
  | [] => none
  | c :: cs =>
    if c = '\x27' then some ([], cs)
    else if c = '\\' then
      match _h : readEscape cs with
      | none => none
      | some (us, rest) => (readQuoted rest).map fun (value, rest) => (us ++ value, rest)
    else if isBreak c then none
    else (readQuoted cs).map fun (value, rest) => (unitsOf c.toNat ++ value, rest)
termination_by cs => cs.length
decreasing_by
  · have := length_of_readEscape _h
    simp only [List.length_cons]
    omega
  · simp

inductive Literal where
  | text (value : List Nat)
  | object (properties : List (List Nat × Literal))
deriving Repr

/-- The key of a property: a name as long as it goes, or a literal. -/
def readKey : List Char → Option (List Nat × List Char)
  | [] => none
  | c :: cs =>
    if c = '\x27' then readQuoted cs
    else if startsIdentifier c then
      some ((c :: cs.takeWhile continuesIdentifier).flatMap fun c => unitsOf c.toNat,
        cs.dropWhile continuesIdentifier)
    else none

mutual

def readValue : Nat → List Char → Option (Literal × List Char)
  | 0, _ => none
  | fuel + 1, cs =>
    match cs with
    | '\x27' :: rest => (readQuoted rest).map fun (value, rest) => (.text value, rest)
    | '\x7b' :: rest =>
      (readProperties fuel (skipBlanks rest)).map fun (properties, rest) =>
        (.object properties, rest)
    | _ => none

def readProperties : Nat → List Char → Option (List (List Nat × Literal) × List Char)
  | 0, _ => none
  | fuel + 1, cs =>
    match cs with
    | '\x7d' :: rest => some ([], rest)
    | cs => do
      let (property, rest) ← readProperty fuel cs
      match skipBlanks rest with
      | ',' :: rest =>
        let (properties, rest) ← readProperties fuel (skipBlanks rest)
        some (property :: properties, rest)
      | '\x7d' :: rest => some ([property], rest)
      | _ => none

def readProperty : Nat → List Char → Option ((List Nat × Literal) × List Char)
  | 0, _ => none
  | fuel + 1, cs => do
    let (key, rest) ← readKey cs
    match skipBlanks rest with
    | ':' :: rest =>
      let (value, rest) ← readValue fuel (skipBlanks rest)
      some ((key, value), rest)
    | _ => none

end

/-- The one property that a text is, with nothing but blanks around it. -/
def read (text : String) : Option (List Nat × Literal) := do
  let (property, rest) ← readProperty text.toList.length (skipBlanks text.toList)
  if skipBlanks rest = [] then some property else none

theorem unitsOf_append_inj {c d : Char} {us vs : List Nat}
    (h : unitsOf c.toNat ++ us = unitsOf d.toNat ++ vs) : c = d ∧ us = vs := by
  -- A code point is no surrogate, so the first unit says whether there is a second one.
  have hc : c.toNat < 0xD800 ∨ 0xDFFF < c.toNat ∧ c.toNat < 0x110000 := c.valid
  have hd : d.toNat < 0xD800 ∨ 0xDFFF < d.toNat ∧ d.toNat < 0x110000 := d.valid
  suffices c.toNat = d.toNat ∧ us = vs from ⟨Char.toNat_inj.1 this.1, this.2⟩
  unfold unitsOf at h
  split at h <;> split at h <;>
    simp only [List.cons_append, List.nil_append, List.cons.injEq] at h
  · exact h
  · omega
  · omega
  · exact ⟨by omega, h.2.2⟩

theorem units_injective {s t : String} (h : units s = units t) : s = t := by
  suffices ∀ cs ds : List Char,
      (cs.flatMap fun c => unitsOf c.toNat) = (ds.flatMap fun c => unitsOf c.toNat) → cs = ds from
    String.toList_injective (this _ _ h)
  have hne : ∀ code, unitsOf code ≠ [] := by
    intro code
    unfold unitsOf
    split <;> simp
  intro cs
  induction cs with
  | nil =>
    intro ds h
    cases ds with
    | nil => rfl
    | cons d ds => simp [hne] at h
  | cons c cs ih =>
    intro ds h
    cases ds with
    | nil => simp [hne] at h
    | cons d ds =>
      obtain ⟨rfl, hrest⟩ := unitsOf_append_inj h
      rw [ih ds hrest]

theorem readQuoted_of_readEscape {cs rest : List Char} {us : List Nat}
    (h : readEscape cs = some (us, rest)) :
    readQuoted ('\\' :: cs) = (readQuoted rest).map fun (value, rest) => (us ++ value, rest) := by
  rw [readQuoted, if_neg (by decide), if_pos rfl]
  split
  · rename_i hnone
    rw [h] at hnone
    cases hnone
  · rename_i us' rest' hsome
    rw [h] at hsome
    cases hsome
    rfl

/-- One character of a value is read off what stands for it, and no more than that. -/
theorem readQuoted_escapeQuoted (c : Char) (rest : List Char) :
    readQuoted (Text.escapeQuoted c ++ rest) =
      (readQuoted rest).map fun (value, rest) => (unitsOf c.toNat ++ value, rest) := by
  by_cases hslash : c = '\\'
  · subst hslash
    exact readQuoted_of_readEscape rfl
  by_cases hquote : c = '\x27'
  · subst hquote
    exact readQuoted_of_readEscape rfl
  by_cases hfeed : c = '\n'
  · subst hfeed
    exact readQuoted_of_readEscape rfl
  by_cases hreturn : c = '\r'
  · subst hreturn
    exact readQuoted_of_readEscape rfl
  by_cases hline : c = '\u2028'
  · subst hline
    exact @readQuoted_of_readEscape (['u', '2', '0', '2', '8'] ++ rest) rest [0x2028] rfl
  by_cases hparagraph : c = '\u2029'
  · subst hparagraph
    exact @readQuoted_of_readEscape (['u', '2', '0', '2', '9'] ++ rest) rest [0x2029] rfl
  have hbreak : isBreak c = false := by simp [isBreak, hfeed, hreturn, hline, hparagraph]
  have hself : Text.escapeQuoted c = [c] := by
    simp [Text.escapeQuoted, hslash, hquote, hfeed, hreturn, hline, hparagraph]
  rw [hself, List.singleton_append, readQuoted, if_neg hquote, if_neg hslash, hbreak,
    if_neg Bool.false_ne_true]

/-- A value does not end its literal: the literal goes to its own closing quote. -/
theorem readQuoted_escaped (s : String) (rest : List Char) :
    readQuoted (Text.escaped s ++ '\x27' :: rest) = some (units s, rest) := by
  unfold Text.escaped units
  induction s.toList with
  | nil => rw [List.flatMap_nil, List.nil_append, readQuoted, if_pos rfl, List.flatMap_nil]
  | cons c cs ih =>
    rw [List.flatMap_cons, List.append_assoc, readQuoted_escapeQuoted, ih, List.flatMap_cons]
    rfl

theorem startsIdentifier_eq (c : Char) : startsIdentifier c = Text.startsName c := by
  unfold startsIdentifier Text.startsName
  cases c.isAlpha <;> cases c == '_' <;> cases c == '$' <;> rfl

theorem continuesIdentifier_eq (c : Char) : continuesIdentifier c = Text.continuesName c := by
  unfold continuesIdentifier startsIdentifier Text.continuesName Char.isAlphanum
  cases c.isAlpha <;> cases c == '_' <;> cases c == '$' <;> cases c.isDigit <;> rfl

/-- A key that stands without quotes is a name, and every other key is in quotes. -/
theorem readKey_propertyKey (key : String) (rest : List Char) :
    readKey (Text.propertyKey key ++ ':' :: rest) = some (units key, ':' :: rest) := by
  unfold Text.propertyKey
  split
  · rename_i hplain
    have hcolon : continuesIdentifier ':' = false := by decide
    unfold units
    cases hkey : key.toList with
    | nil => simp [hkey, Text.isPlainName] at hplain
    | cons c cs =>
      rw [hkey, Text.isPlainName, Bool.and_eq_true, List.all_eq_true] at hplain
      obtain ⟨hstart, hall⟩ := hplain
      have hname : startsIdentifier c = true := by rw [startsIdentifier_eq, hstart]
      have hquote : c ≠ '\x27' := by
        rintro rfl
        exact absurd hstart (by decide)
      have hcontinue : ∀ d ∈ cs, continuesIdentifier d = true := by
        intro d hd
        rw [continuesIdentifier_eq, hall d hd]
      rw [List.cons_append, readKey, if_neg hquote, if_pos hname,
        List.takeWhile_append_of_pos hcontinue, List.dropWhile_append_of_pos hcontinue,
        List.takeWhile_cons_of_neg (by simp [hcolon]),
        List.dropWhile_cons_of_neg (by simp [hcolon]), List.append_nil]
  · rw [Text.singleQuoted, List.cons_append, List.append_assoc, List.singleton_append, readKey,
      if_pos rfl, readQuoted_escaped]

theorem not_blank_of_startsName {c : Char} (h : Text.startsName c = true) :
    isBlank c = false ∧ c ≠ '\x7d' := by
  constructor
  · cases hblank : isBlank c with
    | false => rfl
    | true =>
      simp only [isBlank, isBreak, Bool.or_eq_true, beq_iff_eq, or_assoc] at hblank
      rcases hblank with rfl | rfl | rfl | rfl | rfl | rfl | rfl | rfl | rfl | rfl <;>
        exact absurd h (by decide)
  · rintro rfl
    exact absurd h (by decide)

/-- A key starts with its quote or a letter: nothing is skipped before it, and it closes nothing. -/
theorem exists_head_propertyKey (key : String) :
    ∃ c cs, Text.propertyKey key = c :: cs ∧ isBlank c = false ∧ c ≠ '\x7d' := by
  unfold Text.propertyKey
  split
  · rename_i hplain
    cases hkey : key.toList with
    | nil => simp [hkey, Text.isPlainName] at hplain
    | cons c cs =>
      rw [hkey, Text.isPlainName, Bool.and_eq_true] at hplain
      obtain ⟨hblank, hbrace⟩ := not_blank_of_startsName hplain.1
      exact ⟨c, cs, rfl, hblank, hbrace⟩
  · exact ⟨'\x27', _, rfl, by decide, by decide⟩

theorem skipBlanks_propertyKey (key : String) (rest : List Char) :
    skipBlanks (Text.propertyKey key ++ rest) = Text.propertyKey key ++ rest := by
  obtain ⟨c, cs, hkey, hblank, -⟩ := exists_head_propertyKey key
  rw [hkey, List.cons_append, skipBlanks, List.dropWhile_cons_of_neg (by simp [hblank])]

/-- What an entry is read as. -/
def propertyOf (entry : ConfigEntry) : List Nat × Literal :=
  (units entry.key, .text (units entry.value))

theorem readValue_singleQuoted (s : String) (fuel : Nat) (rest : List Char) :
    readValue (fuel + 1) (skipBlanks (' ' :: (Text.singleQuoted s ++ rest))) =
      some (.text (units s), rest) := by
  have hskip : skipBlanks (' ' :: (Text.singleQuoted s ++ rest)) =
      '\x27' :: (Text.escaped s ++ '\x27' :: rest) := by
    rw [Text.singleQuoted, List.cons_append, List.append_assoc]
    rfl
  rw [hskip, readValue, readQuoted_escaped]
  rfl

theorem readProperty_of_value (key : String) {fuel : Nat} {text rest : List Char} {value : Literal}
    (h : readValue fuel (skipBlanks text) = some (value, rest)) :
    readProperty (fuel + 1) (Text.propertyKey key ++ ':' :: text) =
      some ((units key, value), rest) := by
  have hskip : skipBlanks (':' :: text) = ':' :: text := rfl
  rw [readProperty, readKey_propertyKey]
  simp only [Option.bind_eq_bind, Option.bind_some, hskip, h]

/-- A property and a comma come before the properties that follow. -/
theorem readProperties_cons {fuel : Nat} {key : String} {text rest rest' : List Char}
    {property : List Nat × Literal} {properties : List (List Nat × Literal)}
    (h : readProperty fuel (Text.propertyKey key ++ text) = some (property, ',' :: rest))
    (hs : readProperties fuel (skipBlanks rest) = some (properties, rest')) :
    readProperties (fuel + 1) (Text.propertyKey key ++ text) =
      some (property :: properties, rest') := by
  obtain ⟨c, cs, hkey, -, hbrace⟩ := exists_head_propertyKey key
  have hskip : skipBlanks (',' :: rest) = ',' :: rest := rfl
  rw [hkey, List.cons_append] at h ⊢
  rw [readProperties]
  · simp only [h, Option.bind_eq_bind, Option.bind_some, hskip, hs]
  · intro _ hcons
    exact hbrace (List.cons.inj hcons).1

theorem readProperties_lines (entries : List ConfigEntry) (fuel : Nat) (rest : List Char) :
    readProperties (fuel + entries.length + 3)
        (skipBlanks (entries.flatMap ConfigEntry.line ++ ' ' :: ' ' :: '\x7d' :: rest)) =
      some (entries.map propertyOf, rest) := by
  induction entries with
  | nil => rfl
  | cons entry entries ih =>
    have hline : ∀ cs, skipBlanks (entry.line ++ cs) =
        Text.propertyKey entry.key ++
          ':' :: ' ' :: (Text.singleQuoted entry.value ++ ',' :: '\n' :: cs) := by
      intro cs
      unfold ConfigEntry.line
      simp only [List.append_assoc, List.cons_append, List.nil_append]
      exact skipBlanks_propertyKey entry.key _
    have hvalue := readProperty_of_value entry.key (readValue_singleQuoted entry.value
      (fuel + entries.length + 1) (',' :: '\n' ::
        (entries.flatMap ConfigEntry.line ++ ' ' :: ' ' :: '\x7d' :: rest)))
    rw [List.flatMap_cons, List.append_assoc, hline, List.map_cons]
    exact readProperties_cons hvalue ih

theorem length_le_flatMap_line (entries : List ConfigEntry) :
    entries.length ≤ (entries.flatMap ConfigEntry.line).length := by
  induction entries with
  | nil => exact Nat.le_refl _
  | cons entry entries ih =>
    have hline : 0 < entry.line.length := by
      unfold ConfigEntry.line
      simp
    rw [List.flatMap_cons, List.length_append, List.length_cons]
    omega

/-- The value of a field, with the comma that may follow it. -/
theorem readValue_entries (entries : List ConfigEntry) (fuel : Nat) (rest : List Char) :
    readValue (fuel + entries.length + 4) (skipBlanks (' ' :: '\x7b' :: '\n' ::
        (entries.flatMap ConfigEntry.line ++ ' ' :: ' ' :: '\x7d' :: rest))) =
      some (.object (entries.map propertyOf), rest) := by
  have hskip : ∀ cs, skipBlanks (' ' :: '\x7b' :: '\n' :: cs) = '\x7b' :: '\n' :: cs := fun _ => rfl
  have hline : ∀ cs, skipBlanks ('\n' :: cs) = skipBlanks cs := fun _ => rfl
  rw [hskip, readValue]
  simp only [hline, readProperties_lines, Option.map_some]

/-- The text of a field without its indent. -/
def fieldChars (key : String) (entries : List ConfigEntry) : List Char :=
  Text.propertyKey key ++ ':' :: ' ' :: '\x7b' :: '\n' ::
    (entries.flatMap ConfigEntry.line ++ [' ', ' ', '\x7d'])

theorem toList_renderField (key : String) (entries : List ConfigEntry) :
    (renderField key entries).toList = ' ' :: ' ' :: fieldChars key entries := by
  unfold renderField fieldChars
  rw [String.toList_ofList]
  simp only [List.append_assoc, List.cons_append, List.nil_append]
  rfl

theorem skipBlanks_fieldChars (key : String) (entries : List ConfigEntry) :
    skipBlanks (fieldChars key entries) = fieldChars key entries :=
  skipBlanks_propertyKey key _

theorem getLast?_fieldChars (key : String) (entries : List ConfigEntry) :
    (fieldChars key entries).getLast? = some '\x7d' := by
  simp [fieldChars, List.getLast?_append, List.getLast?_cons]

theorem readProperty_fieldChars (key : String) (entries : List ConfigEntry) {fuel : Nat}
    (h : (fieldChars key entries).length ≤ fuel) :
    readProperty fuel (fieldChars key entries) =
      some ((units key, .object (entries.map propertyOf)), []) := by
  obtain ⟨spare, hspare⟩ : ∃ spare, fuel = spare + entries.length + 4 + 1 := by
    have hle := length_le_flatMap_line entries
    refine ⟨fuel - (entries.length + 5), ?_⟩
    simp only [fieldChars, List.length_cons, List.length_append, List.length_nil] at h
    omega
  rw [hspare]
  exact readProperty_of_value key (readValue_entries entries spare [])

/-- What the text of a field is read as. -/
theorem read_fieldChars (key : String) (entries : List ConfigEntry) :
    read (String.ofList (fieldChars key entries)) =
      some (units key, .object (entries.map propertyOf)) := by
  rw [read, String.toList_ofList, skipBlanks_fieldChars,
    readProperty_fieldChars key entries (Nat.le_refl _)]
  rfl

/-- It is read so behind its indent too. -/
theorem read_renderField (key : String) (entries : List ConfigEntry) :
    read (renderField key entries) = some (units key, .object (entries.map propertyOf)) := by
  have hskip : skipBlanks (renderField key entries).toList = fieldChars key entries := by
    rw [toList_renderField]
    exact skipBlanks_fieldChars key entries
  have hfuel : (fieldChars key entries).length ≤ (renderField key entries).toList.length := by
    rw [toList_renderField, List.length_cons, List.length_cons]
    omega
  rw [read, hskip, readProperty_fieldChars key entries hfuel]
  rfl

/-- No other field has the same text. -/
theorem renderField_injective {key key' : String} {entries entries' : List ConfigEntry}
    (h : renderField key' entries' = renderField key entries) : key' = key ∧ entries' = entries := by
  have hread := (read_renderField key' entries').symm.trans
    ((congrArg read h).trans (read_renderField key entries))
  simp only [Option.some.injEq, Prod.mk.injEq, Literal.object.injEq] at hread
  refine ⟨units_injective hread.1, (List.map_inj_right ?_).1 hread.2⟩
  rintro ⟨k, v⟩ ⟨k', v'⟩ hentry
  simp only [propertyOf, Prod.mk.injEq, Literal.text.injEq] at hentry
  rw [units_injective hentry.1, units_injective hentry.2]

end Codemod.ObjectLiteral
