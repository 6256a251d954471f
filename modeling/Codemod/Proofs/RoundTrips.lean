import Codemod.Chain.Codec
import Codemod.Setup.Settings
import Codemod.Staging.Record
import Codemod.Report.Document
import Codemod.Proofs.JsonLayouts

/-!
Values that come back from their JSON forms.

`ofJson?_toJson` says of each type that what was encoded is decoded to the same value; a member that
is left out is decoded to a part that is missing. Every encoding is `Plain` – no member stands in it
twice, and its numbers are whole and of 64 bits –, so that the texts written of it are read back to
it. `Lossless` puts the two together.
-/
namespace Codemod

namespace Json

def present (members : List (String × Option Json)) : List (String × Json) :=
  members.filterMap fun (k, v) => v.map fun x => (k, x)

theorem objectOf_eq (members : List (String × Option Json)) :
    objectOf members = object (present members) := rfl

@[simp] theorem lookup_nil (name : String) : lookup name [] = none := rfl

@[simp] theorem lookup_cons (name k : String) (v : Json) (rest : List (String × Json)) :
    lookup name ((k, v) :: rest) = if k = name then some v else lookup name rest := rfl

@[simp] theorem lookup_present_nil (name : String) : lookup name (present []) = none := rfl

@[simp] theorem lookup_present_cons (name k : String) (v : Option Json)
    (rest : List (String × Option Json)) :
    lookup name (present ((k, v) :: rest)) =
      if k = name then v.or (lookup name (present rest)) else lookup name (present rest) := by
  cases v with
  | none => simp [present]
  | some v => simp [present]

section decoders

variable {α : Type} {encode : α → Json} {decode : Json → Option α}

@[simp] theorem string?_string (s : String) : string? (string s) = some s := rfl

@[simp] theorem nat?_ofNat (n : Nat) : nat? (ofNat n) = some n := by simp [nat?, ofNat]

@[simp] theorem bool?_bool (b : Bool) : bool? (bool b) = some b := rfl

theorem list?_array_map {items : List α} (h : ∀ item ∈ items, decode (encode item) = some item) :
    list? decode (array (items.map encode)) = some items := by
  rw [list?]
  induction items with
  | nil => rfl
  | cons item rest ih =>
    obtain ⟨hitem, hrest⟩ := List.forall_mem_cons.1 h
    simp [hitem, ih hrest]

def maybe (decode : Json → Option α) : Option Json → Option (Option α)
  | none | some null => some none
  | some value => (decode value).map some

theorem optField?_eq (members : List (String × Json)) (name : String) :
    optField? members name decode = maybe decode (lookup name members) := rfl

/-- A part that may be missing comes back, if it does where it is there and is not null. -/
theorem maybe_map {value : Option α}
    (h : ∀ x ∈ value, decode (encode x) = some x ∧ encode x ≠ null) :
    maybe decode (value.map encode) = some value := by
  cases value with
  | none => rfl
  | some x =>
    obtain ⟨hx, hnull⟩ := h x rfl
    simp only [Option.map_some, maybe, hx]

@[simp] theorem maybe_map_string (value : Option String) :
    maybe string? (value.map string) = some value :=
  maybe_map fun s _ => ⟨rfl, by simp⟩

@[simp] theorem maybe_map_path (value : Option Path) :
    maybe Path.ofJson? (value.map Path.toJson) = some value :=
  maybe_map fun p _ => ⟨rfl, by simp [Path.toJson]⟩

end decoders

end Json

open Json

@[simp] theorem Path.ofJson?_toJson (p : Path) : ofJson? p.toJson = some p := rfl

theorem ConfigEntry.ofJson?_toJson (entry : ConfigEntry) : ofJson? entry.toJson = some entry := by
  simp [ofJson?, toJson, record?, field?]

theorem Change.ofJson?_toJson (change : Change) : ofJson? change.toJson = some change := by
  cases change with
  | appendField declarator key entries =>
    have hentries : list? ConfigEntry.ofJson? (array (entries.map ConfigEntry.toJson)) =
        some entries := list?_array_map fun entry _ => entry.ofJson?_toJson
    simp [ofJson?, toJson, objectOf_eq, variant?, record?, field?, optField?_eq, label, hentries]
  | insertImport identifier module =>
    simp [ofJson?, toJson, objectOf_eq, variant?, record?, field?, label]
  | register callee property token =>
    simp [ofJson?, toJson, objectOf_eq, variant?, record?, field?, optField?_eq, label]

theorem AnchorPattern.ofJson?_toJson (pattern : AnchorPattern) :
    ofJson? pattern.toJson = some pattern := by
  cases pattern with
  | objectLiteralOf declarator =>
    simp [ofJson?, toJson, objectOf_eq, variant?, record?, optField?_eq]
  | afterLastImport => simp [ofJson?, toJson, variant?, record?]
  | namedImportsOf module => simp [ofJson?, toJson, variant?, record?, field?]
  | callArgumentList callee => simp [ofJson?, toJson, variant?, record?, field?]
  | callObjectProperty callee property => simp [ofJson?, toJson, variant?, record?, field?]

theorem Anchor.ofJson?_toJson (anchor : Anchor) : ofJson? anchor.toJson = some anchor := by
  simp [ofJson?, toJson, record?, field?, choice?]

theorem EditPlan.ofJson?_toJson (plan : EditPlan) : ofJson? plan.toJson = some plan := by
  cases plan with
  | noOp target rationale => simp [ofJson?, toJson, variant?, record?, field?]
  | insert target offset text rationale => simp [ofJson?, toJson, variant?, record?, field?]

theorem EditRecord.ofJson?_toJson (record : EditRecord) : ofJson? record.toJson = some record := by
  simp [ofJson?, toJson, record?, field?, fieldOr?]

theorem FailurePolicy.ofJson?_toJson (policy : FailurePolicy) :
    ofJson? policy.toJson = some policy := by
  simp [ofJson?, toJson, choice?]

theorem StepOutcome.ofJson?_toJson (outcome : StepOutcome) :
    ofJson? outcome.toJson = some outcome := by
  simp [ofJson?, toJson, choice?]

theorem ProjectFiles.ofJson?_toJson (project : ProjectFiles) :
    ofJson? project.toJson = some project := by
  simp [ofJson?, toJson, objectOf_eq, record?, field?, optField?_eq]

theorem FirebaseOptions.ofJson?_toJson (options : FirebaseOptions) :
    ofJson? options.toJson = some options := by
  obtain ⟨apiKey, authDomain, databaseUrl, projectId, storageBucket, messagingSenderId, appId⟩ :=
    options
  cases appId with
  | none => simp [ofJson?, toJson, entries, record?, field?, optField?_eq, maybe]
  | some id => simp [ofJson?, toJson, entries, record?, field?, optField?_eq, maybe]

theorem PackageVersions.ofJson?_toJson (versions : PackageVersions) :
    ofJson? versions.toJson = some versions := by
  simp [ofJson?, toJson, record?, fieldOr?]

theorem StepReport.ofJson?_toJson (entry : StepReport) : ofJson? entry.toJson = some entry := by
  simp [ofJson?, toJson, objectOf_eq, record?, field?, optField?_eq,
    StepOutcome.ofJson?_toJson]

theorem ToolInfo.ofJson?_toJson (tool : ToolInfo) : ofJson? tool.toJson = some tool := by
  simp [ofJson?, toJson, objectOf_eq, record?, field?, optField?_eq]

theorem Summary.ofJson?_toJson (summary : Summary) : ofJson? summary.toJson = some summary := by
  simp [ofJson?, toJson, record?, field?]

theorem FileChange.ofJson?_toJson (change : FileChange) : ofJson? change.toJson = some change := by
  simp [ofJson?, toJson, record?, field?]

namespace Uuid

/-- Groups that are joined by hyphens are taken apart again. -/
theorem ungroup_hyphenate {lengths : List Nat} {cs : List Char} (hne : lengths ≠ [])
    (h : cs.length = lengths.foldr (· + ·) 0) :
    ungroup lengths (hyphenate lengths cs) = some cs := by
  induction lengths generalizing cs with
  | nil => exact absurd rfl hne
  | cons n rest ih =>
    cases rest with
    | nil =>
      have hlength : cs.length = n := by simpa using h
      rw [hyphenate, ungroup, List.take_of_length_le (Nat.le_of_eq hlength), if_pos hlength]
    | cons m rest =>
      rw [List.foldr_cons] at h
      have htake : (cs.take n).length = n := by
        rw [List.length_take]
        omega
      have hdrop : (cs.drop n).length = (m :: rest).foldr (· + ·) 0 := by
        rw [List.length_drop]
        omega
      rw [hyphenate, ungroup]
      · rw [List.drop_append_of_le_length (by omega), List.drop_of_length_le (by omega),
          List.nil_append]
        simp only [ih (by simp) hdrop, Option.map_some]
        rw [List.take_append_of_le_length (by omega), List.take_of_length_le (by omega),
          List.take_append_drop]
      all_goals simp

theorem length_hyphenate {lengths : List Nat} {cs : List Char} (hne : lengths ≠ [])
    (h : cs.length = lengths.foldr (· + ·) 0) :
    (hyphenate lengths cs).length + 1 = cs.length + lengths.length := by
  induction lengths generalizing cs with
  | nil => exact absurd rfl hne
  | cons n rest ih =>
    cases rest with
    | nil =>
      have hlength : cs.length = n := by simpa using h
      rw [hyphenate, List.length_take]
      simp
      omega
    | cons m rest =>
      rw [List.foldr_cons] at h
      have hdrop : (cs.drop n).length = (m :: rest).foldr (· + ·) 0 := by
        rw [List.length_drop]
        omega
      have hmore := ih (by simp) hdrop
      rw [hyphenate]
      · simp only [List.length_append, List.length_cons, List.length_take, List.length_drop] at *
        omega
      all_goals simp

theorem ofText?_toText (id : Uuid) : ofText? id.toText = some id := by
  have hsum : (id.digits.map digitText).length = groups.foldr (· + ·) 0 := by
    rw [List.length_map, id.length_eq]
    rfl
  have hlength : (hyphenate groups (id.digits.map digitText)).length = 36 := by
    have := length_hyphenate (by decide) hsum
    rw [List.length_map, id.length_eq] at this
    exact Nat.succ.inj this
  have hdigits : (id.digits.map digitText).mapM digitOf? = some id.digits := by
    induction id.digits with
    | nil => rfl
    | cons d ds ih => simp [ih]
  simp only [ofText?, toText, String.toList_ofList, hlength, ungroup_hyphenate (by decide) hsum,
    Option.bind_some, ofDigits?, hdigits, id.length_eq, dif_pos]

theorem ofJson?_toJson (id : Uuid) : ofJson? id.toJson = some id := by
  rw [ofJson?, toJson, string?_string, Option.bind_some, ofText?_toText]

end Uuid

theorem Instant.ofJson?_toJson {instant : Instant} (h : ofText? instant.toText = some instant) :
    ofJson? instant.toJson = some instant := by
  rw [ofJson?, toJson, string?_string, Option.bind_some, h]

/-- The instants of a report come back from their texts. -/
structure Report.Stamped (report : Report) : Prop where
  started : Instant.ofText? report.startedAt.toText = some report.startedAt
  ended : ∀ instant ∈ report.endedAt, Instant.ofText? instant.toText = some instant

theorem Report.ofJson?_toJson {report : Report} (h : report.Stamped) :
    ofJson? report.toJson = some report := by
  have hid := report.runId.ofJson?_toJson
  have hstarted := Instant.ofJson?_toJson h.started
  have hended : maybe Instant.ofJson? (report.endedAt.map Instant.toJson) = some report.endedAt :=
    maybe_map fun instant hi => ⟨Instant.ofJson?_toJson (h.ended instant hi), by
      simp [Instant.toJson]⟩
  have htool : maybe ToolInfo.ofJson? (report.tool.map ToolInfo.toJson) = some report.tool :=
    maybe_map fun tool _ => ⟨tool.ofJson?_toJson, by simp [ToolInfo.toJson, objectOf]⟩
  have hsteps : list? StepReport.ofJson? (array (report.steps.map StepReport.toJson)) =
      some report.steps := list?_array_map fun entry _ => entry.ofJson?_toJson
  have hfiles : list? FileChange.ofJson? (array (report.files.map FileChange.toJson)) =
      some report.files := list?_array_map fun change _ => change.ofJson?_toJson
  have hsummary := report.summary.ofJson?_toJson
  by_cases hnone : report.files.isEmpty = true
  · have hempty : report.files = [] := List.isEmpty_iff.1 hnone
    simp [ofJson?, toJson, objectOf_eq, record?, field?, optField?_eq, fieldOr?, hid, hstarted,
      hended, htool, hsteps, hsummary, hempty]
    rw [← hempty]
  · simp [ofJson?, toJson, objectOf_eq, record?, field?, optField?_eq, fieldOr?, hid, hstarted,
      hended, htool, hsteps, hsummary, hnone, hfiles]

def decodeText {α : Type} (ofJson? : Json → Option α) (text : String) : Option α :=
  match Json.read text with
  | .ok json => ofJson? json
  | .error _ => none

/-- A way to encode values that nothing is lost in. -/
structure Lossless {α : Type} (toJson : α → Json) (ofJson? : Json → Option α)
    (valid fits : α → Prop) : Prop where
  /-- What was encoded is decoded. -/
  back : ∀ value, valid value → ofJson? (toJson value) = some value
  /-- Different values are encoded differently. -/
  distinct : ∀ value other, valid value → valid other → toJson value = toJson other → value = other
  /-- A part that is missing leaves no member behind. -/
  omits : ∀ value name, (toJson value).get? name ≠ some .null
  /-- A text over several lines, with blanks behind it, is decoded to what it was made from. -/
  pretty : ∀ value unit blanks, valid value → fits value → Blank unit.toList → Blank blanks →
    decodeText ofJson? ((toJson value).pretty unit ++ String.ofList blanks) = some value
  /-- So is a text without blanks. -/
  compact : ∀ value, valid value → fits value →
    decodeText ofJson? (toJson value).compact = some value

theorem Lossless.of_plain {α : Type} {toJson : α → Json} {ofJson? : Json → Option α}
    {valid fits : α → Prop} (hback : ∀ value, valid value → ofJson? (toJson value) = some value)
    (homits : ∀ value name, (toJson value).get? name ≠ some .null)
    (hplain : ∀ value, fits value → Plain depthLimit (toJson value)) :
    Lossless toJson ofJson? valid fits where
  back := hback
  distinct value other hv ho h := by
    have hsome := (hback value hv).symm.trans (h ▸ hback other ho)
    exact Option.some.inj hsome
  omits := homits
  pretty value unit blanks hv hf hu hb := by
    rw [decodeText, (hplain value hf).read_pretty hu hb]
    exact hback value hv
  compact value hv hf := by
    rw [decodeText, (hplain value hf).read_compact]
    exact hback value hv

namespace Json

theorem names_present_sublist (members : List (String × Option Json)) :
    ((present members).map Prod.fst).Sublist (members.map Prod.fst) := by
  induction members with
  | nil => exact .slnil
  | cons m rest ih =>
    obtain ⟨k, v⟩ := m
    cases v with
    | none => exact ih.cons k
    | some v => exact ih.cons_cons k

theorem mem_present {members : List (String × Option Json)} {m : String × Json}
    (h : m ∈ present members) : (m.1, some m.2) ∈ members := by
  obtain ⟨⟨k, v⟩, hmem, hv⟩ := List.mem_filterMap.1 h
  obtain ⟨x, rfl, rfl⟩ := Option.map_eq_some_iff.1 hv
  exact hmem

theorem plain_objectOf {n : Nat} {members : List (String × Option Json)}
    (hnames : (members.map Prod.fst).Nodup)
    (h : ∀ m ∈ members, ∀ value ∈ m.2, Plain n value) : Plain (n + 1) (objectOf members) :=
  .object ((names_present_sublist members).nodup hnames) fun m hm =>
    h _ (mem_present hm) m.2 rfl

theorem lookup_ne_null {members : List (String × Json)} (h : ∀ m ∈ members, m.2 ≠ null)
    (name : String) : lookup name members ≠ some null := by
  induction members with
  | nil => simp
  | cons m rest ih =>
    obtain ⟨hm, hrest⟩ := List.forall_mem_cons.1 h
    obtain ⟨k, v⟩ := m
    rw [lookup_cons]
    split
    · simpa using hm
    · exact ih hrest

theorem get?_objectOf_ne_null {members : List (String × Option Json)}
    (h : ∀ m ∈ members, m.2 ≠ some null) (name : String) :
    (objectOf members).get? name ≠ some null := by
  refine lookup_ne_null (fun m hm heq => h _ (mem_present hm) ?_) name
  rw [heq]

end Json

theorem plain_array_map {α : Type} {n : Nat} {encode : α → Json} {items : List α}
    (h : ∀ item ∈ items, Plain n (encode item)) : Plain (n + 1) (array (items.map encode)) :=
  .array (List.forall_mem_map.2 h)

theorem ConfigEntry.plain {n : Nat} (entry : ConfigEntry) : Plain (n + 1) entry.toJson :=
  .object (by simp) (by simp [Plain.string])

theorem Change.plain {n : Nat} (change : Change) : Plain (n + 3) change.toJson := by
  cases change with
  | appendField declarator key entries =>
    have hentries : Plain (n + 2) (array (entries.map ConfigEntry.toJson)) :=
      plain_array_map fun entry _ => entry.plain
    exact plain_objectOf (by simp) (by simp [Plain.string, hentries])
  | insertImport identifier module => exact plain_objectOf (by simp) (by simp [Plain.string])
  | register callee property token => exact plain_objectOf (by simp) (by simp [Plain.string])

theorem Change.omits (change : Change) (name : String) : change.toJson.get? name ≠ some .null := by
  cases change with
  | appendField declarator key entries => exact get?_objectOf_ne_null (by simp) name
  | insertImport identifier module => exact get?_objectOf_ne_null (by simp) name
  | register callee property token => exact get?_objectOf_ne_null (by simp) name

theorem AnchorPattern.plain {n : Nat} (pattern : AnchorPattern) : Plain (n + 1) pattern.toJson := by
  cases pattern with
  | objectLiteralOf declarator => exact plain_objectOf (by simp) (by simp [Plain.string])
  | afterLastImport => exact .object (by simp) (by simp [Plain.string])
  | namedImportsOf module => exact .object (by simp) (by simp [Plain.string])
  | callArgumentList callee => exact .object (by simp) (by simp [Plain.string])
  | callObjectProperty callee property => exact .object (by simp) (by simp [Plain.string])

theorem AnchorPattern.omits (pattern : AnchorPattern) (name : String) :
    pattern.toJson.get? name ≠ some .null := by
  cases pattern with
  | objectLiteralOf declarator => exact get?_objectOf_ne_null (by simp) name
  | afterLastImport => exact lookup_ne_null (by simp) name
  | namedImportsOf module => exact lookup_ne_null (by simp) name
  | callArgumentList callee => exact lookup_ne_null (by simp) name
  | callObjectProperty callee property => exact lookup_ne_null (by simp) name

theorem Anchor.plain {n : Nat} {anchor : Anchor} (h : anchor.offset < wholeLimit) :
    Plain (n + 1) anchor.toJson :=
  .object (by simp) (by simp [Plain.string, Plain.bool, Plain.ofNat h])

/-- The offset of a plan that has one is of 64 bits. -/
def EditPlan.Fits : EditPlan → Prop
  | noOp .. => True
  | insert _ offset _ _ => offset < wholeLimit

theorem EditPlan.plain {n : Nat} {plan : EditPlan} (h : plan.Fits) : Plain (n + 1) plan.toJson := by
  cases plan with
  | noOp target rationale => exact .object (by simp) (by simp [Plain.string, Path.toJson])
  | insert target offset text rationale =>
    have hoffset : offset < wholeLimit := h
    exact .object (by simp) (by simp [Plain.string, Path.toJson, Plain.ofNat hoffset])

theorem EditPlan.omits (plan : EditPlan) (name : String) :
    plan.toJson.get? name ≠ some .null := by
  cases plan with
  | noOp target rationale => exact lookup_ne_null (by simp [Path.toJson]) name
  | insert target offset text rationale => exact lookup_ne_null (by simp [Path.toJson, ofNat]) name

def EditRecord.Fits (record : EditRecord) : Prop :=
  record.offset < wholeLimit ∧ record.removed < wholeLimit

theorem EditRecord.plain {n : Nat} {record : EditRecord} (h : record.Fits) :
    Plain (n + 1) record.toJson :=
  .object (by simp) (by simp [Plain.string, Plain.ofNat h.1, Plain.ofNat h.2])

theorem ProjectFiles.plain {n : Nat} (project : ProjectFiles) : Plain (n + 1) project.toJson :=
  plain_objectOf (by simp) (by simp [Plain.string, Path.toJson])

theorem ProjectFiles.omits (project : ProjectFiles) (name : String) :
    project.toJson.get? name ≠ some .null :=
  get?_objectOf_ne_null (by simp [Path.toJson]) name

theorem FirebaseOptions.plain {n : Nat} (options : FirebaseOptions) :
    Plain (n + 1) options.toJson := by
  have hvalues : ∀ m ∈ options.entries.map fun entry => (entry.key, Json.string entry.value),
      Plain n m.2 := List.forall_mem_map.2 fun entry _ => .string entry.value
  refine .object ?_ hvalues
  cases hid : options.appId <;> simp [entries, hid]

theorem FirebaseOptions.omits (options : FirebaseOptions) (name : String) :
    options.toJson.get? name ≠ some .null :=
  lookup_ne_null (List.forall_mem_map.2 fun entry _ => by simp) name

theorem PackageVersions.plain {n : Nat} (versions : PackageVersions) :
    Plain (n + 1) versions.toJson :=
  .object (by simp) (by simp [Plain.string])

theorem StepReport.plain {n : Nat} (entry : StepReport) : Plain (n + 1) entry.toJson :=
  plain_objectOf (by simp) (by simp [Plain.string, Path.toJson, StepOutcome.toJson])

theorem ToolInfo.plain {n : Nat} (tool : ToolInfo) : Plain (n + 1) tool.toJson :=
  plain_objectOf (by simp) (by simp [Plain.string])

structure Summary.Fits (summary : Summary) : Prop where
  total : summary.total < wholeLimit
  applied : summary.applied < wholeLimit
  skipped : summary.skipped < wholeLimit
  warned : summary.warned < wholeLimit
  failed : summary.failed < wholeLimit

theorem Summary.plain {n : Nat} {summary : Summary} (h : summary.Fits) :
    Plain (n + 1) summary.toJson :=
  .object (by simp) (by
    simp [Plain.ofNat h.total, Plain.ofNat h.applied, Plain.ofNat h.skipped,
      Plain.ofNat h.warned, Plain.ofNat h.failed])

structure FileChange.Fits (change : FileChange) : Prop where
  before : change.sizeBefore < wholeLimit
  after : change.sizeAfter < wholeLimit
  edits : change.edits < wholeLimit

theorem FileChange.plain {n : Nat} {change : FileChange} (h : change.Fits) :
    Plain (n + 1) change.toJson :=
  .object (by simp) (by
    simp [Plain.string, Path.toJson, Plain.ofNat h.before, Plain.ofNat h.after,
      Plain.ofNat h.edits])

structure Report.Fits (report : Report) : Prop where
  files : ∀ change ∈ report.files, change.Fits
  summary : report.summary.Fits

theorem Report.plain {n : Nat} {report : Report} (h : report.Fits) :
    Plain (n + 3) report.toJson := by
  have hsteps : Plain (n + 2) (array (report.steps.map StepReport.toJson)) :=
    plain_array_map fun entry _ => entry.plain
  have hfiles : Plain (n + 2) (array (report.files.map FileChange.toJson)) :=
    plain_array_map fun change hm => FileChange.plain (h.files change hm)
  have hsummary : Plain (n + 2) report.summary.toJson := Summary.plain h.summary
  have htool : ∀ tool : ToolInfo, Plain (n + 2) tool.toJson := fun tool => tool.plain
  exact plain_objectOf (by simp) (by
    simp [Plain.string, hsteps, hfiles, hsummary, htool, Uuid.toJson, Instant.toJson])

theorem Report.omits (report : Report) (name : String) :
    report.toJson.get? name ≠ some .null :=
  get?_objectOf_ne_null (by
    simp [Uuid.toJson, Instant.toJson, ToolInfo.toJson, Summary.toJson, objectOf]) name

/-- A report says nothing of files where none has changed. -/
theorem Report.get?_files (report : Report) :
    report.toJson.get? "files" = none ↔ report.files = [] := by
  have hlookup : report.toJson.get? "files" =
      if report.files.isEmpty then none else some (array (report.files.map FileChange.toJson)) := by
    simp [toJson, objectOf_eq, get?]
  rw [hlookup]
  cases report.files <;> simp

/-- Every type that is written as JSON is written without a loss. -/
structure LosslessEncodings : Prop where
  change : Lossless Change.toJson Change.ofJson? (fun _ => True) (fun _ => True)
  pattern : Lossless AnchorPattern.toJson AnchorPattern.ofJson? (fun _ => True) (fun _ => True)
  anchor : Lossless Anchor.toJson Anchor.ofJson? (fun _ => True)
    (fun anchor => anchor.offset < wholeLimit)
  plan : Lossless EditPlan.toJson EditPlan.ofJson? (fun _ => True) EditPlan.Fits
  record : Lossless EditRecord.toJson EditRecord.ofJson? (fun _ => True) EditRecord.Fits
  policy : Lossless FailurePolicy.toJson FailurePolicy.ofJson? (fun _ => True) (fun _ => True)
  project : Lossless ProjectFiles.toJson ProjectFiles.ofJson? (fun _ => True) (fun _ => True)
  firebase : Lossless FirebaseOptions.toJson FirebaseOptions.ofJson? (fun _ => True)
    (fun _ => True)
  versions : Lossless PackageVersions.toJson PackageVersions.ofJson? (fun _ => True)
    (fun _ => True)
  report : Lossless Report.toJson Report.ofJson? Report.Stamped Report.Fits
  /-- A report says nothing of files where none has changed. -/
  files : ∀ report : Report, report.toJson.get? "files" = none ↔ report.files = []

theorem losslessEncodings : LosslessEncodings where
  change := .of_plain (fun change _ => change.ofJson?_toJson) Change.omits
    fun change _ => change.plain
  pattern := .of_plain (fun pattern _ => pattern.ofJson?_toJson) AnchorPattern.omits
    fun pattern _ => pattern.plain
  anchor := .of_plain (fun anchor _ => anchor.ofJson?_toJson)
    (fun _ => lookup_ne_null (by simp [ofNat])) fun _ h => Anchor.plain h
  plan := .of_plain (fun plan _ => plan.ofJson?_toJson) EditPlan.omits fun _ h => EditPlan.plain h
  record := .of_plain (fun record _ => record.ofJson?_toJson)
    (fun _ => lookup_ne_null (by simp [ofNat])) fun _ h => EditRecord.plain h
  policy := .of_plain (fun policy _ => policy.ofJson?_toJson) (fun _ _ => by
    simp [FailurePolicy.toJson, get?]) fun _ _ => .string _
  project := .of_plain (fun project _ => project.ofJson?_toJson) ProjectFiles.omits
    fun project _ => project.plain
  firebase := .of_plain (fun options _ => options.ofJson?_toJson) FirebaseOptions.omits
    fun options _ => options.plain
  versions := .of_plain (fun versions _ => versions.ofJson?_toJson)
    (fun _ => lookup_ne_null (by simp)) fun versions _ => versions.plain
  report := .of_plain (fun _ h => Report.ofJson?_toJson h) Report.omits fun _ h => Report.plain h
  files := Report.get?_files

def sampleReport : Report where
  schema := Report.schemaName
  tool := some ⟨"graft", none⟩
  runId := .ofRandom []
  startedAt := ⟨1700000000, 250000000⟩
  endedAt := some ⟨1700000001, 0⟩
  steps := [⟨"update-config", some ⟨"src/\"app\".ts"⟩, .success, "written\n"⟩]
  abortedBy := none
  files := []
  summary := ⟨1, 1, 0, 0, 0⟩

theorem stamped_sampleReport : sampleReport.Stamped where
  started := by
    simp only [Instant.ofText?, Instant.toText, String.toList_ofList]
    decide +kernel
  ended instant h := by
    obtain rfl := Option.some.inj h
    simp only [Instant.ofText?, Instant.toText, String.toList_ofList]
    decide +kernel

theorem losslessEncodings_sampleReport :
    sampleReport.Stamped ∧ sampleReport.Fits ∧
      Report.ofJson? sampleReport.toJson = some sampleReport ∧
      decodeText Report.ofJson? sampleReport.document = some sampleReport := by
  have hfits : sampleReport.Fits :=
    ⟨by simp [sampleReport], ⟨by decide, by decide, by decide, by decide, by decide⟩⟩
  have hunit : Blank "  ".toList := List.all_eq_true.1 (by decide)
  have hbreak : Blank ['\n'] := List.all_eq_true.1 (by decide)
  refine ⟨stamped_sampleReport, hfits, ?_, ?_⟩
  · exact losslessEncodings.report.back _ stamped_sampleReport
  · exact losslessEncodings.report.pretty _ "  " ['\n'] stamped_sampleReport hfits hunit hbreak

end Codemod
