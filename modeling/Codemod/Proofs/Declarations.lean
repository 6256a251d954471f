import Codemod.Chain.ManifestStep
import Codemod.Proofs.JsonLayouts
import Codemod.Proofs.ManifestTables

/-!
What is declared in a manifest.

A table gets what it lacks of a list of dependencies, each as it is listed first, and keeps what it
has. A table in order stays in order, and behind any other the new names follow as they are listed.
The manifest that is written is read as the old one but for the table.
-/
namespace Codemod.Manifest

open Json

section tables

variable {table : Table} {name : String} {value : Json} {dependency : Dependency}
  {dependencies : List Dependency}

theorem isSorted_iff : isSorted table = true ↔ (table.map Prod.fst).Pairwise (· ≤ ·) := by
  fun_induction isSorted table with
  | case1 first second rest ih =>
    change _ ↔ (first.1 :: (second :: rest).map Prod.fst).Pairwise (· ≤ ·)
    rw [Bool.and_eq_true, ih, decide_eq_true_eq, List.pairwise_cons]
    refine and_congr_left fun hrest => ?_
    constructor
    · intro h later hm
      rcases List.mem_cons.1 hm with rfl | hm
      · exact h
      · exact String.le_trans h ((List.pairwise_cons.1 hrest).1 later hm)
    · intro h
      exact h _ (List.mem_cons_self ..)
  | case2 table hshort =>
    match table with
    | [] => simp
    | [member] => simp
    | first :: second :: rest => exact absurd rfl (hshort first second rest)

theorem mem_names_insertSorted {other : String} :
    other ∈ (insertSorted name value table).map Prod.fst ↔
      other = name ∨ other ∈ table.map Prod.fst := by
  rw [((perm_insertSorted name value table).map Prod.fst).mem_iff, List.map_cons, List.mem_cons]

/-- A table in order is so with a new name among the others. -/
theorem pairwise_insertSorted (h : (table.map Prod.fst).Pairwise (· ≤ ·)) :
    ((insertSorted name value table).map Prod.fst).Pairwise (· ≤ ·) := by
  induction table with
  | nil => simp [insertSorted]
  | cons member rest ih =>
    obtain ⟨hfirst, hrest⟩ := List.pairwise_cons.1 h
    rw [insertSorted]
    split
    · rename_i hless
      have hle : name ≤ member.1 := Std.le_of_lt hless
      rw [List.map_cons, List.pairwise_cons]
      refine ⟨?_, h⟩
      intro later hm
      rcases List.mem_cons.1 hm with rfl | hm
      · exact hle
      · exact String.le_trans hle (hfirst later hm)
    · rename_i hless
      rw [List.map_cons, List.pairwise_cons]
      refine ⟨?_, ih hrest⟩
      intro later hm
      rcases mem_names_insertSorted.1 hm with rfl | hm
      · exact String.not_lt.1 hless
      · exact hfirst later hm

/-- Different names in order are strictly in order. -/
theorem pairwise_lt_of_le {names : List String} (h : names.Pairwise (· ≤ ·)) (hn : names.Nodup) :
    names.Pairwise (· < ·) :=
  (h.and hn).imp fun ⟨hle, hne⟩ => Std.lt_of_le_of_ne hle hne

theorem sublist_insertSorted (name : String) (value : Json) (table : Table) :
    table.Sublist (insertSorted name value table) := by
  induction table with
  | nil => exact List.nil_sublist _
  | cons member rest ih =>
    rw [insertSorted]
    split
    · exact List.sublist_cons_self ..
    · exact ih.cons_cons member

theorem sublist_declare (table : Table) (dependency : Dependency) :
    table.Sublist (declare table dependency) := by
  unfold declare
  split
  · exact List.Sublist.refl _
  · split
    · exact sublist_insertSorted ..
    · exact List.sublist_append_left ..

theorem sublist_foldl (dependencies : List Dependency) (table : Table) :
    table.Sublist (dependencies.foldl declare table) := by
  induction dependencies generalizing table with
  | nil => exact List.Sublist.refl _
  | cons dependency rest ih => exact (sublist_declare table dependency).trans (ih _)

/-- What the first listing of a name declares it with. -/
def Lists (dependencies : List Dependency) (name : String) (value : Json) : Prop :=
  ∃ first, dependencies.find? (fun dependency => dependency.name == name) = some first ∧
    value = .string first.version

theorem mem_foldl : (name, value) ∈ dependencies.foldl declare table ↔
    (name, value) ∈ table ∨ name ∉ table.map Prod.fst ∧ Lists dependencies name value := by
  induction dependencies generalizing table with
  | nil => simp [Lists]
  | cons dependency rest ih =>
    have hperm := perm_declare table dependency
    have hnames : name ∈ (declare table dependency).map Prod.fst ↔
        name ∈ table.map Prod.fst ∨ name = dependency.name := by
      rw [← declares_iff, ← declares_iff, declares_declare]
    rw [List.foldl_cons, ih, hnames, hperm.mem_iff]
    by_cases hn : name = dependency.name
    · have hfirst : Lists (dependency :: rest) name value ↔ value = .string dependency.version := by
        simp [Lists, hn]
      rw [hfirst, ← declares_iff, hn]
      split
      · rename_i hd
        simp [hd]
      · rename_i hd
        have hfresh : (dependency.name, value) ∉ table := fun hm =>
          hd (declares_iff.2 (List.mem_map_of_mem hm))
        simp [hd, hfresh]
    · have hother : Lists (dependency :: rest) name value ↔ Lists rest name value := by
        simp [Lists, Ne.symm hn]
      rw [hother]
      split
      · simp [hn]
      · simp [hn]

theorem nodup_foldl (h : (table.map Prod.fst).Nodup) :
    ((dependencies.foldl declare table).map Prod.fst).Nodup := by
  induction dependencies generalizing table with
  | nil => exact h
  | cons dependency rest ih => exact ih (nodup_declare h dependency)

theorem pairwise_foldl (h : (table.map Prod.fst).Pairwise (· ≤ ·)) :
    ((dependencies.foldl declare table).map Prod.fst).Pairwise (· ≤ ·) := by
  induction dependencies generalizing table with
  | nil => exact h
  | cons dependency rest ih =>
    refine ih ?_
    unfold declare
    split
    · exact h
    · rw [if_pos (isSorted_iff.2 h)]
      exact pairwise_insertSorted h

/-- The names of a list that a table lacks, each where it is listed first. -/
def lacking (table : Table) (dependencies : List Dependency) : List String :=
  ((dependencies.map Dependency.name).filter fun name => !declares table name).eraseDups

/-- Behind a table out of order the new names follow as they are listed. -/
theorem exists_foldl_eq_append (h : ¬ (table.map Prod.fst).Pairwise (· ≤ ·)) :
    ∃ added, dependencies.foldl declare table = table ++ added ∧
      added.map Prod.fst = lacking table dependencies := by
  induction dependencies generalizing table with
  | nil => exact ⟨[], by simp, rfl⟩
  | cons dependency rest ih =>
    by_cases hd : declares table dependency.name = true
    · have hsame : declare table dependency = table := by rw [declare, if_pos hd]
      obtain ⟨added, hadded, hnames⟩ := ih h
      refine ⟨added, by rw [List.foldl_cons, hsame, hadded], ?_⟩
      rw [hnames, lacking, lacking, List.map_cons, List.filter_cons_of_neg (by simp [hd])]
    · have hsorted : ¬ isSorted table = true := fun hs => h (isSorted_iff.1 hs)
      have hlast : declare table dependency =
          table ++ [(dependency.name, .string dependency.version)] := by
        rw [declare, if_neg hd, if_neg hsorted]
      have hmore : ¬ ((declare table dependency).map Prod.fst).Pairwise (· ≤ ·) := fun hp =>
        h (hp.sublist ((sublist_declare table dependency).map Prod.fst))
      obtain ⟨added, hadded, hnames⟩ := ih hmore
      refine ⟨(dependency.name, .string dependency.version) :: added, ?_, ?_⟩
      · rw [List.foldl_cons, hadded, hlast, List.append_assoc, List.singleton_append]
      · have hrest : ∀ name, (!declares (declare table dependency) name) =
            ((!declares table name) && !name == dependency.name) := by
          intro name
          rw [← Bool.not_or, Bool.eq_iff_iff]
          simp only [Bool.not_eq_true', ← Bool.not_eq_true, declares_declare, Bool.or_eq_true,
            beq_iff_eq]
        rw [List.map_cons, hnames, lacking, lacking, List.map_cons,
          List.filter_cons_of_pos (by simp [hd]), List.eraseDups_cons, List.filter_filter]
        simp only [hrest, Bool.and_comm]

end tables

/-- A table has what another one has, and of a list of dependencies what that one lacks. -/
structure Completes (dependencies : List Dependency) (table table' : Table) : Prop where
  kept : table.Sublist table'
  distinct : (table'.map Prod.fst).Nodup
  mem_iff : ∀ name value, (name, value) ∈ table' ↔
    (name, value) ∈ table ∨ name ∉ table.map Prod.fst ∧ Lists dependencies name value
  sorted : (table.map Prod.fst).Pairwise (· ≤ ·) → (table'.map Prod.fst).Pairwise (· < ·)
  appended : ¬ (table.map Prod.fst).Pairwise (· ≤ ·) →
    ∃ added, table' = table ++ added ∧ added.map Prod.fst = lacking table dependencies

theorem completes_foldl {table : Table} (h : (table.map Prod.fst).Nodup)
    (dependencies : List Dependency) :
    Completes dependencies table (dependencies.foldl declare table) where
  kept := sublist_foldl dependencies table
  distinct := nodup_foldl h
  mem_iff _ _ := mem_foldl
  sorted hs := pairwise_lt_of_le (pairwise_foldl hs) (nodup_foldl h)
  appended := exists_foldl_eq_append

/-- Members with a value for one name, and else as other members are. A new name comes last. -/
structure Sets (name : String) (value : Json) (members members' : Table) : Prop where
  value : lookup name members' = some value
  others : (members'.filter fun member => member.1 ≠ name) =
    members.filter fun member => member.1 ≠ name
  names : members'.map Prod.fst = if name ∈ members.map Prod.fst then members.map Prod.fst
    else members.map Prod.fst ++ [name]

theorem sets_put (name : String) (value : Json) (members : Table) :
    Sets name value members (put name value members) where
  value := lookup_put_self name value members
  others := by
    induction members with
    | nil => simp [put]
    | cons member rest ih =>
      rw [put]
      split
      · rename_i hn
        simp [hn]
      · rw [List.filter_cons, List.filter_cons, ih]
  names := by
    split
    · rename_i hm
      exact names_put_of_mem hm
    · rename_i hm
      rw [put_of_not_mem hm, List.map_append, List.map_singleton]

/-- The members of a manifest, and those of one that declares what it lacks of a list. -/
def Updates (dependencies : List Dependency) (members members' : Table) : Prop :=
  ∃ table table', tableOf members = .ok table ∧ Completes dependencies table table' ∧
    Sets "dependencies" (.object table') members members'

/-- What makes a text no manifest that can be edited. -/
inductive Misshapen (text : String) : ShapeError → Prop
  | notJson {fault : Fault} : read text = .error fault → Misshapen text (.notJson fault)
  | notObject {json : Json} : read text = .ok json → (∀ members, json ≠ .object members) →
    Misshapen text .notObject
  | tableNotObject {members : Table} {value : Json} : read text = .ok (.object members) →
    lookup "dependencies" members = some value → (∀ table, value ≠ .object table) →
    Misshapen text .tableNotObject

section manifests

variable {text text' : String} {members table : Table} {dependencies : List Dependency}

theorem declareAll?_of_misshapen {shape : ShapeError} (h : Misshapen text shape) :
    declareAll? text dependencies = .error shape := by
  cases h with
  | notJson hr => simp only [declareAll?, membersOf, hr, bind, Except.bind]
  | @notObject json hr hj =>
    cases json with
    | object members => exact absurd rfl (hj members)
    | _ => simp only [declareAll?, membersOf, hr, bind, Except.bind]
  | @tableNotObject members value hr hl hv =>
    cases value with
    | object table => exact absurd rfl (hv table)
    | _ => simp only [declareAll?, membersOf, hr, tableOf, hl, bind, Except.bind]

/-- A text is misshapen, or a manifest with a table. -/
theorem misshapen_or (text : String) : (∃ shape, Misshapen text shape) ∨
    ∃ members table, read text = .ok (.object members) ∧ tableOf members = .ok table := by
  cases hr : read text with
  | error fault => exact .inl ⟨_, .notJson hr⟩
  | ok json =>
    cases json with
    | object members =>
      cases hl : lookup "dependencies" members with
      | none => exact .inr ⟨members, [], rfl, by rw [tableOf, hl]⟩
      | some value =>
        cases value with
        | object table => exact .inr ⟨members, table, rfl, by rw [tableOf, hl]⟩
        | _ => exact .inl ⟨_, .tableNotObject hr hl (by simp)⟩
    | _ => exact .inl ⟨_, .notObject hr (by simp)⟩

theorem declareAll?_eq_error_iff {shape : ShapeError} :
    declareAll? text dependencies = .error shape ↔ Misshapen text shape := by
  refine ⟨?_, declareAll?_of_misshapen⟩
  intro h
  rcases misshapen_or text with ⟨found, hfound⟩ | ⟨members, table, hm, ht⟩
  · obtain rfl := Except.error.inj ((declareAll?_of_misshapen hfound).symm.trans h)
    exact hfound
  · rw [declareAll?_eq hm ht] at h
    cases h

/-- A manifest is left as it is if its table has all the names already. -/
theorem declareAll?_eq_none_iff :
    declareAll? text dependencies = .ok none ↔
      ∃ members table, read text = .ok (.object members) ∧ tableOf members = .ok table ∧
        ∀ dependency ∈ dependencies, dependency.name ∈ table.map Prod.fst := by
  simp only [← declares_iff]
  constructor
  · intro h
    rcases misshapen_or text with ⟨shape, hshape⟩ | ⟨members, table, hm, ht⟩
    · rw [declareAll?_of_misshapen hshape] at h
      cases h
    · rw [declareAll?_eq hm ht] at h
      split at h
      · rename_i hall
        exact ⟨members, table, hm, ht, List.all_eq_true.1 hall⟩
      · cases h
  · rintro ⟨members, table, hm, ht, hall⟩
    rw [declareAll?_eq hm ht, if_pos (List.all_eq_true.2 hall)]

theorem nodup_of_tableOf (h : (object members).Tidy) (ht : tableOf members = .ok table) :
    (table.map Prod.fst).Nodup :=
  (tidy_object_iff.1 (tidy_of_tableOf h ht)).1

theorem updates_put (h : (object members).Tidy) (ht : tableOf members = .ok table)
    (dependencies : List Dependency) :
    Updates dependencies members
      (put "dependencies" (.object (dependencies.foldl declare table)) members) :=
  ⟨table, _, ht, completes_foldl (nodup_of_tableOf h ht) dependencies, sets_put ..⟩

/-- All that was to be declared is. -/
theorem Updates.declared {members' : Table} (h : Updates dependencies members members') :
    ∃ table', tableOf members' = .ok table' ∧
      ∀ dependency ∈ dependencies, dependency.name ∈ table'.map Prod.fst := by
  obtain ⟨table, table', -, hcompletes, hsets⟩ := h
  refine ⟨table', by simp [tableOf, hsets.value], ?_⟩
  intro dependency hd
  by_cases hn : dependency.name ∈ table.map Prod.fst
  · exact (hcompletes.kept.map Prod.fst).subset hn
  · have hlisted : (dependencies.find? fun d => d.name == dependency.name).isSome = true :=
      List.find?_isSome.2 ⟨dependency, hd, beq_self_eq_true dependency.name⟩
    obtain ⟨first, hfirst⟩ := Option.isSome_iff_exists.1 hlisted
    have hmem := (hcompletes.mem_iff dependency.name _).2 (.inr ⟨hn, first, hfirst, rfl⟩)
    exact List.mem_map_of_mem hmem

/-- A manifest that is written and read back is so with its dependencies declared. -/
theorem plain_put_table {n : Nat} (h : Plain (n + 2) (.object members))
    (ht : tableOf members = .ok table) (dependencies : List Dependency) :
    Plain (n + 2)
      (.object (put "dependencies" (.object (dependencies.foldl declare table)) members)) := by
  cases h with
  | object hnames hmembers =>
    have htable : Plain (n + 1) (.object table) := by
      unfold tableOf at ht
      split at ht
      · obtain rfl := Except.ok.inj ht
        exact .object (by simp) (by simp)
      · rename_i hl
        obtain rfl := Except.ok.inj ht
        exact hmembers _ (mem_of_lookup hl)
      · cases ht
    cases htable with
    | object hkeys hvalues =>
      refine .object (nodup_put hnames) (forall_mem_put hmembers (.object (nodup_foldl hkeys) ?_))
      rintro ⟨name, value⟩ hm
      rcases mem_foldl.1 hm with hm | ⟨-, first, -, rfl⟩
      · exact hvalues _ hm
      · exact .string _

theorem read_layOutLike {json : Json} (h : Plain depthLimit json) (text : String) :
    read (layOutLike text json) = .ok json := by
  obtain ⟨blanks, hb, he⟩ := exists_layOutLike_eq text json
  rw [he]
  exact h.read_pretty (fun c => isBlank_of_mem_detectIndent) hb

end manifests

/-- What becomes of a manifest in which a list of dependencies is to be declared. -/
structure Declares (path : Path) (text : String) (dependencies : List Dependency) : Prop where
  refused_iff : ∀ error, declareIn? path text dependencies = .error error ↔
    ∃ shape, Misshapen text shape ∧ error = .shape path shape.message
  left_iff : declareIn? path text dependencies = .ok none ↔
    ∃ members table, read text = .ok (.object members) ∧ tableOf members = .ok table ∧
      ∀ dependency ∈ dependencies, dependency.name ∈ table.map Prod.fst
  written : ∀ text', declareIn? path text dependencies = .ok (some text') →
    ∃ members members', read text = .ok (.object members) ∧ read text' = .ok (.object members') ∧
      Updates dependencies members members' ∧ declareIn? path text' dependencies = .ok none

theorem declareIn?_eq_ok_iff {path : Path} {text : String} {dependencies : List Dependency}
    {answer : Option String} :
    declareIn? path text dependencies = .ok answer ↔
      declareAll? text dependencies = .ok answer := by
  unfold declareIn?
  split <;> simp_all

/-- Whatever the text and the list, what is missing is declared and nothing else is changed. The
doubles in the manifest have to be read back from what is written for them. -/
theorem declares_of_readsBack {text : String} (path : Path) (dependencies : List Dependency)
    (hdoubles : ∀ json, read text = .ok json → ∀ d, .double d ∈ json.numbers →
      (JsonNumber.double d).ReadsBack) :
    Declares path text dependencies where
  refused_iff error := by
    have hshape : ∀ shape, Misshapen text shape ↔ declareAll? text dependencies = .error shape :=
      fun _ => declareAll?_eq_error_iff.symm
    simp only [hshape]
    unfold declareIn?
    split
    · rename_i h
      simp [h]
    · rename_i shape h
      simp [h, eq_comm]
  left_iff := by rw [declareIn?_eq_ok_iff, declareAll?_eq_none_iff]
  written text' h := by
    simp only [declareIn?_eq_ok_iff, declareAll?_eq_none_iff] at h ⊢
    obtain ⟨members, table, hm, ht, rfl⟩ := of_declareAll?_eq_some h
    have hupdates := updates_put (tidy_of_read hm) ht dependencies
    have hplain : Plain depthLimit _ :=
      plain_put_table (n := 125) (plain_of_read hm (hdoubles _ hm)) ht dependencies
    have hread := read_layOutLike hplain text
    obtain ⟨table', htable, hall⟩ := hupdates.declared
    exact ⟨members, _, hm, hread, hupdates, _, table', hread, htable, hall⟩

def sampleScore : JsonNumber := .double ⟨false, 4503599627370496, -53⟩

def sampleMembers : Table :=
  [("dependencies", .object [("b", .string "1"), ("d", .string "2")]), ("score", .number sampleScore)]

def sampleManifest : String :=
  "\x7b\"dependencies\": \x7b\"b\": \"1\", \"d\": \"2\"\x7d, \"score\": 0.5\x7d\n"

def sampleDependencies : List Dependency := [⟨"c", "3"⟩, ⟨"b", "9"⟩, ⟨"a", "4"⟩, ⟨"c", "5"⟩]

def sampleWritten : String :=
  "\x7b\n  \"dependencies\": \x7b\n    \"a\": \"4\",\n    \"b\": \"1\",\n    \"c\": \"3\",\n"
    ++ "    \"d\": \"2\"\n  \x7d,\n  \"score\": 0.5\n\x7d\n"

theorem declares_of_readsBack_sampleManifest :
    read sampleManifest = .ok (.object sampleMembers) ∧ sampleScore.ReadsBack ∧
    (declareIn? ⟨"package.json"⟩ sampleManifest sampleDependencies).toOption =
      some (some sampleWritten) ∧
    Declares ⟨"package.json"⟩ sampleManifest sampleDependencies := by
  have hread : read sampleManifest = .ok (.object sampleMembers) := by rfl
  have hscore : sampleScore.ReadsBack := by rfl
  refine ⟨hread, hscore, by decide +kernel,
    declares_of_readsBack ⟨"package.json"⟩ sampleDependencies ?_⟩
  intro json hjson d hd
  obtain rfl := Except.ok.inj (hread.symm.trans hjson)
  have hmem : JsonNumber.double d = sampleScore := by
    simpa [sampleMembers, numbers, numbers.numbersOfMembers] using hd
  rwa [hmem]

end Codemod.Manifest
