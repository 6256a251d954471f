import Codemod.CommandLine.Demand
import Codemod.Proofs.Disks
import Codemod.Proofs.Relapses

/-!
What a setup leaves of a disk.

A request is answered first and its writes are carried out then, so what a run does is the list of
actions that it notes. If none of them fails, the disk is left as by a run that writes as it goes. A
file ends with the text that was last written to it, and only files that are written to change.
Which files these are, and the status at the end, depend on whether there are settings, whether a
step stopped the run and whether it is a dry run.

Two paths lead to one file where they have one normal form in the working directory. They may be
staged as two files all the same, since staging compares paths by their components.
-/
namespace Codemod

variable {σ : Type}

namespace Action

def perform (writer : Writer σ) : Action → σ → Except String Unit × σ
  | makeDirectory path => writer.makeDirectory path
  | writeFile path text => writer.writeFile path text

def performAll (writer : Writer σ) : List Action → σ → Except String Unit × σ
  | [], state => (.ok (), state)
  | action :: rest, state =>
    match action.perform writer state with
    | (.ok (), state) => performAll writer rest state
    | (.error reason, state) => (.error reason, state)

def writes (texts : List (Path × String)) : List Action :=
  texts.map fun entry => writeFile entry.1 entry.2

/-- The actions are carried out and none of them fails. -/
def Performs (writer : Writer σ) (actions : List Action) (state last : σ) : Prop :=
  performAll writer actions state = (.ok (), last)

variable {writer : Writer σ} {state last : σ}

theorem performs_of_toBool {actions : List Action}
    (h : (performAll writer actions state).1.toBool = true) :
    Performs writer actions state (performAll writer actions state).2 := by
  unfold Performs
  generalize performAll writer actions state = done at h
  obtain ⟨answer, last⟩ := done
  cases answer with
  | error reason => cases h
  | ok _ => rfl

theorem performs_nil : Performs writer [] state last ↔ state = last := by
  simp [Performs, performAll]

theorem performs_cons {action : Action} {rest : List Action} :
    Performs writer (action :: rest) state last ↔
      ∃ mid, action.perform writer state = (.ok (), mid) ∧ Performs writer rest mid last := by
  rw [Performs, performAll]
  cases action.perform writer state with
  | mk answer mid => cases answer <;> simp [Performs]

theorem performs_append {front back : List Action} :
    Performs writer (front ++ back) state last ↔
      ∃ mid, Performs writer front state mid ∧ Performs writer back mid last := by
  induction front generalizing state with
  | nil => simp [performs_nil]
  | cons action rest ih =>
    simp only [List.cons_append, performs_cons, ih]
    constructor
    · rintro ⟨next, hfirst, mid, hrest, hback⟩
      exact ⟨mid, ⟨next, hfirst, hrest⟩, hback⟩
    · rintro ⟨mid, ⟨next, hfirst, hrest⟩, hback⟩
      exact ⟨next, hfirst, mid, hrest, hback⟩

end Action

open Codemod.Action (noting writes Performs)

namespace Writer

variable {writer : Writer σ} {state last : σ}

theorem writeEach_noting (texts : List (Path × String)) (done : List Action) :
    noting.writeEach texts done = (.ok (), done ++ writes texts) := by
  induction texts generalizing done with
  | nil => simp [writeEach, writes]
  | cons entry rest ih =>
    obtain ⟨path, text⟩ := entry
    have hstep : noting.writeEach ((path, text) :: rest) done =
        noting.writeEach rest (done ++ [.writeFile path text]) := rfl
    rw [hstep, ih]
    simp [writes]

theorem writeEach_of_performs {texts : List (Path × String)}
    (h : Performs writer (writes texts) state last) :
    writer.writeEach texts state = (.ok (), last) := by
  induction texts generalizing state with
  | nil =>
    obtain rfl := Action.performs_nil.1 h
    rfl
  | cons entry rest ih =>
    obtain ⟨mid, hfirst, hrest⟩ := Action.performs_cons.1 h
    have hwrite : writer.writeFile entry.1 entry.2 state = (.ok (), mid) := hfirst
    simp only [writeEach, hwrite]
    exact ih hrest

def under (root : Path) (texts : List (Path × String)) : List (Path × String) :=
  texts.map fun entry => (root.join entry.1, entry.2)

theorem writeAll_noting (root : Path) (texts : List (Path × String)) (count : Nat)
    (done : List Action) :
    noting.writeAll root texts count done =
      (.ok (count + texts.length), done ++ writes (under root texts)) := by
  induction texts generalizing count done with
  | nil => simp [writeAll, writes, under]
  | cons entry rest ih =>
    obtain ⟨path, text⟩ := entry
    have hstep : noting.writeAll root ((path, text) :: rest) count done =
        noting.writeAll root rest (count + 1) (done ++ [.writeFile (root.join path) text]) := rfl
    rw [hstep, ih, List.length_cons, Nat.add_right_comm]
    simp [writes, under, Nat.add_assoc]

theorem writeAll_of_performs {root : Path} {texts : List (Path × String)} (count : Nat)
    (h : Performs writer (writes (under root texts)) state last) :
    writer.writeAll root texts count state = (.ok (count + texts.length), last) := by
  induction texts generalizing count state with
  | nil =>
    obtain rfl := Action.performs_nil.1 h
    rfl
  | cons entry rest ih =>
    obtain ⟨mid, hfirst, hrest⟩ := Action.performs_cons.1 h
    have hwrite : writer.writeFile (root.join entry.1) entry.2 state = (.ok (), mid) := hfirst
    simp only [writeAll, hwrite]
    rw [ih (count + 1) hrest, List.length_cons, Nat.add_right_comm, Nat.add_assoc]

end Writer

namespace CommandLine

variable {writer : Writer σ} {state last : σ} {settings : SetupSettings} {outcome : SetupOutcome}

def reportActions (settings : SetupSettings) (outcome : SetupOutcome) : List Action :=
  match settings.reportDir with
  | none => []
  | some dir =>
    .makeDirectory (settings.projectRoot.join dir) ::
      writes (Writer.artifacts outcome (settings.projectRoot.join dir))

def sourceActions (settings : SetupSettings) (outcome : SetupOutcome) : List Action :=
  if settings.dryRun || outcome.report.isFailure then []
  else writes (Writer.under settings.projectRoot outcome.staged)

theorem writeReport_noting (done : List Action) :
    writeReport noting settings outcome done =
      (.ok (), done ++ reportActions settings outcome) := by
  unfold writeReport reportActions
  cases settings.reportDir with
  | none => simp
  | some dir =>
    have hmake : noting.writeArtifacts outcome (settings.projectRoot.join dir) done =
        noting.writeEach (Writer.artifacts outcome (settings.projectRoot.join dir))
          (done ++ [.makeDirectory (settings.projectRoot.join dir)]) := rfl
    simp only [hmake, Writer.writeEach_noting, List.append_assoc, List.singleton_append]

theorem writeReport_of_performs (h : Performs writer (reportActions settings outcome) state last) :
    writeReport writer settings outcome state = (.ok (), last) := by
  unfold reportActions at h
  unfold writeReport
  cases hd : settings.reportDir with
  | none =>
    rw [hd] at h
    obtain rfl := Action.performs_nil.1 h
    rfl
  | some dir =>
    rw [hd] at h
    obtain ⟨mid, hfirst, hrest⟩ := Action.performs_cons.1 h
    have hmake : writer.makeDirectory (settings.projectRoot.join dir) state = (.ok (), mid) :=
      hfirst
    simp only [Writer.writeArtifacts, hmake]
    exact Writer.writeEach_of_performs hrest

theorem writeSources_noting (done : List Action) :
    writeSources noting settings outcome done =
      (.ok (), done ++ sourceActions settings outcome) := by
  unfold writeSources sourceActions
  split
  · simp
  · simp only [Writer.writeStaged, Writer.writeAll_noting]

theorem writeSources_of_performs (h : Performs writer (sourceActions settings outcome) state last) :
    writeSources writer settings outcome state = (.ok (), last) := by
  unfold sourceActions at h
  unfold writeSources
  split
  · rename_i hheld
    rw [if_pos hheld] at h
    obtain rfl := Action.performs_nil.1 h
    rfl
  · rename_i hfree
    rw [if_neg hfree] at h
    simp only [Writer.writeStaged, Writer.writeAll_of_performs 0 h]

variable (files : FileSystem) (reader : TreeReader) (stamp : RunStamp)

def outcomeOf (settings : SetupSettings) : SetupOutcome :=
  (SetupOutcome.ofRun logSink stamp tool ⟨files.view settings.projectRoot, reader⟩ settings []).1

def verdictOf (settings : SetupSettings) : Verdict :=
  conclude settings (outcomeOf files reader stamp settings)
    (SetupOutcome.ofRun logSink stamp tool ⟨files.view settings.projectRoot, reader⟩ settings []).2

def setupActions (settings : SetupSettings) : List Action :=
  reportActions settings (outcomeOf files reader stamp settings) ++
    sourceActions settings (outcomeOf files reader stamp settings)

theorem runSetup_noting (done : List Action) :
    runSetup noting files reader stamp settings done =
      (verdictOf files reader stamp settings,
        done ++ setupActions files reader stamp settings) := by
  simp only [runSetup, writeReport_noting, writeSources_noting, List.append_assoc]
  rfl

variable {files reader stamp}

theorem runSetup_of_performs
    (h : Performs writer (setupActions files reader stamp settings) state last) :
    runSetup writer files reader stamp settings state =
      (verdictOf files reader stamp settings, last) := by
  obtain ⟨mid, hreport, hsources⟩ := Action.performs_append.1 h
  simp only [outcomeOf] at hreport hsources
  simp only [runSetup, writeReport_of_performs hreport, writeSources_of_performs hsources]
  rfl

theorem answer_of_performs {request : Request} {verdict : Verdict} {actions : List Action}
    (hn : answer noting files reader stamp request [] = (verdict, actions))
    (h : Performs writer actions state last) :
    answer writer files reader stamp request state = (verdict, last) := by
  have hquiet : ∀ {other : Verdict}, (other, ([] : List Action)) = (verdict, actions) →
      (other, state) = (verdict, last) := by
    intro other he
    obtain ⟨rfl, rfl⟩ := Prod.mk.inj he
    obtain rfl := Action.performs_nil.1 h
    rfl
  cases request with
  | version => exact hquiet hn
  | help => exact hquiet hn
  | steps format => exact hquiet hn
  | setup root overrides =>
    simp only [answer] at hn ⊢
    cases hs : loadSettings files root overrides with
    | error reason =>
      simp only [hs] at hn ⊢
      exact hquiet hn
    | ok settings =>
      simp only [hs, runSetup_noting, List.nil_append] at hn ⊢
      obtain ⟨rfl, rfl⟩ := Prod.mk.inj hn
      exact runSetup_of_performs h

/-- A run that writes as it goes does what a run notes, if nothing of that fails. -/
theorem run_of_performs {env : String → Option String} {words : List String} {verdict : Verdict}
    {actions : List Action}
    (hn : run noting files reader env stamp words [] = (verdict, actions))
    (h : Performs writer actions state last) :
    run writer files reader env stamp words state = (verdict, last) := by
  unfold run at hn ⊢
  cases hq : Request.ofWords env words with
  | error error =>
    rw [hq] at hn
    obtain ⟨rfl, rfl⟩ := Prod.mk.inj hn
    obtain rfl := Action.performs_nil.1 h
    rfl
  | ok request =>
    rw [hq] at hn
    exact answer_of_performs hn h

end CommandLine

namespace Disk

open Codemod.Action (performAll)

variable {disk last : Disk} {action : Action} {actions : List Action} {key : Path}

/-- An action writes to the file at a place. -/
def Reaches (disk : Disk) (key : Path) : Action → Prop
  | .makeDirectory _ => False
  | .writeFile path _ => (disk.place path).same key = true

theorem extends_of_perform (h : action.perform writer disk = (.ok (), last)) :
    Extends disk last := by
  cases action with
  | makeDirectory path => exact (extends_of_makeDirectory h).1
  | writeFile path text => exact (written_of_writeFile h).grown

theorem extends_of_performs (h : Performs writer actions disk last) : Extends disk last := by
  induction actions generalizing disk with
  | nil =>
    rw [Action.performs_nil.1 h]
    exact .refl last
  | cons action rest ih =>
    obtain ⟨mid, hfirst, hrest⟩ := Action.performs_cons.1 h
    exact (extends_of_perform hfirst).trans (ih hrest)

theorem find?_of_perform (h : action.perform writer disk = (.ok (), last))
    (hr : ¬ disk.Reaches key action) : last.files.find? key = disk.files.find? key := by
  cases action with
  | makeDirectory path => rw [(extends_of_makeDirectory h).2]
  | writeFile path text =>
    have hother : ¬ (disk.place path).same key = true := hr
    rw [(written_of_writeFile h).files, PathMap.find?_insert, if_neg hother]

theorem Extends.reaches_iff (h : Extends disk last) :
    last.Reaches key action ↔ disk.Reaches key action := by
  cases action with
  | makeDirectory path => exact Iff.rfl
  | writeFile path text => rw [Reaches, Reaches, h.place_eq]

/-- A file that no action writes to stays as it is. -/
theorem find?_of_performs (h : Performs writer actions disk last)
    (hr : ∀ action ∈ actions, ¬ disk.Reaches key action) :
    last.files.find? key = disk.files.find? key := by
  induction actions generalizing disk with
  | nil => rw [Action.performs_nil.1 h]
  | cons action rest ih =>
    obtain ⟨mid, hfirst, hlater⟩ := Action.performs_cons.1 h
    obtain ⟨hhead, hrest⟩ := List.forall_mem_cons.1 hr
    have hgrown := extends_of_perform hfirst
    have hother : ∀ action ∈ rest, ¬ mid.Reaches key action :=
      fun action hmem hreach => hrest action hmem (hgrown.reaches_iff.1 hreach)
    rw [ih hlater hother, find?_of_perform hfirst hhead]

/-- The text that was last written to a file is the one that is seen. -/
theorem fileSystem_of_last {front back : List Action} {path : Path} {text : String}
    (h : Performs writer (front ++ .writeFile path text :: back) disk last)
    (hr : ∀ action ∈ back, ¬ disk.Reaches (disk.place path) action) :
    last.fileSystem path = .file (some text) := by
  obtain ⟨mid, hfront, hback⟩ := Action.performs_append.1 h
  obtain ⟨next, hfirst, hrest⟩ := Action.performs_cons.1 hback
  have hwritten := written_of_writeFile hfirst
  have hbefore : Extends disk next := (extends_of_performs hfront).trans hwritten.grown
  have hlater := extends_of_performs hrest
  have hother : ∀ action ∈ back, ¬ next.Reaches (next.place path) action := by
    intro action hmem hreach
    rw [hbefore.place_eq] at hreach
    exact hr action hmem (hbefore.reaches_iff.1 hreach)
  apply (hwritten.opens.extend hlater).fileSystem_eq
  rw [hlater.place_eq, find?_of_performs hrest hother, hwritten.files, hwritten.grown.place_eq,
    PathMap.find?_insert_self]

/-- All files that change are among those that some paths lead to. -/
def ChangesOnly (before after : Disk) (paths : List Path) : Prop :=
  ∀ key, after.files.find? key ≠ before.files.find? key →
    ∃ path ∈ paths, (before.place path).same key = true

theorem changesOnly_of_performs {before after : Disk} {paths : List Path}
    (h : Performs writer actions before after)
    (hp : ∀ path text, .writeFile path text ∈ actions → path ∈ paths) :
    before.ChangesOnly after paths := by
  intro key hchanged
  refine Classical.byContradiction fun hnone => hchanged ?_
  refine find?_of_performs h fun action hmem hreach => hnone ?_
  cases action with
  | makeDirectory path => exact hreach.elim
  | writeFile path text => exact ⟨path, hp path text hmem, hreach⟩

/-- Places with the same components are spelled alike. -/
theorem place_eq_of_same {p q : Path} (h : (disk.place p).same (disk.place q) = true) :
    disk.place p = disk.place q := by
  rw [place, place, Path.same_iff, Path.components_normalize, Path.components_normalize] at h
  rw [place, place, Path.normalize, Path.normalize, h]

end Disk

def SetupSettings.reportFiles (settings : SetupSettings) : List Path :=
  match settings.reportDir with
  | none => []
  | some dir =>
    ["report.json", "report.md", "patch.diff"].map fun name =>
      (settings.projectRoot.join dir).join ⟨name⟩

/-- What a setup with some settings leaves of a disk. -/
structure SetupOutcome.Leaves (outcome : SetupOutcome) (settings : SetupSettings)
    (before after : Disk) : Prop where
  /-- A run that was stopped changes no file but those of the report, and neither does a dry run. -/
  held : outcome.report.isFailure = true ∨ settings.dryRun = true →
    before.ChangesOnly after settings.reportFiles
  /-- After any other run a staged file is seen with its text, unless a later staged file has the
  same place. -/
  written : outcome.report.isFailure = false → settings.dryRun = false →
    ∀ front path text back, outcome.staged = front ++ (path, text) :: back →
      (∀ later ∈ back, before.place (settings.projectRoot.join later.1) ≠
        before.place (settings.projectRoot.join path)) →
      after.fileSystem (settings.projectRoot.join path) = .file (some text)
  /-- Nothing else changes. -/
  rest : before.ChangesOnly after
    (settings.reportFiles ++ outcome.staged.map fun entry => settings.projectRoot.join entry.1)

namespace CommandLine

variable {reader : TreeReader} {stamp : RunStamp}

/-- How a command ends on a disk: with a status, and with what is left of the disk. -/
inductive Ends (reader : TreeReader) (stamp : RunStamp) (before : Disk) :
    Request → Nat → Disk → Prop
  /-- No setup is asked for. -/
  | informed {request : Request} : (∀ root overrides, request ≠ .setup root overrides) →
    Ends reader stamp before request 0 before
  /-- There are no settings. -/
  | unsettled {root : Path} {overrides : Overrides} {reason : String} :
    loadSettings before.fileSystem root overrides = .error reason →
    Ends reader stamp before (.setup root overrides) 1 before
  /-- A step stopped the run. -/
  | stopped {root : Path} {overrides : Overrides} {config : Config} {settings : SetupSettings}
      {after : Disk} :
    loadConfig before.fileSystem root = .ok config →
    config.settings root overrides = .ok settings →
    settings.dryRun = (overrides.dryRun || config.dryRun) →
    (outcomeOf before.fileSystem reader stamp settings).report.isFailure = true →
    (outcomeOf before.fileSystem reader stamp settings).Leaves settings before after →
    Ends reader stamp before (.setup root overrides) 2 after
  /-- The run went through all steps. -/
  | finished {root : Path} {overrides : Overrides} {config : Config} {settings : SetupSettings}
      {after : Disk} :
    loadConfig before.fileSystem root = .ok config →
    config.settings root overrides = .ok settings →
    settings.dryRun = (overrides.dryRun || config.dryRun) →
    (outcomeOf before.fileSystem reader stamp settings).report.isFailure = false →
    (outcomeOf before.fileSystem reader stamp settings).Leaves settings before after →
    Ends reader stamp before (.setup root overrides) 0 after

/-- The report is written to its files. -/
theorem mem_reportFiles {settings : SetupSettings} {outcome : SetupOutcome} {path : Path}
    {text : String} (h : .writeFile path text ∈ reportActions settings outcome) :
    path ∈ settings.reportFiles := by
  unfold reportActions at h
  unfold SetupSettings.reportFiles
  cases hd : settings.reportDir with
  | none => simp [hd] at h
  | some dir =>
    simp only [hd, List.mem_cons, reduceCtorEq, false_or] at h
    obtain ⟨entry, hmem, he⟩ := List.mem_map.1 h
    obtain ⟨rfl, -⟩ := Action.writeFile.inj he
    have hpath := List.mem_map_of_mem (f := Prod.fst) hmem
    simpa [Writer.artifacts] using hpath

/-- Staged files are written to their paths under the root. -/
theorem mem_sourceActions {settings : SetupSettings} {outcome : SetupOutcome} {path : Path}
    {text : String} (h : .writeFile path text ∈ sourceActions settings outcome) :
    path ∈ outcome.staged.map fun entry => settings.projectRoot.join entry.1 := by
  unfold sourceActions at h
  split at h
  · cases h
  · obtain ⟨entry, hmem, he⟩ := List.mem_map.1 h
    obtain ⟨source, hsource, rfl⟩ := List.mem_map.1 hmem
    obtain ⟨rfl, -⟩ := Action.writeFile.inj he
    exact List.mem_map_of_mem hsource

/-- The actions of a setup, if none of them fails, leave of a disk what a setup leaves. -/
theorem leaves_of_performs {settings : SetupSettings} {outcome : SetupOutcome}
    {before after : Disk}
    (h : Performs Disk.writer
      (reportActions settings outcome ++ sourceActions settings outcome) before after) :
    outcome.Leaves settings before after := by
  refine ⟨?_, ?_, ?_⟩
  · intro hheld
    have hnone : sourceActions settings outcome = [] := by
      have hdry : (settings.dryRun || outcome.report.isFailure) = true := by
        rw [Bool.or_eq_true]
        exact hheld.symm
      rw [sourceActions, if_pos hdry]
    rw [hnone, List.append_nil] at h
    exact Disk.changesOnly_of_performs h fun _ _ => mem_reportFiles
  · intro hrun hdry front path text back hstaged hlast
    have hall : sourceActions settings outcome =
        writes (Writer.under settings.projectRoot front) ++
          .writeFile (settings.projectRoot.join path) text ::
            writes (Writer.under settings.projectRoot back) := by
      rw [sourceActions, hrun, hdry, if_neg (by decide), hstaged]
      simp [writes, Writer.under]
    rw [hall, ← List.append_assoc] at h
    refine Disk.fileSystem_of_last h fun action hmem hreach => ?_
    obtain ⟨entry, hentry, rfl⟩ := List.mem_map.1 hmem
    obtain ⟨later, hlater, rfl⟩ := List.mem_map.1 hentry
    exact hlast later hlater (Disk.place_eq_of_same hreach)
  · refine Disk.changesOnly_of_performs h fun path text hmem => List.mem_append.2 ?_
    exact (List.mem_append.1 hmem).imp mem_reportFiles mem_sourceActions

/-- A setup ends with the status that says whether it was stopped. -/
theorem status_conclude (settings : SetupSettings) (outcome : SetupOutcome) (log : List String) :
    (conclude settings outcome log).status = if outcome.report.isFailure then 2 else 0 := by
  unfold conclude SetupOutcome.check Report.isFailure
  cases outcome.report.abortedBy <;> rfl

/-- A run is dry if the command line or the configuration says so. -/
theorem dryRun_of_settings {config : Config} {root : Path} {overrides : Overrides}
    {settings : SetupSettings} (h : config.settings root overrides = .ok settings) :
    settings.dryRun = (overrides.dryRun || config.dryRun) := by
  unfold Config.settings at h
  cases ho : (overrides.firebase.orElse config.firebase).options with
  | error error => simp [ho, bind, Except.bind] at h
  | ok firebase =>
    simp only [ho, bind, Except.bind, pure, Except.pure, Except.ok.injEq] at h
    rw [← h]

theorem loadSettings_eq_ok {files : FileSystem} {root : Path} {overrides : Overrides}
    {settings : SetupSettings} (h : loadSettings files root overrides = .ok settings) :
    ∃ config, loadConfig files root = .ok config ∧
      config.settings root overrides = .ok settings := by
  unfold loadSettings at h
  cases hc : loadConfig files root with
  | error reason => simp [hc] at h
  | ok config =>
    simp only [hc] at h
    split at h
    · rename_i found hs
      rw [← Except.ok.inj h]
      exact ⟨config, rfl, hs⟩
    · cases h

theorem ends_answer {request : Request} {before after : Disk} {verdict : Verdict}
    {actions : List Action}
    (hn : answer noting before.fileSystem reader stamp request [] = (verdict, actions))
    (h : Performs Disk.writer actions before after) :
    Ends reader stamp before request verdict.status after := by
  have hinformed : ∀ output : String, (∀ root overrides, request ≠ .setup root overrides) →
      ((⟨0, output, []⟩ : Verdict), ([] : List Action)) = (verdict, actions) →
      Ends reader stamp before request verdict.status after := by
    intro output hother he
    obtain ⟨rfl, rfl⟩ := Prod.mk.inj he
    obtain rfl := Action.performs_nil.1 h
    exact .informed hother
  unfold answer at hn
  cases request with
  | version => exact hinformed versionText (fun _ _ => by simp) hn
  | help => exact hinformed helpText (fun _ _ => by simp) hn
  | steps format => exact hinformed format.listing (fun _ _ => by simp) hn
  | setup root overrides =>
    simp only at hn
    cases hs : loadSettings before.fileSystem root overrides with
    | error reason =>
      rw [hs] at hn
      obtain ⟨rfl, rfl⟩ := Prod.mk.inj hn
      obtain rfl := Action.performs_nil.1 h
      exact .unsettled hs
    | ok settings =>
      simp only [hs, runSetup_noting, List.nil_append] at hn
      obtain ⟨rfl, rfl⟩ := Prod.mk.inj hn
      obtain ⟨config, hconfig, hsettings⟩ := loadSettings_eq_ok hs
      have hdry := dryRun_of_settings hsettings
      have hleaves := leaves_of_performs h
      have hstatus := status_conclude settings (outcomeOf before.fileSystem reader stamp settings)
        (SetupOutcome.ofRun logSink stamp tool
          ⟨before.fileSystem.view settings.projectRoot, reader⟩ settings []).2
      rw [verdictOf, hstatus]
      cases hf : (outcomeOf before.fileSystem reader stamp settings).report.isFailure with
      | true => exact .stopped hconfig hsettings hdry hf hleaves
      | false => exact .finished hconfig hsettings hdry hf hleaves

/-- A command line whose writes all succeed ends on a disk as the settings, the configuration
and the steps say. -/
theorem ends_run {env : String → Option String} {words : List String} {request : Request}
    (hq : Request.ofWords env words = .ok request) (reader : TreeReader) (stamp : RunStamp)
    {before after : Disk} {verdict : Verdict} {actions : List Action}
    (hn : run noting before.fileSystem reader env stamp words [] = (verdict, actions))
    (h : Performs Disk.writer actions before after) :
    run Disk.writer before.fileSystem reader env stamp words before = (verdict, after) ∧
      Ends reader stamp before request verdict.status after := by
  refine ⟨run_of_performs hn h, ?_⟩
  rw [run, hq] at hn
  exact ends_answer hn h

def sampleVariables : String → Option String := fun _ => some "k"

def sampleOverrides (manifest reportDir : Option Path) : Overrides where
  main := some ⟨"main.ts"⟩
  environment := none
  noEnvironment := true
  manifest := manifest
  noManifest := false
  firebase := ⟨some "k", some "k", some "k", some "k", some "k", some "k", some "k"⟩
  firebaseVersion := none
  angularFireVersion := none
  dryRun := false
  reportDir := reportDir

def blindReader : TreeReader := fun _ _ => some (.ofGrammar "program" 0 0 [])

def bareWords : List String := ["setup", "--main", "main.ts", "--no-environment"]

def awayWords : List String := bareWords ++ ["--project-root", "/proj", "--report-dir", "../out"]

/-- An empty entry file and an empty manifest, seen from another directory. -/
def awayDisk : Disk where
  files := (PathMap.empty.insert ⟨"/proj/main.ts"⟩ (some "")).insert ⟨"/proj/package.json"⟩
    (some "\x7b\x7d")
  folders := []
  working := ⟨"/home/dev"⟩
  working_absolute := by decide

def awayNotes : Verdict × List Action :=
  run noting awayDisk.fileSystem blindReader sampleVariables SetupOutcome.firstStamp awayWords []

theorem ends_run_awayDisk : ∃ rest : Disk,
    Performs Disk.writer awayNotes.2 awayDisk rest ∧
    run Disk.writer awayDisk.fileSystem blindReader sampleVariables SetupOutcome.firstStamp
      awayWords awayDisk = (awayNotes.1, rest) ∧
    Ends blindReader SetupOutcome.firstStamp awayDisk
      (.setup ⟨"/proj"⟩ (sampleOverrides none (some ⟨"../out"⟩))) awayNotes.1.status rest ∧
    awayNotes.1.status = 0 ∧
    rest.fileSystem ⟨"../../proj/main.ts"⟩ = .file (some SingleImport.line) ∧
    rest.fileSystem ⟨"/out"⟩ = .directory := by
  have hq : Request.ofWords sampleVariables awayWords =
      .ok (.setup ⟨"/proj"⟩ (sampleOverrides none (some ⟨"../out"⟩))) := rfl
  have hn : run noting awayDisk.fileSystem blindReader sampleVariables
      SetupOutcome.firstStamp awayWords [] = (awayNotes.1, awayNotes.2) := (Prod.eta awayNotes).symm
  have hfacts : (Action.performAll Disk.writer awayNotes.2 awayDisk).1.toBool = true ∧
      awayNotes.1.status = 0 ∧
      (Action.performAll Disk.writer awayNotes.2 awayDisk).2.fileSystem ⟨"../../proj/main.ts"⟩ =
        .file (some SingleImport.line) ∧
      (Action.performAll Disk.writer awayNotes.2 awayDisk).2.fileSystem ⟨"/out"⟩ = .directory := by
    decide +kernel
  have hperforms := Action.performs_of_toBool hfacts.1
  obtain ⟨hrun, hends⟩ := ends_run hq blindReader SetupOutcome.firstStamp hn hperforms
  exact ⟨_, hperforms, hrun, hends, hfacts.2⟩

/-- A command line that gives one file as the entry file and, spelled otherwise, as the manifest. -/
def twiceWords : List String := bareWords ++ ["--package-json", "./main.ts"]

/-- A manifest that is an entry file as well. -/
def twiceDisk : Disk where
  files := PathMap.empty.insert ⟨"/main.ts"⟩ (some "\x7b\x7d")
  folders := []
  working := ⟨"/"⟩
  working_absolute := by decide

def twiceRun : Verdict × Disk :=
  run Disk.writer twiceDisk.fileSystem blindReader sampleVariables SetupOutcome.firstStamp twiceWords
    twiceDisk

def twiceSettings : SetupSettings where
  projectRoot := ⟨"."⟩
  project := ⟨⟨"main.ts"⟩, none, some ⟨"./main.ts"⟩⟩
  firebase := ⟨"k", "k", "k", "k", "k", "k", some "k"⟩
  versions := .latest
  dryRun := false
  reportDir := none

/-- A complete run does not leave every staged file with the text that is staged for it. -/
theorem overwritten_twiceRun :
    Request.ofWords sampleVariables twiceWords =
      .ok (.setup ⟨"."⟩ (sampleOverrides (some ⟨"./main.ts"⟩) none)) ∧
    loadSettings twiceDisk.fileSystem ⟨"."⟩ (sampleOverrides (some ⟨"./main.ts"⟩) none) =
      .ok twiceSettings ∧
    twiceRun.1.status = 0 ∧
    ∃ entry ∈ (outcomeOf twiceDisk.fileSystem blindReader SetupOutcome.firstStamp
        twiceSettings).staged,
      twiceRun.2.fileSystem (twiceSettings.projectRoot.join entry.1) ≠ .file (some entry.2) :=
  ⟨rfl, rfl, by decide +kernel⟩

end CommandLine

end Codemod
