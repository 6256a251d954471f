import Codemod.Proofs.Reruns
import Codemod.Proofs.SetupChanges

/-!
Texts after a patch step.

A step that writes brings its change into the file it found. Every file is then either as it was, or
the one that got the change; what is kept by each change on the way is kept from the texts of one
step to those of a later one.
-/
namespace Codemod

namespace Texts

variable {reader : TreeReader} {texts later : Texts}

/-- The source file of a path depends on the text of the path only. -/
theorem source_eq_of_text {path : Path} (h : later path = texts path) :
    later.source reader path = texts.source reader path := by
  rw [source, source, accepted, accepted, h]

/-- The source file of another spelling. -/
theorem source_spelledAs (hu : texts.Uniform) {p q : Path} (h : p.same q = true)
    {file : SourceFile} (hf : texts.source reader p = .ok file) :
    texts.source reader q = .ok (file.spelledAs q) := by
  obtain ⟨ht, -, hl, hr⟩ := source_eq_ok_iff.1 hf
  rw [source_eq_ok_iff]
  exact ⟨(hu h).symm.trans ht, rfl, (Language.ofPath?_congr h).symm.trans hl, hr⟩

theorem put_same {p q : Path} (h : p.same q = true) (text : String) :
    texts.put p text q = some text := by simp [put, h]

theorem put_other {p q : Path} (h : p.same q = false) (text : String) :
    texts.put p text q = texts q := by simp [put, h]

/-- Each file is as it was, or it has been changed to one that is related to it. -/
def Follow (reader : TreeReader) (K : SourceFile → SourceFile → Prop) (texts later : Texts) : Prop :=
  ∀ path, later path = texts path ∨ ∃ file file', texts.source reader path = .ok file ∧
    later.source reader path = .ok file' ∧ K file file'

variable {K : SourceFile → SourceFile → Prop}

theorem Follow.refl (texts : Texts) : Follow reader K texts texts := fun _ => .inl rfl

theorem Follow.trans {last : Texts}
    (hK : ∀ {file file' file''}, K file file' → K file' file'' → K file file'')
    (h : Follow reader K texts later) (h' : Follow reader K later last) :
    Follow reader K texts last := by
  intro path
  rcases h path with he | ⟨file, file', hf, hf', hk⟩
  · rcases h' path with he' | ⟨file, file', hf, hf', hk⟩
    · exact .inl (he'.trans he)
    · exact .inr ⟨file, file', (source_eq_of_text he) ▸ hf, hf', hk⟩
  · rcases h' path with he' | ⟨mid, file'', hm, hf'', hk'⟩
    · exact .inr ⟨file, file', hf, (source_eq_of_text he').trans hf', hk⟩
    · obtain rfl := Except.ok.inj (hf'.symm.trans hm)
      exact .inr ⟨file, file'', hf, hf'', hK hk hk'⟩

theorem Follow.mono {K' : SourceFile → SourceFile → Prop}
    (hK : ∀ {file file'}, K file file' → K' file file') (h : Follow reader K texts later) :
    Follow reader K' texts later := by
  intro path
  rcases h path with he | ⟨file, file', hf, hf', hk⟩
  · exact .inl he
  · exact .inr ⟨file, file', hf, hf', hK hk⟩

/-- A file that can be read can still be read, and is related to what it was. -/
theorem Follow.source (h : Follow reader K texts later) (hrefl : ∀ file, K file file)
    {path : Path} {file : SourceFile} (hf : texts.source reader path = .ok file) :
    ∃ file', later.source reader path = .ok file' ∧ K file file' := by
  rcases h path with he | ⟨found, file', hfound, hf', hk⟩
  · exact ⟨file, (source_eq_of_text he).trans hf, hrefl file⟩
  · obtain rfl := Except.ok.inj (hf.symm.trans hfound)
    exact ⟨file', hf', hk⟩

/-- What cannot be read stays so. -/
theorem Follow.error (h : Follow reader K texts later) {path : Path} {error : EditError}
    (hf : texts.source reader path = .error error) : later.source reader path = .error error := by
  rcases h path with he | ⟨file, _, hfound, -, -⟩
  · exact (source_eq_of_text he).trans hf
  · rw [hf] at hfound
    cases hfound

theorem Follow.isSome (h : Follow reader K texts later) (path : Path) :
    (later path).isSome = (texts path).isSome := by
  rcases h path with he | ⟨file, file', hf, hf', -⟩
  · rw [he]
  · rw [(source_eq_ok_iff.1 hf).1, (source_eq_ok_iff.1 hf').1]
    rfl

/-- Whatever was changed, something about every file is as it was. -/
def Keeps {α : Type} (reader : TreeReader) (f : SourceFile → α) (texts later : Texts) : Prop :=
  Follow reader (fun file file' => f file' = f file) texts later

variable {α : Type} {f : SourceFile → α}

theorem Keeps.trans {last : Texts} (h : Keeps reader f texts later) (h' : Keeps reader f later last) :
    Keeps reader f texts last :=
  Follow.trans (fun hk hk' => Eq.trans hk' hk) h h'

theorem Keeps.source (h : Keeps reader f texts later) {path : Path} {file : SourceFile}
    (hf : texts.source reader path = .ok file) :
    ∃ file', later.source reader path = .ok file' ∧ f file' = f file :=
  Follow.source h (fun _ => rfl) hf

theorem Keeps.comp {β : Type} (g : α → β) (h : Keeps reader f texts later) :
    Keeps reader (fun file => g (f file)) texts later :=
  Follow.mono (fun hk => congrArg g hk) h

/-- A file that is put in the place of another one. -/
theorem follow_put (hu : texts.Uniform) (hK : ∀ {file file'} p, p.same file.path = true →
      p.same file'.path = true → K file file' → K (file.spelledAs p) (file'.spelledAs p))
    {target : Path} {file file' : SourceFile} (hf : texts.source reader target = .ok file)
    (hf' : (texts.put target file'.text).source reader target = .ok file') (hk : K file file') :
    Follow reader K texts (texts.put target file'.text) := by
  intro path
  cases hs : target.same path with
  | false => exact .inl (put_other hs _)
  | true =>
    have hpath := (source_eq_ok_iff.1 hf).2.1
    have hpath' := (source_eq_ok_iff.1 hf').2.1
    refine .inr ⟨_, _, source_spelledAs hu hs hf, source_spelledAs (hu.put _ _) hs hf', ?_⟩
    have hsame := Path.same_symm hs
    exact hK path (by rwa [hpath]) (by rwa [hpath']) hk

end Texts

namespace PatchStep

variable {reader : TreeReader} {texts : Texts} {step : PatchStep} {target : Path} {text : String}

/-- What a step has done that writes: it found a file and a change that was not there, and brought
the change into the file. -/
structure Wrote (reader : TreeReader) (texts : Texts) (step : PatchStep) (target : Path)
    (change : Change) (anchor : Anchor) (file file' : SourceFile) : Prop where
  found : step.target.find reader texts = .ok target
  chosen : step.change.find texts target = .ok change
  source : texts.source reader target = .ok file
  absent : file.isPresent change = false
  free : file.collides change = none
  brings : ∃ piece, file.Brings reader change anchor piece file'
  after : (texts.put target file'.text).source reader target = .ok file'

theorem ofError_ne_write (error : StepError) (target : Path) (text : String) :
    Effect.ofError error ≠ .write target text := by
  intro h
  have hw := Effect.isWrite_ofError error
  rw [h] at hw
  cases hw

/-- A change is written by an insertion that is planned, goes through and leaves an accepted text. -/
theorem effectOn_eq_write {found : Path} {file : SourceFile} {change : Change}
    (h : step.effectOn reader found file change = .write target text) :
    found = target ∧ ∃ named offset piece rationale source,
      file.plan change = .ok (.insert named offset piece rationale) ∧
      Text.insertAt? file.text offset piece = some text ∧
      analyze reader found text = .ok source := by
  unfold effectOn at h
  split at h
  · exact absurd h (ofError_ne_write _ _ _)
  · cases h
  · rename_i named offset piece rationale hp
    split at h
    · cases h
    · rename_i spliced hi
      split at h
      · cases h
      · rename_i source ha
        obtain ⟨rfl, rfl⟩ := Effect.write.inj h
        exact ⟨rfl, named, offset, piece, rationale, source, (planFor_eq_ok_iff.1 hp).2, hi, ha⟩

theorem exists_wrote (h : step.effect reader texts = .write target text) :
    ∃ change anchor file file', Wrote reader texts step target change anchor file file' ∧
      file'.text = text := by
  unfold effect at h
  split at h
  · exact absurd h (ofError_ne_write _ _ _)
  · rename_i found ht
    split at h
    · exact absurd h (ofError_ne_write _ _ _)
    · rename_i change hc
      split at h
      · exact absurd h (ofError_ne_write _ _ _)
      · rename_i file hf
        obtain ⟨rfl, named, offset, piece, rationale, source, hplan, hi, ha⟩ :=
          effectOn_eq_write h
        obtain ⟨-, hpath, hl, -⟩ := Texts.source_eq_ok_iff.1 hf
        rw [analyze_eq_ok_iff, hl] at ha
        obtain ⟨root, hroot, -⟩ := ha
        obtain ⟨habsent, hfree, anchor, hlocate, rfl, hlayout⟩ := SourceFile.plan_eq_insert hplan
        refine ⟨change, anchor, file, ⟨file.path, file.language, text, root⟩,
          ⟨ht, hc, hf, habsent, hfree, ⟨piece, hlocate, hlayout, hi, rfl, rfl, hroot⟩, ?_⟩, rfl⟩
        rw [Texts.source_eq_ok_iff]
        exact ⟨Texts.put_same (Path.same_refl _) _, hpath, hl, hroot⟩

/-- The texts after a step follow those before it. -/
theorem follow_effect {K : SourceFile → SourceFile → Prop} (hu : texts.Uniform)
    (hK : ∀ {file file'} p, p.same file.path = true → p.same file'.path = true →
      K file file' → K (file.spelledAs p) (file'.spelledAs p))
    (hstep : ∀ {target change anchor file file'},
      Wrote reader texts step target change anchor file file' → K file file') :
    Texts.Follow reader K texts ((step.effect reader texts).after texts) := by
  cases he : step.effect reader texts with
  | write target text =>
    obtain ⟨change, anchor, file, file', hw, rfl⟩ := exists_wrote he
    exact Texts.follow_put hu hK hw.source hw.after (hstep hw)
  | present | missing | fails => exact .refl texts

/-- What each change keeps is kept by the step. -/
theorem keeps_effect {α : Type} {f : SourceFile → α} (hu : texts.Uniform)
    (hspelled : ∀ {file : SourceFile} p, p.same file.path = true → f (file.spelledAs p) = f file)
    (hstep : ∀ {target change anchor file file'},
      Wrote reader texts step target change anchor file file' → f file' = f file) :
    Texts.Keeps reader f texts ((step.effect reader texts).after texts) := by
  refine follow_effect hu ?_ hstep
  intro file file' p hp hp' hk
  rw [hspelled p hp, hspelled p hp', hk]

end PatchStep

theorem Texts.Uniform.after {texts : Texts} (h : texts.Uniform) (effect : Effect) :
    (effect.after texts).Uniform := by
  cases effect with
  | write path text => exact h.put path text
  | present | missing | fails => exact h

end Codemod
