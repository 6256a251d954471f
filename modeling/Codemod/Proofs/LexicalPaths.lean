import Codemod.Proofs.NormalPaths

/-!
Lexical normal forms.

Whoever follows the components of a path one after another, so that `.` stays where it is, `..`
undoes a name and stays at the root, comes to the same end by the normal form. Collapsing follows
components in this way itself, and so the normal form of a joined path is that of its joined normal
forms. A path has one normal form only: `normalize` finds it.
-/
namespace Codemod.Path

/-- A way of following components from one state to the next. -/
structure Follows {σ : Type} (step : σ → Component → σ) : Prop where
  here (s : σ) : step s .here = s
  up_name (s : σ) (text : String) : step (step s (.name text)) .up = s
  up_root (s : σ) : step (step s .root) .up = step s .root

theorem follows_pushNormal : Follows pushNormal where
  here _ := rfl
  up_name _ _ := rfl
  up_root _ := rfl

section Follows

variable {σ : Type} {step : σ → Component → σ}

/-- What is kept after one more component leads on as that component does. -/
theorem Follows.pushNormal (h : Follows step) (s : σ) (kept : List Component) (c : Component) :
    (pushNormal kept c).reverse.foldl step s = step (kept.reverse.foldl step s) c := by
  have hpush : (c :: kept).reverse.foldl step s = step (kept.reverse.foldl step s) c := by
    rw [List.reverse_cons, List.foldl_append, List.foldl_cons, List.foldl_nil]
  cases c with
  | root => exact hpush
  | name text => exact hpush
  | here => exact (h.here _).symm
  | up =>
    -- Only a name or the root in front of `..` makes it go away.
    cases kept with
    | nil => exact hpush
    | cons last rest =>
      have hlast : (last :: rest).reverse.foldl step s = step (rest.reverse.foldl step s) last := by
        rw [List.reverse_cons, List.foldl_append, List.foldl_cons, List.foldl_nil]
      cases last with
      | here => exact hpush
      | up => exact hpush
      | root =>
        rw [hlast, h.up_root]
        exact hlast
      | name text =>
        rw [hlast, h.up_name]
        rfl

/-- Following what is kept of some components is following these. -/
theorem Follows.foldl_pushNormal (h : Follows step) (s : σ) (kept cs : List Component) :
    (cs.foldl Path.pushNormal kept).reverse.foldl step s =
      cs.foldl step (kept.reverse.foldl step s) := by
  induction cs generalizing kept with
  | nil => rfl
  | cons c cs ih => rw [List.foldl_cons, ih, h.pushNormal, List.foldl_cons]

theorem Follows.foldl_collapse (h : Follows step) (s : σ) (cs : List Component) :
    (collapse cs).foldl step s = cs.foldl step s :=
  h.foldl_pushNormal s [] cs

end Follows

theorem collapse_append (cs ds : List Component) :
    collapse (cs ++ ds) = (ds.foldl pushNormal (cs.foldl pushNormal [])).reverse := by
  rw [collapse, List.foldl_append]

/-- The components in front may be collapsed first. -/
theorem collapse_append_left (cs ds : List Component) :
    collapse (collapse cs ++ ds) = collapse (cs ++ ds) := by
  rw [collapse_append, collapse_append, follows_pushNormal.foldl_collapse]

/-- The components behind may be collapsed first. -/
theorem collapse_append_right (cs ds : List Component) :
    collapse (cs ++ collapse ds) = collapse (cs ++ ds) := by
  rw [collapse_append, collapse_append, follows_pushNormal.foldl_collapse]

theorem join_of_isAbsolute {base inner : Path} (h : inner.isAbsolute = true) :
    base.join inner = inner := if_pos h

/-- A base in normal form leads to the same normal form. -/
theorem normalize_normalize_join (a b : Path) :
    normalize ((normalize a).join b) = normalize (a.join b) := by
  cases hb : b.isAbsolute with
  | true => rw [join_of_isAbsolute hb, join_of_isAbsolute hb]
  | false =>
    calc normalize ((normalize a).join b)
        = ofComponents (collapse ((normalize a).components ++ b.components)) := by
          rw [normalize, collapse_join hb]
      _ = ofComponents (collapse (a.components ++ b.components)) := by
          rw [components_normalize, collapse_append_left]
      _ = normalize (a.join b) := by rw [normalize, collapse_join hb]

/-- What is joined may be in normal form as well. -/
theorem normalize_join_normalize (a b : Path) :
    normalize (a.join (normalize b)) = normalize (a.join b) := by
  have hn : (normalize b).isAbsolute = b.isAbsolute := isAbsolute_normalize b
  cases hb : b.isAbsolute with
  | true =>
    rw [hb] at hn
    rw [join_of_isAbsolute hn, join_of_isAbsolute hb, normalize_normalize]
  | false =>
    rw [hb] at hn
    calc normalize (a.join (normalize b))
        = ofComponents (collapse (a.components ++ (normalize b).components)) := by
          rw [normalize, collapse_join hn]
      _ = ofComponents (collapse (a.components ++ b.components)) := by
          rw [components_normalize, collapse_append_right]
      _ = normalize (a.join b) := by rw [normalize, collapse_join hb]

theorem Kept.here_not_mem {kept : List Component} (h : Kept kept) : .here ∉ kept := by
  induction h with
  | empty => simp
  | root => simp
  | up hall =>
    intro hmem
    rcases List.mem_cons.1 hmem with hc | hc
    · cases hc
    · cases hall _ hc
  | name _ _ ih =>
    intro hmem
    rcases List.mem_cons.1 hmem with hc | hc
    · cases hc
    · exact ih hc

/-- There is no `..` above the root. -/
theorem Kept.up_not_mem {kept : List Component} (h : Kept kept) (hr : .root ∈ kept) :
    .up ∉ kept := by
  induction h with
  | empty => cases hr
  | root => simp
  | up hall =>
    rcases List.mem_cons.1 hr with hc | hc
    · cases hc
    · cases hall _ hc
  | name _ _ ih =>
    rcases List.mem_cons.1 hr with hc | hc
    · cases hc
    · intro hmem
      rcases List.mem_cons.1 hmem with hu | hu
      · cases hu
      · exact ih hc hu

/-- Every `..` stands in front of all other components. -/
def UpsLead (cs : List Component) : Prop :=
  ∃ count rest, cs = List.replicate count .up ++ rest ∧ .up ∉ rest

theorem Kept.upsLead {kept : List Component} (h : Kept kept) : UpsLead kept.reverse := by
  induction h with
  | empty => exact ⟨0, [], rfl, by simp⟩
  | root => exact ⟨0, [.root], rfl, by simp⟩
  | @up kept hall =>
    have hups : (Component.up :: kept).reverse = List.replicate (kept.length + 1) .up := by
      refine List.eq_replicate_iff.2 ⟨by simp, fun c hc => ?_⟩
      rcases List.mem_cons.1 (List.mem_reverse.1 hc) with hc | hc
      · exact hc
      · exact hall c hc
    exact ⟨kept.length + 1, [], by rw [hups, List.append_nil], by simp⟩
  | @name kept s _ _ ih =>
    obtain ⟨count, rest, hkept, hrest⟩ := ih
    refine ⟨count, rest ++ [.name s], ?_, by simpa using hrest⟩
    rw [List.reverse_cons, hkept, List.append_assoc]

/-- Plain components whose `..` lead may be kept one after another, on top of others that may be
kept with them. -/
theorem kept_reverse_append {kept rest : List Component} (h : Kept kept)
    (hr : ∀ c ∈ rest, c.IsPlain) (hu : .up ∉ rest) : Kept (rest.reverse ++ kept) := by
  induction rest generalizing kept with
  | nil => exact h
  | cons c rest ih =>
    obtain ⟨hc, hrest⟩ := List.forall_mem_cons.1 hr
    rw [List.mem_cons, not_or] at hu
    have hnext : Kept (c :: kept) := by
      cases c with
      | root => exact hc.elim
      | here => exact hc.elim
      | up => exact absurd rfl hu.1
      | name s => exact .name hc h
    rw [List.reverse_cons, List.append_assoc]
    exact ih hnext hrest hu.2

theorem kept_of_upsLead {cs : List Component} (h : ∀ c ∈ cs, c.IsPlain) (hu : UpsLead cs) :
    Kept cs.reverse := by
  obtain ⟨count, rest, rfl, hrest⟩ := hu
  rw [List.reverse_append, List.reverse_replicate]
  have hups : Kept (List.replicate count .up) :=
    kept_of_forall_up fun c hc => (List.mem_replicate.1 hc).2
  exact kept_reverse_append hups (fun c hc => h c (List.mem_append_right _ hc)) hrest

/-- What makes a path the lexical normal form of another one. -/
structure IsNormalFormOf (form p : Path) : Prop where
  no_here : .here ∉ form.components
  upsLead : UpsLead form.components
  relative_of_up : .up ∈ form.components → p.isAbsolute = false
  isAbsolute : form.isAbsolute = p.isAbsolute
  /-- It is spelled as its components are. -/
  spelled : ofComponents form.components = form
  /-- It leads to where the path leads to. -/
  leads : ∀ {σ : Type} {step : σ → Component → σ}, Follows step → ∀ s,
    form.components.foldl step s = p.components.foldl step s

theorem isNormalFormOf_normalize (p : Path) : (normalize p).IsNormalFormOf p where
  no_here := fun h => (kept_normalize p).here_not_mem (List.mem_reverse.2 h)
  upsLead := by
    have h := (kept_normalize p).upsLead
    rwa [List.reverse_reverse] at h
  relative_of_up := by
    intro hup
    cases ha : p.isAbsolute with
    | false => rfl
    | true =>
      have hroot : .root ∈ (normalize p).components :=
        mem_root_components.2 (by rw [isAbsolute_normalize, ha])
      exact absurd (List.mem_reverse.2 hup)
        ((kept_normalize p).up_not_mem (List.mem_reverse.2 hroot))
  isAbsolute := isAbsolute_normalize p
  spelled := by
    rw [components_normalize]
    rfl
  leads h s := by
    rw [components_normalize]
    exact h.foldl_collapse s p.components

/-- A normal form is kept as it is. -/
theorem IsNormalFormOf.kept {form p : Path} (h : form.IsNormalFormOf p) :
    Kept form.components.reverse := by
  have hplain : ∀ c ∈ named form.parts, c.IsPlain := fun _ hc => isPlain_of_mem_parts hc
  have hups := h.upsLead
  have hhere := h.no_here
  rcases form.lead_cases with hl | hl | hl
  · rw [components_eq, hl, List.nil_append] at hups ⊢
    exact kept_of_upsLead hplain hups
  · -- An absolute path has no `..` in its normal form, only names below the root.
    have hroot : .root ∈ form.components := by
      rw [components_eq, hl]
      exact List.mem_cons_self ..
    have habsolute : p.isAbsolute = true := by rw [← h.isAbsolute, mem_root_components.1 hroot]
    have hup : .up ∉ form.components := by
      intro hup
      rw [h.relative_of_up hup] at habsolute
      cases habsolute
    rw [components_eq, hl, List.mem_append, not_or] at hup
    rw [components_eq, hl, List.reverse_append]
    exact kept_reverse_append .root hplain hup.2
  · rw [components_eq, hl] at hhere
    exact absurd (List.mem_cons_self ..) hhere

/-- A path has one normal form only. -/
theorem IsNormalFormOf.eq_normalize {form p : Path} (h : form.IsNormalFormOf p) :
    form = normalize p := by
  have hcollapse : collapse form.components = collapse p.components :=
    congrArg List.reverse (h.leads follows_pushNormal [])
  rw [collapse_of_kept h.kept] at hcollapse
  rw [← h.spelled, hcollapse]
  rfl

/-- `normalize` finds the normal form of a path, once and for all, and the normal form of a joined
path is the same if either of its parts was put into normal form before. -/
theorem normalize_of_join :
    (∀ p : Path, (∀ form : Path, form.IsNormalFormOf p ↔ form = normalize p) ∧
      normalize (normalize p) = normalize p) ∧
    ∀ a b : Path, normalize (a.join b) = normalize ((normalize a).join b) ∧
      normalize ((normalize a).join b) = normalize (a.join (normalize b)) := by
  constructor
  · intro p
    refine ⟨fun form => ⟨IsNormalFormOf.eq_normalize, ?_⟩, normalize_normalize p⟩
    rintro rfl
    exact isNormalFormOf_normalize p
  · intro a b
    rw [normalize_join_normalize, normalize_normalize_join]
    exact ⟨rfl, rfl⟩

example : normalize (join ⟨"src/app"⟩ ⟨"../../../lib/./x/.."⟩) = ⟨"../lib"⟩ := by
  decide +kernel

end Codemod.Path
