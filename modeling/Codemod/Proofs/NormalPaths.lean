import Codemod.Proofs.PathJoins

/-!
Normal forms of paths.

`Kept` describes the components that `collapse` keeps, listed last first: names on top of the root,
or of as many `..` as lead out of the place where a relative path begins. Such a list is spelled by
a path that has it as its components, and collapsing it again changes nothing. `level` counts the
steps up against the steps down, which is what is left of any relative path when it is collapsed.
-/
namespace Codemod.Path

/-- A text that stands for itself in a path. -/
structure IsName (s : String) : Prop where
  solid : isIdle s = false
  not_up : s ≠ ".."
  whole : '/' ∉ s.toList

/-- A component that may stand anywhere behind the first. -/
def Component.IsPlain : Component → Prop
  | up => True
  | name s => IsName s
  | _ => False

/-- Components in normal form, the last one first. -/
inductive Kept : List Component → Prop
  | empty : Kept []
  | root : Kept [.root]
  | up {kept : List Component} : (∀ c ∈ kept, c = .up) → Kept (.up :: kept)
  | name {kept : List Component} {s : String} : IsName s → Kept kept → Kept (.name s :: kept)

theorem kept_of_forall_up {kept : List Component} (h : ∀ c ∈ kept, c = .up) : Kept kept := by
  cases kept with
  | nil => exact .empty
  | cons c kept =>
    obtain ⟨rfl, hrest⟩ := List.forall_mem_cons.1 h
    exact .up hrest

/-- What was kept first is in normal form by itself. -/
theorem Kept.of_append {front kept : List Component} (h : Kept (front ++ kept)) : Kept kept := by
  induction front with
  | nil => exact h
  | cons c front ih =>
    apply ih
    rw [List.cons_append] at h
    generalize front ++ kept = rest at h
    cases h with
    | root => exact .empty
    | up hall => exact kept_of_forall_up hall
    | name _ hrest => exact hrest

theorem kept_pushNormal {kept : List Component} {c : Component} (h : Kept kept) (hc : c.IsPlain) :
    Kept (pushNormal kept c) := by
  cases c with
  | root => exact hc.elim
  | here => exact hc.elim
  | name s => exact .name hc h
  | up =>
    cases h with
    | empty => exact .up nofun
    | root => exact .root
    | up hall => exact .up (List.forall_mem_cons.2 ⟨rfl, hall⟩)
    | name _ hrest => exact hrest

theorem kept_foldl {kept cs : List Component} (h : Kept kept) (hc : ∀ c ∈ cs, c.IsPlain) :
    Kept (cs.foldl pushNormal kept) := by
  induction cs generalizing kept with
  | nil => exact h
  | cons c cs ih =>
    obtain ⟨hfirst, hrest⟩ := List.forall_mem_cons.1 hc
    exact ih (kept_pushNormal h hfirst) hrest

theorem pushNormal_of_kept {kept : List Component} {c : Component} (h : Kept (c :: kept)) :
    pushNormal kept c = c :: kept := by
  cases h with
  | root => rfl
  | name => rfl
  | up hall =>
    cases kept with
    | nil => rfl
    | cons c kept =>
      obtain ⟨rfl, -⟩ := List.forall_mem_cons.1 hall
      rfl

/-- Components in normal form are kept one after another. -/
theorem foldl_pushNormal_of_kept {cs kept : List Component} (h : Kept (cs.reverse ++ kept)) :
    cs.foldl pushNormal kept = cs.reverse ++ kept := by
  induction cs generalizing kept with
  | nil => rfl
  | cons c cs ih =>
    have h' : Kept (cs.reverse ++ c :: kept) := by simpa using h
    rw [List.foldl_cons, pushNormal_of_kept h'.of_append, ih h']
    simp

theorem collapse_of_kept {cs : List Component} (h : Kept cs.reverse) : collapse cs = cs := by
  rw [collapse, foldl_pushNormal_of_kept (by simpa using h)]
  simp

theorem isPlain_of_mem_named {parts : List String} (h : ∀ part ∈ parts, '/' ∉ part.toList)
    {c : Component} (hc : c ∈ named parts) : c.IsPlain := by
  obtain ⟨part, hmem, rfl⟩ := List.mem_map.1 hc
  obtain ⟨hpart, hsolid⟩ := List.mem_filter.1 hmem
  unfold Component.ofPart
  split
  · trivial
  · rename_i hne
    exact ⟨by simpa using hsolid, hne, h part hpart⟩

theorem isPlain_of_mem_parts {p : Path} {c : Component} (hc : c ∈ named p.parts) : c.IsPlain :=
  isPlain_of_mem_named (fun _ => Text.not_mem_of_mem_splitText) hc

theorem lead_cases (p : Path) : p.lead = [] ∨ p.lead = [.root] ∨ p.lead = [.here] := by
  unfold lead
  split
  · split <;> simp
  · simp
  · simp

/-- The components that are left of a path are in normal form. -/
theorem kept_collapse (p : Path) : Kept (collapse p.components).reverse := by
  rw [collapse, List.reverse_reverse, components_eq, List.foldl_append]
  refine kept_foldl ?_ fun c hc => isPlain_of_mem_parts hc
  rcases p.lead_cases with h | h | h
  · rw [h]
    exact .empty
  · rw [h]
    exact .root
  · rw [h]
    exact .empty

theorem whole_of_isPlain {c : Component} (h : c.IsPlain) : '/' ∉ c.text.toList := by
  cases c with
  | up => decide
  | name s => exact h.whole
  | _ => exact h.elim

theorem not_idle_of_isPlain {c : Component} (h : c.IsPlain) : isIdle c.text = false := by
  cases c with
  | up => decide
  | name s => exact h.solid
  | _ => exact h.elim

theorem ofPart_text {c : Component} (h : c.IsPlain) : Component.ofPart c.text = c := by
  cases c with
  | up => rfl
  | name s => exact if_neg h.not_up
  | _ => exact h.elim

/-- Plain components are read off their texts. -/
theorem named_map_text {cs : List Component} (h : ∀ c ∈ cs, c.IsPlain) :
    named (cs.map Component.text) = cs := by
  induction cs with
  | nil => rfl
  | cons c cs ih =>
    obtain ⟨hc, hrest⟩ := List.forall_mem_cons.1 h
    have hfirst : named [c.text] = [c] := by simp [named, not_idle_of_isPlain hc, ofPart_text hc]
    calc named ((c :: cs).map Component.text)
        = named [c.text] ++ named (cs.map Component.text) := named_append [c.text] _
      _ = c :: cs := by rw [hfirst, ih hrest, List.singleton_append]

theorem whole_of_mem_map_text {cs : List Component} (h : ∀ c ∈ cs, c.IsPlain) :
    ∀ part ∈ cs.map Component.text, '/' ∉ part.toList := by
  intro part hpart
  obtain ⟨c, hc, rfl⟩ := List.mem_map.1 hpart
  exact whole_of_isPlain (h c hc)

/-- Only the first component of a normal form may be the root; all others are plain. -/
theorem Kept.isPlain {cs : List Component} (h : Kept cs.reverse) :
    (∀ c ∈ cs, c.IsPlain) ∨ ∃ rest, cs = .root :: rest ∧ ∀ c ∈ rest, c.IsPlain := by
  generalize hr : cs.reverse = kept at h
  obtain rfl : cs = kept.reverse := by rw [← hr, List.reverse_reverse]
  clear hr
  induction h with
  | empty => exact .inl nofun
  | root => exact .inr ⟨[], rfl, nofun⟩
  | @up kept hall =>
    refine .inl fun c hc => ?_
    rcases List.mem_cons.1 (List.mem_reverse.1 hc) with rfl | hc
    · trivial
    · rw [hall c hc]
      trivial
  | @name kept s hs _ ih =>
    have hlast : ∀ c ∈ [Component.name s], c.IsPlain := List.forall_mem_singleton.2 hs
    rw [List.reverse_cons]
    rcases ih with hall | ⟨rest, hrest, hall⟩
    · exact .inl fun c hc => (List.mem_append.1 hc).elim (hall c) (hlast c)
    · refine .inr ⟨rest ++ [.name s], by simp [hrest], ?_⟩
      exact fun c hc => (List.mem_append.1 hc).elim (hall c) (hlast c)

/-- A path that lists components in normal form has just these. -/
theorem components_ofComponents {cs : List Component} (h : Kept cs.reverse) :
    (ofComponents cs).components = cs := by
  rcases h.isPlain with hall | ⟨rest, rfl, hall⟩
  · cases cs with
    | nil => rfl
    | cons c cs =>
      have hc := hall c (List.mem_cons_self ..)
      have hidle := not_idle_of_isPlain hc
      have hne : c.text ≠ "" ∧ c.text ≠ "." := by simpa [isIdle] using hidle
      have hparts := whole_of_mem_map_text hall
      have hspelled : ofComponents (c :: cs) =
          ⟨Text.joinText "/" (c.text :: cs.map Component.text)⟩ := by
        cases c with
        | root => exact hc.elim
        | _ => rfl
      rw [hspelled, components_joinText hparts hne.1, if_neg hne.2]
      exact named_map_text hall
  · have hspelled : ofComponents (.root :: rest) =
        ⟨"/" ++ Text.joinText "/" (rest.map Component.text)⟩ := rfl
    rw [hspelled, components_slash (whole_of_mem_map_text hall), named_map_text hall]

@[simp] theorem components_normalize (p : Path) :
    (normalize p).components = collapse p.components :=
  components_ofComponents (kept_collapse p)

theorem kept_normalize (p : Path) : Kept (normalize p).components.reverse := by
  rw [components_normalize]
  exact kept_collapse p

/-- A normal form is its own normal form, spelled alike. -/
@[simp] theorem normalize_normalize (p : Path) : normalize (normalize p) = normalize p := by
  rw [normalize, components_normalize, collapse_of_kept (kept_collapse p)]
  rfl

theorem mem_root_pushNormal {kept : List Component} {c : Component} :
    .root ∈ pushNormal kept c ↔ .root ∈ kept ∨ c = .root := by
  cases c with
  | root => simp [pushNormal]
  | here => simp [pushNormal]
  | name s => simp [pushNormal]
  | up =>
    cases kept with
    | nil => simp [pushNormal]
    | cons k kept => cases k <;> simp [pushNormal]

theorem mem_root_foldl {kept cs : List Component} :
    .root ∈ cs.foldl pushNormal kept ↔ .root ∈ kept ∨ .root ∈ cs := by
  induction cs generalizing kept with
  | nil => simp
  | cons c cs ih => simp [ih, mem_root_pushNormal, or_assoc, eq_comm]

/-- Collapsing neither loses the root nor brings one. -/
theorem mem_root_collapse {cs : List Component} : .root ∈ collapse cs ↔ .root ∈ cs := by
  simp [collapse, mem_root_foldl]

/-- The absolute paths are those with a root. -/
theorem mem_root_components {p : Path} : .root ∈ p.components ↔ p.isAbsolute = true := by
  have hnamed : Component.root ∉ named p.parts := fun h => isPlain_of_mem_parts h
  have hlead : .root ∈ p.components ↔ p.lead = [.root] := by
    rw [components_eq, List.mem_append]
    rcases p.lead_cases with h | h | h <;> simp [h, hnamed]
  rw [hlead]
  constructor
  · intro h
    cases ha : p.isAbsolute with
    | true => rfl
    | false => rcases lead_of_relative ha with hl | hl <;> simp [hl] at h
  · intro h
    obtain ⟨c, cs, hc⟩ : ∃ c cs, p.spelling.toList = c :: cs := by
      cases hs : p.spelling.toList with
      | nil => simp [isAbsolute, hs] at h
      | cons c cs => exact ⟨c, cs, rfl⟩
    obtain rfl : c = '/' := by simpa [isAbsolute, hc] using h
    have hp : p.parts = "" :: (Text.split '/' cs).map String.ofList := by
      simp [parts, Text.splitText, hc, Text.split]
    have hne : p.spelling ≠ "" := by
      intro he
      simp [he] at hc
    simp [lead, hp, hne]

@[simp] theorem isAbsolute_normalize (p : Path) : (normalize p).isAbsolute = p.isAbsolute := by
  rw [Bool.eq_iff_iff, ← mem_root_components, ← mem_root_components, components_normalize,
    mem_root_collapse]

/-- The steps up of a relative path, less its steps down. -/
def level : List Component → Int
  | [] => 0
  | .up :: cs => level cs + 1
  | .name _ :: cs => level cs - 1
  | _ :: cs => level cs

theorem level_append (as bs : List Component) : level (as ++ bs) = level as + level bs := by
  induction as with
  | nil => simp [level]
  | cons c as ih => cases c <;> simp [level, ih] <;> omega

theorem level_reverse (cs : List Component) : level cs.reverse = level cs := by
  induction cs with
  | nil => rfl
  | cons c cs ih =>
    cases c <;> simp [level, level_append, ih]
    omega

theorem level_pushNormal {kept : List Component} {c : Component} (h : .root ∉ kept) :
    level (pushNormal kept c) = level kept + level [c] := by
  cases c with
  | root => simp [pushNormal, level]
  | here => simp [pushNormal, level]
  | name s => simp [pushNormal, level]; omega
  | up =>
    cases kept with
    | nil => simp [pushNormal, level]
    | cons k kept =>
      cases k with
      | root => simp at h
      | name s => simp [pushNormal, level]
      | _ => simp [pushNormal, level]

/-- Collapsing the components of a relative path keeps its level. -/
theorem level_foldl {kept cs : List Component} (h : .root ∉ kept) (hc : .root ∉ cs) :
    level (cs.foldl pushNormal kept) = level kept + level cs := by
  induction cs generalizing kept with
  | nil => simp [level]
  | cons c cs ih =>
    simp only [List.mem_cons, not_or] at hc
    have hnext : Component.root ∉ pushNormal kept c := by
      rw [mem_root_pushNormal]
      simp [h, Ne.symm hc.1]
    have hsplit : level (c :: cs) = level [c] + level cs := level_append [c] cs
    rw [List.foldl_cons, ih hnext hc.2, level_pushNormal h, hsplit]
    omega

end Codemod.Path
