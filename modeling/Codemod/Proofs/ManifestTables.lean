import Codemod.Manifest.Dependencies
import Codemod.Proofs.JsonTexts

/-!
Manifests in which dependencies were declared.

A manifest that was written with all dependencies declared, if it is read again, has them declared.
So declaring the same dependencies once more changes nothing.
-/
namespace Codemod.Manifest

open Json

theorem lookup_shapeMember (name : String) (members : Table) :
    lookup name (members.map shapeMember) = (lookup name members).map shape := by
  induction members with
  | nil => rfl
  | cons member rest ih =>
    rw [List.map_cons, lookup, lookup, shapeMember, ih]
    split <;> simp

theorem mem_of_lookup {name : String} {members : Table} {value : Json}
    (h : lookup name members = some value) : (name, value) ∈ members := by
  induction members with
  | nil => cases h
  | cons member rest ih =>
    rw [lookup] at h
    split at h
    · rename_i hn
      obtain rfl := Option.some.inj h
      rw [← hn]
      exact List.mem_cons_self ..
    · exact List.mem_cons_of_mem _ (ih h)

/-- A table declares the names of its members. -/
theorem declares_iff {table : Table} {name : String} :
    declares table name = true ↔ name ∈ table.map Prod.fst := by
  rw [declares]
  induction table with
  | nil => simp [lookup]
  | cons member rest ih =>
    rw [lookup]
    by_cases hn : member.1 = name
    · simp [hn]
    · simp [hn, ih, Ne.symm hn]

theorem perm_insertSorted (name : String) (value : Json) (table : Table) :
    (insertSorted name value table).Perm ((name, value) :: table) := by
  induction table with
  | nil => exact .refl _
  | cons member rest ih =>
    rw [insertSorted]
    split
    · exact .refl _
    · exact (ih.cons member).trans (.swap ..)

/-- What is not declared yet is declared along with the rest. -/
theorem perm_declare (table : Table) (dependency : Dependency) :
    (declare table dependency).Perm (if declares table dependency.name then table
      else (dependency.name, .string dependency.version) :: table) := by
  unfold declare
  split
  · exact .refl _
  · split
    · exact perm_insertSorted ..
    · exact List.perm_append_singleton ..

theorem declares_declare {table : Table} {dependency : Dependency} {name : String} :
    declares (declare table dependency) name = true ↔
      declares table name = true ∨ name = dependency.name := by
  have hperm := (perm_declare table dependency).map Prod.fst
  rw [declares_iff, hperm.mem_iff]
  split
  · rename_i h
    rw [declares_iff] at *
    constructor
    · exact .inl
    · rintro (h' | rfl)
      · exact h'
      · exact h
  · rw [declares_iff]
    simp [or_comm]

theorem nodup_declare {table : Table} (h : (table.map Prod.fst).Nodup) (dependency : Dependency) :
    ((declare table dependency).map Prod.fst).Nodup := by
  rw [((perm_declare table dependency).map Prod.fst).nodup_iff]
  split
  · exact h
  · rename_i hd
    exact List.nodup_cons.2 ⟨fun hm => hd (declares_iff.2 hm), h⟩

theorem mem_declare {table : Table} {dependency : Dependency} {member : String × Json}
    (h : member ∈ declare table dependency) :
    member ∈ table ∨ member = (dependency.name, .string dependency.version) := by
  rw [(perm_declare table dependency).mem_iff] at h
  split at h
  · exact .inl h
  · exact (List.mem_cons.1 h).symm

theorem tidy_declare {table : Table} (h : (object table).Tidy) (dependency : Dependency) :
    (object (declare table dependency)).Tidy := by
  obtain ⟨hnames, hvalues⟩ := tidy_object_iff.1 h
  refine tidy_object_iff.2 ⟨nodup_declare hnames dependency, ?_⟩
  intro member hm
  rcases mem_declare hm with hm | rfl
  · exact hvalues member hm
  · trivial

theorem declares_foldl {dependencies : List Dependency} {table : Table} {name : String} :
    declares (dependencies.foldl declare table) name = true ↔
      declares table name = true ∨ name ∈ dependencies.map Dependency.name := by
  induction dependencies generalizing table with
  | nil => simp
  | cons dependency rest ih =>
    rw [List.foldl_cons, ih, declares_declare, List.map_cons, List.mem_cons, or_assoc]

theorem tidy_foldl {dependencies : List Dependency} {table : Table} (h : (object table).Tidy) :
    (object (dependencies.foldl declare table)).Tidy := by
  induction dependencies generalizing table with
  | nil => exact h
  | cons dependency rest ih => exact ih (tidy_declare h dependency)

theorem tidy_of_tableOf {members table : Table} (h : (object members).Tidy)
    (ht : tableOf members = .ok table) : (object table).Tidy := by
  unfold tableOf at ht
  split at ht
  · obtain rfl := Except.ok.inj ht
    exact tidy_object_iff.2 (by simp)
  · rename_i found hl
    obtain rfl := Except.ok.inj ht
    exact (tidy_object_iff.1 h).2 _ (mem_of_lookup hl)
  · cases ht

theorem isBlank_of_isIndent {c : Char} (h : Text.isIndent c = true) :
    Cursor.isBlank c = true := by
  simp only [Text.isIndent, Bool.or_eq_true, beq_iff_eq] at h
  rcases h with rfl | rfl <;> decide

/-- The indentation of a text is blank. -/
theorem isBlank_of_mem_detectIndent {text : String} {c : Char}
    (h : c ∈ (detectIndent text).toList) : Cursor.isBlank c = true := by
  rw [detectIndent, String.toList_ofList] at h
  cases hf : (Text.split '\n' text.toList).findSome? indentOf? with
  | none =>
    rw [hf] at h
    have hc : c = ' ' := by simpa using h
    rw [hc]
    decide
  | some indent =>
    rw [hf] at h
    obtain ⟨line, -, hline⟩ := List.exists_of_findSome?_eq_some hf
    unfold indentOf? at hline
    split at hline
    · cases hline
    · split at hline
      · cases hline
      · obtain rfl := Option.some.inj hline
        exact isBlank_of_isIndent (List.all_eq_true.1 List.all_takeWhile c h)

theorem membersOf_eq_ok_iff {text : String} {members : Table} :
    membersOf text = .ok members ↔ read text = .ok (.object members) := by
  unfold membersOf
  constructor
  · intro h
    split at h
    · cases h
    · rename_i found hr
      rw [hr, Except.ok.inj h]
    · cases h
  · intro h
    rw [h]

section edited

variable {text text' : String} {members table : Table} {dependencies : List Dependency}

/-- What becomes of a text with a table. -/
theorem declareAll?_eq (hm : read text = .ok (.object members)) (ht : tableOf members = .ok table) :
    declareAll? text dependencies =
      .ok (if dependencies.all fun dependency => declares table dependency.name then none
        else some (layOutLike text
          (.object (put "dependencies" (.object (dependencies.foldl declare table)) members)))) := by
  rw [declareAll?, membersOf_eq_ok_iff.2 hm]
  simp only [bind, Except.bind, ht]
  split <;> rfl

theorem of_declareAll?_eq_some (h : declareAll? text dependencies = .ok (some text')) :
    ∃ members table, read text = .ok (.object members) ∧ tableOf members = .ok table ∧
      text' = layOutLike text
        (.object (put "dependencies" (.object (dependencies.foldl declare table)) members)) := by
  obtain ⟨members, hm, h⟩ := bind_eq_ok_iff.1 h
  obtain ⟨table, ht, h⟩ := bind_eq_ok_iff.1 h
  split at h
  · cases h
  · exact ⟨members, table, membersOf_eq_ok_iff.1 hm, ht,
      (Option.some.inj (Except.ok.inj h)).symm⟩

end edited

/-- A manifest is written over several lines, with blanks behind it at most. -/
theorem exists_layOutLike_eq (text : String) (json : Json) :
    ∃ blanks : List Char, (∀ b ∈ blanks, Cursor.isBlank b = true) ∧
      layOutLike text json = json.pretty (detectIndent text) ++ String.ofList blanks := by
  unfold layOutLike
  split
  · exact ⟨['\n'], List.forall_mem_singleton.2 (by decide), rfl⟩
  · exact ⟨[], nofun, rfl⟩

/-- A text with all dependencies declared has them declared, if it can be read. -/
theorem declareAll?_again {text text' : String} {dependencies : List Dependency}
    (h : declareAll? text dependencies = .ok (some text')) :
    declareAll? text' dependencies = .ok none ∨ ∃ e, declareAll? text' dependencies = .error e := by
  obtain ⟨members, table, hm, ht, rfl⟩ := of_declareAll?_eq_some h
  have htidy := tidy_of_read hm
  have htable : (object (dependencies.foldl declare table)).Tidy :=
    tidy_foldl (tidy_of_tableOf htidy ht)
  have hjson : (object (put "dependencies" (object (dependencies.foldl declare table))
      members)).Tidy := tidy_put htidy htable
  cases hm' : membersOf (layOutLike text (.object (put "dependencies"
      (.object (dependencies.foldl declare table)) members))) with
  | error e => exact .inr ⟨e, by rw [declareAll?, hm']; rfl⟩
  | ok members' =>
    have hwritten := membersOf_eq_ok_iff.1 hm'
    have hread := hwritten
    obtain ⟨blanks, hb, he⟩ := exists_layOutLike_eq text (.object (put "dependencies"
      (.object (dependencies.foldl declare table)) members))
    rw [he] at hread
    have hshape := shape_of_read (fun c => isBlank_of_mem_detectIndent) hjson hb hread
    obtain ⟨_, hmembers, hmap⟩ := exists_of_shape_object (hshape.trans (shape_object _))
    obtain rfl := Json.object.inj hmembers
    have hlookup : (lookup "dependencies" members').map shape =
        some (object (dependencies.foldl declare table)).shape := by
      rw [← lookup_shapeMember, hmap, lookup_shapeMember, lookup_put_self, Option.map_some]
    obtain ⟨found, hfound, hsame⟩ := Option.map_eq_some_iff.1 hlookup
    obtain ⟨table', rfl, hnames⟩ := exists_of_shape_object (hsame.trans (shape_object _))
    have hall : dependencies.all (fun dependency => declares table' dependency.name) = true := by
      rw [List.all_eq_true]
      intro dependency hd
      have hname := congrArg (List.map Prod.fst) hnames
      simp only [List.map_map] at hname
      have hdeclared : declares (dependencies.foldl declare table) dependency.name = true :=
        declares_foldl.2 (.inr (List.mem_map_of_mem hd))
      rw [declares_iff] at hdeclared ⊢
      have hfst : Prod.fst ∘ shapeMember = Prod.fst := rfl
      rw [hfst] at hname
      rw [hname]
      exact hdeclared
    have htable' : tableOf members' = .ok table' := by simp [tableOf, hfound]
    exact .inl (by rw [declareAll?_eq hwritten htable', if_pos hall])

end Codemod.Manifest
