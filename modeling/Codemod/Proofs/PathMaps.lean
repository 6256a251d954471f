import Codemod.Path.Map

/-!
Laws of maps by path.

Two paths are one key exactly when the order of paths does not tell them apart, so a lookup after
an insertion has the two usual cases. An insertion of a new key adds one entry and leaves the
others and their order alone.
-/
namespace Codemod

namespace Path

theorem Component.compare_eq_iff {a b : Component} : a.compare b = .eq ↔ a = b := by
  cases a <;> cases b <;> simp [Component.compare, Component.rank]

theorem compareComponents_eq_iff {as bs : List Component} :
    compareComponents as bs = .eq ↔ as = bs := by
  induction as generalizing bs with
  | nil => cases bs <;> simp [compareComponents]
  | cons a as ih =>
    cases bs with
    | nil => simp [compareComponents]
    | cons b bs =>
      cases h : a.compare b with
      | eq =>
        obtain rfl := Component.compare_eq_iff.1 h
        simp [compareComponents, h, ih]
      | lt | gt =>
        have hne : a ≠ b := fun e => by simp [Component.compare_eq_iff.2 e] at h
        simp [compareComponents, h, hne]

theorem same_iff {p q : Path} : p.same q = true ↔ p.components = q.components := by
  simp [same]

theorem compare_eq_iff {p q : Path} : p.compare q = .eq ↔ p.same q = true := by
  rw [compare, compareComponents_eq_iff, same_iff]

@[simp] theorem same_refl (p : Path) : p.same p = true := by simp [same]

@[simp] theorem compare_self (p : Path) : p.compare p = .eq := compare_eq_iff.2 (same_refl p)

theorem same_symm {p q : Path} (h : p.same q = true) : q.same p = true := by
  rw [same_iff] at *
  exact h.symm

theorem same_trans {p q r : Path} (h : p.same q = true) (h' : q.same r = true) :
    p.same r = true := by
  rw [same_iff] at *
  exact h.trans h'

theorem same_comm (p q : Path) : p.same q = q.same p := by
  rw [Bool.eq_iff_iff]
  exact ⟨same_symm, same_symm⟩

/-- Either of two paths of one file may stand for the other in a comparison. -/
theorem same_congr {p q : Path} (h : p.same q = true) (r : Path) : r.same p = r.same q := by
  rw [Bool.eq_iff_iff]
  exact ⟨fun hr => same_trans hr h, fun hr => same_trans hr (same_symm h)⟩

/-- What depends on the components only: the extension of a path. -/
theorem extension_congr {p q : Path} (h : p.same q = true) : p.extension = q.extension := by
  simp [extension, fileName, same_iff.1 h]

end Path

namespace PathMap

variable {β : Type}

theorem findEntry?_congr {p q : Path} (h : p.same q = true) (entries : List (Path × β)) :
    findEntry? p entries = findEntry? q entries := by
  induction entries with
  | nil => rfl
  | cons entry rest ih => simp [ findEntry?, Path.same_congr h, ih]

/-- A lookup does not depend on how the path is spelled. -/
theorem find?_congr {p q : Path} (h : p.same q = true) (map : PathMap β) :
    map.find? p = map.find? q := findEntry?_congr h map.entries

theorem findEntry?_insertEntry_same {p q : Path} (h : p.same q = true) (value : β)
    (entries : List (Path × β)) : findEntry? q (insertEntry p value entries) = some value := by
  induction entries with
  | nil => simp [insertEntry, findEntry?, h]
  | cons entry rest ih =>
    obtain ⟨key, old⟩ := entry
    cases hc : p.compare key with
    | lt => simp [insertEntry, hc, findEntry?, h]
    | eq =>
      have hk : key.same q = true :=
        Path.same_trans (Path.same_symm (Path.compare_eq_iff.1 hc)) h
      simp [insertEntry, hc, findEntry?, hk]
    | gt =>
      have hk : key.same q = false := by
        rw [Bool.eq_false_iff]
        intro hk
        have : p.compare key = .eq :=
          Path.compare_eq_iff.2 (Path.same_trans h (Path.same_symm hk))
        simp [hc] at this
      simp [insertEntry, hc, findEntry?, hk, ih]

theorem findEntry?_insertEntry_other {p q : Path} (h : p.same q = false) (value : β)
    (entries : List (Path × β)) :
    findEntry? q (insertEntry p value entries) = findEntry? q entries := by
  induction entries with
  | nil => simp [insertEntry, findEntry?, h]
  | cons entry rest ih =>
    obtain ⟨key, old⟩ := entry
    cases hc : p.compare key with
    | lt => simp [insertEntry, hc, findEntry?, h]
    | eq =>
      have hk : key.same q = false := by
        rw [Path.same_comm, ← Path.same_congr (Path.compare_eq_iff.1 hc), Path.same_comm]
        exact h
      simp [insertEntry, hc, findEntry?, hk]
    | gt => simp [insertEntry, hc, findEntry?, ih]

/-- A lookup after an insertion. -/
theorem find?_insert (map : PathMap β) (p q : Path) (value : β) :
    (map.insert p value).find? q = if p.same q then some value else map.find? q := by
  cases h : p.same q with
  | true => simpa [find?, insert] using findEntry?_insertEntry_same h value map.entries
  | false => simpa [find?, insert] using findEntry?_insertEntry_other h value map.entries

theorem find?_insert_self (map : PathMap β) (p : Path) (value : β) :
    (map.insert p value).find? p = some value := by simp [find?_insert]

theorem insertEntry_insertEntry (p : Path) (old new : β) (entries : List (Path × β)) :
    insertEntry p new (insertEntry p old entries) = insertEntry p new entries := by
  induction entries with
  | nil => simp [insertEntry]
  | cons entry rest ih =>
    obtain ⟨key, value⟩ := entry
    cases hc : p.compare key <;> simp [insertEntry, hc, ih]

/-- Of two insertions of one key the later one counts. -/
theorem insert_insert (map : PathMap β) (p : Path) (old new : β) :
    (map.insert p old).insert p new = map.insert p new :=
  congrArg PathMap.mk (insertEntry_insertEntry p old new map.entries)

@[simp] theorem find?_empty (p : Path) : (empty : PathMap β).find? p = none := rfl

theorem exists_mem_of_find {p : Path} {value : β} {entries : List (Path × β)}
    (h : findEntry? p entries = some value) :
    ∃ key, key.same p = true ∧ (key, value) ∈ entries := by
  induction entries with
  | nil => simp [ findEntry?] at h
  | cons entry rest ih =>
    obtain ⟨key, old⟩ := entry
    cases hk : key.same p with
    | true =>
      simp only [ findEntry?, hk, if_true, Option.some.injEq] at h
      exact ⟨key, hk, by simp [h]⟩
    | false =>
      simp only [ findEntry?, hk] at h
      obtain ⟨key', hk', hm⟩ := ih h
      exact ⟨key', hk', List.mem_cons_of_mem _ hm⟩

theorem findEntry?_eq_none {p : Path} {entries : List (Path × β)}
    (h : findEntry? p entries = none) : ∀ entry ∈ entries, entry.1.same p = false := by
  induction entries with
  | nil => simp
  | cons entry rest ih =>
    obtain ⟨key, old⟩ := entry
    cases hk : key.same p with
    | true => simp [ findEntry?, hk] at h
    | false =>
      simp only [ findEntry?, hk] at h
      simpa [hk] using ih h

theorem findEntry?_of_forall {p : Path} {entries : List (Path × β)}
    (h : ∀ entry ∈ entries, entry.1.same p = false) : findEntry? p entries = none := by
  induction entries with
  | nil => rfl
  | cons entry rest ih =>
    obtain ⟨hhead, hrest⟩ := List.forall_mem_cons.1 h
    simp [ findEntry?, hhead, ih hrest]

/-- An entry is found whose value is that of all entries of the key. -/
theorem findEntry?_of_unique {p key : Path} {value : β} {entries : List (Path × β)}
    (hs : key.same p = true) (hmem : (key, value) ∈ entries)
    (h : ∀ entry ∈ entries, entry.1.same p = true → entry.2 = value) :
    findEntry? p entries = some value := by
  induction entries with
  | nil => cases hmem
  | cons entry rest ih =>
    obtain ⟨hhead, hrest⟩ := List.forall_mem_cons.1 h
    by_cases he : entry.1.same p
    · simp [ findEntry?, he, hhead he]
    · rcases List.mem_cons.1 hmem with rfl | hmem
      · exact absurd hs he
      · simpa [ findEntry?, he] using ih hmem hrest

/-- An insertion of a new key puts one entry between the others. -/
theorem insertEntry_of_none {p : Path} {entries : List (Path × β)}
    (h : findEntry? p entries = none) (value : β) :
    ∃ front back, entries = front ++ back ∧
      insertEntry p value entries = front ++ (p, value) :: back := by
  induction entries with
  | nil => exact ⟨[], [], rfl, rfl⟩
  | cons entry rest ih =>
    obtain ⟨key, old⟩ := entry
    have hk : key.same p = false := findEntry?_eq_none h (key, old) (List.mem_cons_self ..)
    cases hc : p.compare key with
    | lt => exact ⟨[], (key, old) :: rest, rfl, by simp [insertEntry, hc]⟩
    | eq => simp [Path.same_symm (Path.compare_eq_iff.1 hc)] at hk
    | gt =>
      simp only [ findEntry?, hk] at h
      obtain ⟨front, back, he, hi⟩ := ih h
      exact ⟨(key, old) :: front, back, by simp [he], by simp [insertEntry, hc, hi]⟩

/-- Every entry after an insertion is the new value's or was there before. -/
theorem mem_insertEntry {p : Path} {value : β} {entries : List (Path × β)} {entry : Path × β}
    (h : entry ∈ insertEntry p value entries) :
    (entry.1.same p = true ∧ entry.2 = value) ∨ entry ∈ entries := by
  induction entries with
  | nil =>
    obtain rfl := List.mem_singleton.1 h
    exact .inl ⟨Path.same_refl p, rfl⟩
  | cons head rest ih =>
    cases hc : p.compare head.1 with
    | lt =>
      simp only [insertEntry, hc] at h
      rcases List.mem_cons.1 h with rfl | h
      · exact .inl ⟨Path.same_refl p, rfl⟩
      · exact .inr h
    | eq =>
      simp only [insertEntry, hc] at h
      rcases List.mem_cons.1 h with rfl | h
      · exact .inl ⟨Path.same_symm (Path.compare_eq_iff.1 hc), rfl⟩
      · exact .inr (List.mem_cons_of_mem _ h)
    | gt =>
      simp only [insertEntry, hc] at h
      rcases List.mem_cons.1 h with rfl | h
      · exact .inr (List.mem_cons_self ..)
      · exact (ih h).imp_right (List.mem_cons_of_mem _)

end PathMap

end Codemod
