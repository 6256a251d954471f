import Codemod.Proofs.PathMaps

/-!
The order of paths, and maps in that order.

The order of component lists is total and transitive. A map that was built by insertions lists its
keys in strictly increasing order, so every entry of it is the one that a lookup finds.
-/
namespace Codemod

namespace Path

theorem Component.compare_swap (a b : Component) : (a.compare b).swap = b.compare a := by
  cases a <;> cases b <;>
    first | rfl | exact (@Std.OrientedCmp.eq_swap String Ord.compare _ _ _).symm

theorem Component.lt_trans {a b c : Component} (h : a.compare b = .lt) (h' : b.compare c = .lt) :
    a.compare c = .lt := by
  cases a <;> cases b <;> simp [Component.compare, Component.rank, Nat.compare_eq_lt] at h <;>
    cases c <;> simp [Component.compare, Component.rank, Nat.compare_eq_lt] at h' ⊢
  exact Std.TransCmp.lt_trans h h'

theorem compareComponents_swap (as bs : List Component) :
    (compareComponents as bs).swap = compareComponents bs as := by
  induction as generalizing bs with
  | nil => cases bs <;> rfl
  | cons a as ih =>
    cases bs with
    | nil => rfl
    | cons b bs =>
      simp only [compareComponents, ← Component.compare_swap a b]
      cases a.compare b
      · rfl
      · exact ih bs
      · rfl

theorem compareComponents_lt_trans {as bs cs : List Component}
    (h : compareComponents as bs = .lt) (h' : compareComponents bs cs = .lt) :
    compareComponents as cs = .lt := by
  induction as generalizing bs cs with
  | nil =>
    cases bs with
    | nil => simp [compareComponents] at h
    | cons b bs =>
      cases cs with
      | nil => simp [compareComponents] at h'
      | cons c cs => rfl
  | cons a as ih =>
    cases bs with
    | nil => simp [compareComponents] at h
    | cons b bs =>
      cases cs with
      | nil => simp [compareComponents] at h'
      | cons c cs =>
        simp only [compareComponents] at h h' ⊢
        cases hab : a.compare b with
        | gt => simp [hab] at h
        | lt =>
          cases hbc : b.compare c with
          | gt => simp [hbc] at h'
          | lt => rw [Component.lt_trans hab hbc]
          | eq => rw [← Component.compare_eq_iff.1 hbc, hab]
        | eq =>
          obtain rfl := Component.compare_eq_iff.1 hab
          cases hbc : a.compare c with
          | gt => simp [hbc] at h'
          | lt => rfl
          | eq =>
            simp only [hab, hbc] at h h'
            exact ih h h'

theorem compare_swap (p q : Path) : (p.compare q).swap = q.compare p :=
  compareComponents_swap ..

theorem compare_lt_trans {p q r : Path} (h : p.compare q = .lt) (h' : q.compare r = .lt) :
    p.compare r = .lt := compareComponents_lt_trans h h'

theorem compare_gt_iff {p q : Path} : p.compare q = .gt ↔ q.compare p = .lt := by
  rw [← compare_swap p q]
  cases p.compare q <;> simp

/-- Either of two paths of one file may stand for the other in the order. -/
theorem compare_congr {p q : Path} (h : p.same q = true) (r : Path) : r.compare p = r.compare q := by
  simp only [compare, same_iff.1 h]

theorem same_eq_false_of_lt {p q : Path} (h : p.compare q = .lt) : p.same q = false := by
  rw [Bool.eq_false_iff]
  intro hs
  rw [compare_eq_iff.2 hs] at h
  cases h

end Path

namespace PathMap

variable {β : Type}

/-- The keys follow one another in order, no two of them the same. -/
def Ordered (map : PathMap β) : Prop :=
  map.entries.Pairwise fun a b => a.1.compare b.1 = .lt

theorem ordered_empty : (empty : PathMap β).Ordered := .nil

theorem pairwise_insertEntry {p : Path} (value : β) {entries : List (Path × β)}
    (h : entries.Pairwise fun a b => a.1.compare b.1 = .lt) :
    (insertEntry p value entries).Pairwise fun a b => a.1.compare b.1 = .lt := by
  induction entries with
  | nil => simp [insertEntry]
  | cons head rest ih =>
    obtain ⟨key, old⟩ := head
    obtain ⟨hhead, hrest⟩ := List.pairwise_cons.1 h
    cases hc : p.compare key with
    | lt =>
      simp only [insertEntry, hc]
      refine List.pairwise_cons.2 ⟨?_, h⟩
      intro entry hmem
      rcases List.mem_cons.1 hmem with rfl | hmem
      · exact hc
      · exact Path.compare_lt_trans hc (hhead entry hmem)
    | eq =>
      simp only [insertEntry, hc]
      exact List.pairwise_cons.2 ⟨hhead, hrest⟩
    | gt =>
      simp only [insertEntry, hc]
      refine List.pairwise_cons.2 ⟨?_, ih hrest⟩
      intro entry hmem
      rcases mem_insertEntry hmem with ⟨hs, _⟩ | hmem
      · rw [Path.compare_congr hs]
        exact Path.compare_gt_iff.1 hc
      · exact hhead entry hmem

theorem ordered_insert {map : PathMap β} (h : map.Ordered) (p : Path) (value : β) :
    (map.insert p value).Ordered := pairwise_insertEntry value h

theorem insertEntry_comm_of_lt {p q : Path} (h : p.compare q = .lt) (v w : β)
    (entries : List (Path × β)) :
    insertEntry p v (insertEntry q w entries) = insertEntry q w (insertEntry p v entries) := by
  have hqp : q.compare p = .gt := Path.compare_gt_iff.2 h
  induction entries with
  | nil => simp [insertEntry, h, hqp]
  | cons entry rest ih =>
    obtain ⟨key, old⟩ := entry
    cases hp : p.compare key with
    | lt => cases hq : q.compare key <;> simp [insertEntry, hp, hq, h, hqp]
    | eq =>
      have hq : q.compare key = .gt := by
        rw [← Path.compare_congr (Path.compare_eq_iff.1 hp), hqp]
      simp [insertEntry, hp, hq]
    | gt =>
      have hq : q.compare key = .gt :=
        Path.compare_gt_iff.2 (Path.compare_lt_trans (Path.compare_gt_iff.1 hp) h)
      simp [insertEntry, hp, hq, ih]

/-- Two keys can be inserted in either order. -/
theorem insert_comm {p q : Path} (h : p.same q = false) (map : PathMap β) (v w : β) :
    (map.insert q w).insert p v = (map.insert p v).insert q w := by
  refine congrArg PathMap.mk ?_
  cases hc : p.compare q with
  | lt => exact insertEntry_comm_of_lt hc v w map.entries
  | eq => simp [Path.compare_eq_iff.1 hc] at h
  | gt => exact (insertEntry_comm_of_lt (Path.compare_gt_iff.1 hc) w v map.entries).symm

/-- Every entry is found by its key. -/
theorem findEntry?_of_mem {entries : List (Path × β)}
    (h : entries.Pairwise fun a b => a.1.compare b.1 = .lt) {key : Path} {value : β}
    (hmem : (key, value) ∈ entries) : findEntry? key entries = some value := by
  induction entries with
  | nil => cases hmem
  | cons head rest ih =>
    obtain ⟨hhead, hrest⟩ := List.pairwise_cons.1 h
    rcases List.mem_cons.1 hmem with rfl | hmem
    · simp [ findEntry?]
    · have hne := Path.same_eq_false_of_lt (hhead _ hmem)
      simpa [ findEntry?, hne] using ih hrest hmem

theorem Ordered.find?_of_mem {map : PathMap β} (h : map.Ordered) {key : Path} {value : β}
    (hmem : (key, value) ∈ map.entries) : map.find? key = some value := findEntry?_of_mem h hmem

def insertAll (map : PathMap β) (entries : List (Path × β)) : PathMap β :=
  entries.foldl (fun map entry => map.insert entry.1 entry.2) map

/-- Looking up after several insertions finds one of them or what was there before. -/
theorem find?_insertAll (map : PathMap β) (entries : List (Path × β)) (path : Path) :
    (map.insertAll entries).find? path =
      ( findEntry? path entries.reverse).or (map.find? path) := by
  induction entries generalizing map with
  | nil => rfl
  | cons head rest ih =>
    have happ : ∀ (a : List (Path × β)), findEntry? path (a ++ [head]) =
        ( findEntry? path a).or (if head.1.same path then some head.2 else none) := by
      intro a
      induction a with
      | nil => simp [ findEntry?]
      | cons entry a iha => by_cases h : entry.1.same path <;> simp [ findEntry?, h, iha]
    rw [insertAll, List.foldl_cons, ← insertAll, ih, List.reverse_cons, happ, find?_insert]
    cases findEntry? path rest.reverse <;> by_cases h : head.1.same path <;> simp [h]

end PathMap

end Codemod
