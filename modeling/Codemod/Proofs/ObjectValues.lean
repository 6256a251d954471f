import Codemod.Proofs.ObjectLiterals
import Mathlib.Data.List.Count
import Mathlib.Data.List.Sort

/-!
What a generated configuration field means.

An object literal is refused if it names `__proto__` twice. Otherwise its properties are defined one
after another: a property that is there already keeps its place and takes the new value, and
`__proto__` is no property but sets the prototype, if it is given an object. The own properties of an
object are listed with the array indices in front.

So a field has the object of its entries exactly where no key is repeated, none is `__proto__`, and
the indices among the keys come first, in their order. In any other field that is not refused the
last entry of each key counts.
-/
namespace Codemod.ObjectLiteral

inductive Value where
  | text (units : List Nat)
  /-- The prototype is none where it is the usual one. The own properties stand in the order in
  which they are listed. -/
  | object (prototype : Option Value) (own : List (List Nat × Value))

def prototypeKey : List Nat := units "__proto__"

/-- The array index that a key spells: a number below 2³² - 1 without leading zeros. -/
def index? (key : List Nat) : Option Nat :=
  if key ≠ [] ∧ (∀ unit ∈ key, 48 ≤ unit ∧ unit ≤ 57) ∧ (key.head? = some 48 → key = [48]) then
    (some (key.foldl (fun n unit => 10 * n + (unit - 48)) 0)).filter (· < 4294967295)
  else none

/-- Indices stand in their order, in front of all other keys. -/
def listedBefore (a b : List Nat) : Bool :=
  match index? a, index? b with
  | some m, some n => decide (m ≤ n)
  | none, some _ => false
  | _, none => true

def ListedBefore (a b : List Nat × Value) : Prop := listedBefore a.1 b.1 = true

instance : DecidableRel ListedBefore := fun a b =>
  inferInstanceAs (Decidable (listedBefore a.1 b.1 = true))

/-- Gives an own property a value. -/
def define (key : List Nat) (value : Value) : List (List Nat × Value) → List (List Nat × Value)
  | [] => [(key, value)]
  | (other, old) :: rest =>
    if other = key then (key, value) :: rest else (other, old) :: define key value rest

/-- What a property of a literal does to an object. -/
def Value.extend : Option Value × List (List Nat × Value) → List Nat × Value →
    Option Value × List (List Nat × Value)
  | (prototype, own), (key, value) =>
    if key = prototypeKey then
      match value with
      | .object .. => (some value, own)
      | .text _ => (prototype, own)
    else (prototype, define key value own)

def Value.ofProperties (properties : List (List Nat × Value)) : Value :=
  let (prototype, own) := properties.foldl Value.extend (none, [])
  object prototype (own.insertionSort ListedBefore)

mutual

/-- The value of a literal, if it is not refused. -/
def Literal.value? : Literal → Option Value
  | .text units => some (.text units)
  | .object properties =>
    if (properties.map Prod.fst).count prototypeKey ≤ 1 then
      (valuesOf? properties).map Value.ofProperties
    else none

def valuesOf? : List (List Nat × Literal) → Option (List (List Nat × Value))
  | [] => some []
  | (key, literal) :: rest => do
    let value ← literal.value?
    let values ← valuesOf? rest
    return (key, value) :: values

end

def evaluate (text : String) : Option Value := do
  let property ← read text
  (Literal.object [property]).value?

instance : IsTrans (List Nat × Value) ListedBefore where
  trans a b c hab hbc := by
    unfold ListedBefore listedBefore at *
    cases ha : index? a.1 <;> cases hb : index? b.1 <;> cases hc : index? c.1 <;>
      simp only [ha, hb, hc, decide_eq_true_eq, Bool.false_eq_true] at *
    omega

instance : Std.Total ListedBefore where
  total a b := by
    unfold ListedBefore listedBefore
    cases index? a.1 <;> cases index? b.1 <;> simp [Nat.le_total]

section Define

variable {key : List Nat} {value : Value} {own : List (List Nat × Value)}

theorem define_of_not_mem (h : key ∉ own.map Prod.fst) :
    define key value own = own ++ [(key, value)] := by
  induction own with
  | nil => rfl
  | cons property rest ih =>
    rw [List.map_cons, List.mem_cons, not_or] at h
    rw [define, if_neg (Ne.symm h.1), ih h.2, List.cons_append]

theorem keys_define_of_mem (h : key ∈ own.map Prod.fst) :
    (define key value own).map Prod.fst = own.map Prod.fst := by
  induction own with
  | nil => cases h
  | cons property rest ih =>
    by_cases hkey : property.1 = key
    · simp [define, hkey]
    · have hrest : key ∈ rest.map Prod.fst :=
        (List.mem_cons.1 h).resolve_left fun he => hkey he.symm
      simp [define, hkey, ih hrest]

theorem nodup_define (h : (own.map Prod.fst).Nodup) :
    ((define key value own).map Prod.fst).Nodup := by
  by_cases hkey : key ∈ own.map Prod.fst
  · rwa [keys_define_of_mem hkey]
  · rw [define_of_not_mem hkey, List.map_append, List.nodup_append]
    refine ⟨h, List.nodup_singleton key, fun other hother last hlast he => hkey ?_⟩
    rw [List.map_singleton, List.mem_singleton] at hlast
    rwa [he, hlast] at hother

theorem mem_define (h : (own.map Prod.fst).Nodup) {property : List Nat × Value} :
    property ∈ define key value own ↔
      property = (key, value) ∨ property.1 ≠ key ∧ property ∈ own := by
  induction own with
  | nil => simp [define]
  | cons first rest ih =>
    obtain ⟨hfirst, hrest⟩ := List.nodup_cons.1 h
    have hapart : ∀ other ∈ rest, other.1 ≠ first.1 := by
      intro other hmem he
      exact hfirst (he ▸ List.mem_map_of_mem hmem)
    by_cases hkey : first.1 = key
    · rw [define, if_pos hkey, List.mem_cons, List.mem_cons]
      refine or_congr_right ⟨fun hmem => ⟨hkey ▸ hapart _ hmem, .inr hmem⟩, fun hmem => ?_⟩
      refine hmem.2.resolve_left fun he => hmem.1 ?_
      rw [he, hkey]
    · rw [define, if_neg hkey, List.mem_cons, List.mem_cons, ih hrest]
      constructor
      · rintro (rfl | rfl | ⟨hne, hmem⟩)
        · exact .inr ⟨hkey, .inl rfl⟩
        · exact .inl rfl
        · exact .inr ⟨hne, .inr hmem⟩
      · rintro (rfl | ⟨hne, rfl | hmem⟩)
        · exact .inr (.inl rfl)
        · exact .inl rfl
        · exact .inr (.inr ⟨hne, hmem⟩)

end Define

def valueOf (entry : ConfigEntry) : List Nat × Value := (units entry.key, .text (units entry.value))

theorem units_eq_prototypeKey_iff {key : String} : units key = prototypeKey ↔ key = "__proto__" :=
  ⟨fun h => units_injective h, fun h => by rw [h, prototypeKey]⟩

/-- The properties that entries leave, of which the last one comes first. -/
def made : List ConfigEntry → List (List Nat × Value)
  | [] => []
  | entry :: earlier =>
    if entry.key = "__proto__" then made earlier
    else define (units entry.key) (.text (units entry.value)) (made earlier)

theorem foldr_extend (entries : List ConfigEntry) :
    (entries.map valueOf).foldr (fun property object => Value.extend object property) (none, []) =
      (none, made entries) := by
  induction entries with
  | nil => rfl
  | cons entry earlier ih =>
    rw [List.map_cons, List.foldr_cons, ih, made]
    unfold Value.extend valueOf
    by_cases hkey : entry.key = "__proto__"
    · simp only [units_eq_prototypeKey_iff.2 hkey, if_pos hkey, if_true]
    · simp only [mt units_eq_prototypeKey_iff.1 hkey, if_neg hkey, if_false]

theorem nodup_made (entries : List ConfigEntry) : ((made entries).map Prod.fst).Nodup := by
  induction entries with
  | nil => exact List.nodup_nil
  | cons entry earlier ih =>
    rw [made]
    split
    · exact ih
    · exact nodup_define ih

/-- The entry of a key that comes first here is the last one that was written. -/
theorem mem_made {entries : List ConfigEntry} {property : List Nat × Value} :
    property ∈ made entries ↔ ∃ entry, entries.find? (·.key == entry.key) = some entry ∧
      entry.key ≠ "__proto__" ∧ property = valueOf entry := by
  induction entries with
  | nil => simp [made]
  | cons first earlier ih =>
    have hfind : ∀ entry : ConfigEntry, (first :: earlier).find? (·.key == entry.key) = some entry ↔
        first = entry ∨ first.key ≠ entry.key ∧ earlier.find? (·.key == entry.key) = some entry := by
      intro entry
      by_cases hkey : first.key = entry.key
      · simp [hkey]
      · have hne : first ≠ entry := fun he => hkey (he ▸ rfl)
        simp [hkey, hne]
    simp only [made, hfind]
    by_cases hproto : first.key = "__proto__"
    · rw [if_pos hproto, ih]
      constructor
      · rintro ⟨entry, hentry, hne, rfl⟩
        exact ⟨entry, .inr ⟨fun he => hne (he ▸ hproto), hentry⟩, hne, rfl⟩
      · rintro ⟨entry, rfl | ⟨-, hentry⟩, hne, rfl⟩
        · exact absurd hproto hne
        · exact ⟨entry, hentry, hne, rfl⟩
    · rw [if_neg hproto, mem_define (nodup_made earlier), ih]
      constructor
      · rintro (rfl | ⟨hother, entry, hentry, hne, rfl⟩)
        · exact ⟨first, .inl rfl, hproto, rfl⟩
        · exact ⟨entry, .inr ⟨fun he => hother (congrArg units he.symm), hentry⟩, hne, rfl⟩
      · rintro ⟨entry, rfl | ⟨hother, hentry⟩, hne, rfl⟩
        · exact .inl rfl
        · exact .inr ⟨fun he => hother (units_injective he.symm), entry, hentry, hne, rfl⟩

theorem made_of_nodup {entries : List ConfigEntry} (h : (entries.map ConfigEntry.key).Nodup)
    (hp : "__proto__" ∉ entries.map ConfigEntry.key) :
    made entries = (entries.map valueOf).reverse := by
  induction entries with
  | nil => rfl
  | cons entry earlier ih =>
    obtain ⟨hfresh, hrest⟩ := List.nodup_cons.1 h
    rw [List.map_cons, List.mem_cons, not_or] at hp
    have hmade := ih hrest hp.2
    have hnew : units entry.key ∉ (made earlier).map Prod.fst := by
      rw [hmade, List.map_reverse, List.mem_reverse, List.map_map, List.mem_map]
      rintro ⟨other, hmem, he⟩
      exact hfresh (units_injective he ▸ List.mem_map_of_mem hmem)
    rw [made, if_neg (Ne.symm hp.1), define_of_not_mem hnew, hmade, List.map_cons,
      List.reverse_cons, valueOf]

/-- The own properties of an object that is written as entries. -/
def ownOf (entries : List ConfigEntry) : List (List Nat × Value) :=
  (made entries.reverse).insertionSort ListedBefore

theorem ofProperties_entries (entries : List ConfigEntry) :
    Value.ofProperties (entries.map valueOf) = .object none (ownOf entries) := by
  have hfold := foldr_extend entries.reverse
  rw [List.map_reverse, ← List.foldl_eq_foldr_reverse] at hfold
  simp only [Value.ofProperties, hfold, ownOf]

/-- An object shows the last entry of each key but the prototype's. -/
structure Shows (entries : List ConfigEntry) (own : List (List Nat × Value)) : Prop where
  distinct : (own.map Prod.fst).Nodup
  listed : own.Pairwise ListedBefore
  mem_iff : ∀ property, property ∈ own ↔ ∃ entry,
    entries.reverse.find? (·.key == entry.key) = some entry ∧ entry.key ≠ "__proto__" ∧
      property = valueOf entry

theorem shows_ownOf (entries : List ConfigEntry) : Shows entries (ownOf entries) := by
  have hperm := List.perm_insertionSort ListedBefore (made entries.reverse)
  refine ⟨?_, ?_, ?_⟩
  · exact (hperm.map Prod.fst).nodup_iff.2 (nodup_made entries.reverse)
  · exact List.pairwise_insertionSort ListedBefore (made entries.reverse)
  · intro property
    rw [ownOf, hperm.mem_iff, mem_made]

/-- Keys that an object lists as they are written. -/
structure Listable (keys : List String) : Prop where
  distinct : keys.Nodup
  ordinary : "__proto__" ∉ keys
  ordered : keys.Pairwise fun a b => listedBefore (units a) (units b) = true

theorem ownOf_eq_iff {entries : List ConfigEntry} :
    ownOf entries = entries.map valueOf ↔ Listable (entries.map ConfigEntry.key) := by
  have hkeys : (entries.map valueOf).map Prod.fst = (entries.map ConfigEntry.key).map units := by
    simp [valueOf]
  constructor
  · intro h
    obtain ⟨hdistinct, hlisted, hmem⟩ := shows_ownOf entries
    rw [h] at hdistinct hlisted hmem
    rw [hkeys] at hdistinct
    refine ⟨List.Nodup.of_map units hdistinct, ?_, ?_⟩
    · intro hproto
      obtain ⟨entry, hentry, he⟩ := List.mem_map.1 hproto
      obtain ⟨other, -, hne, hvalue⟩ := (hmem _).1 (List.mem_map_of_mem hentry)
      have hkey : entry.key = other.key := units_injective (Prod.mk.inj hvalue).1
      exact hne (hkey ▸ he)
    · rw [List.pairwise_map] at hlisted ⊢
      exact hlisted
  · intro h
    have hmade : made entries.reverse = entries.map valueOf := by
      have hdistinct : (entries.reverse.map ConfigEntry.key).Nodup := by
        rw [List.map_reverse, List.nodup_reverse]
        exact h.distinct
      have hproto : "__proto__" ∉ entries.reverse.map ConfigEntry.key := by
        rw [List.map_reverse, List.mem_reverse]
        exact h.ordinary
      rw [made_of_nodup hdistinct hproto, List.map_reverse, List.reverse_reverse]
    have hordered : (entries.map valueOf).Pairwise ListedBefore := by
      have hpairs := h.ordered
      rw [List.pairwise_map] at hpairs ⊢
      exact hpairs
    rw [ownOf, hmade, hordered.insertionSort_eq]

theorem valuesOf?_entries (entries : List ConfigEntry) :
    valuesOf? (entries.map propertyOf) = some (entries.map valueOf) := by
  induction entries with
  | nil => rfl
  | cons entry rest ih =>
    rw [List.map_cons, propertyOf, valuesOf?, Literal.value?, ih]
    rfl

theorem count_prototypeKey (entries : List ConfigEntry) :
    ((entries.map propertyOf).map Prod.fst).count prototypeKey =
      (entries.map ConfigEntry.key).count "__proto__" := by
  have hkeys : (entries.map propertyOf).map Prod.fst = (entries.map ConfigEntry.key).map units := by
    simp [propertyOf]
  rw [hkeys, prototypeKey, List.count_map_of_injective _ _ fun _ _ => units_injective]

theorem value?_entries (entries : List ConfigEntry) :
    (Literal.object (entries.map propertyOf)).value? =
      if (entries.map ConfigEntry.key).count "__proto__" ≤ 1 then
        some (.object none (ownOf entries))
      else none := by
  rw [Literal.value?, count_prototypeKey, valuesOf?_entries, Option.map_some, ofProperties_entries]

def Value.single (key : String) (value : Value) : Value :=
  if key = "__proto__" then object (some value) [] else object none [(units key, value)]

/-- What a field evaluates to. -/
theorem evaluate_renderField (key : String) (entries : List ConfigEntry) :
    evaluate (renderField key entries) =
      if (entries.map ConfigEntry.key).count "__proto__" ≤ 1 then
        some (.single key (.object none (ownOf entries)))
      else none := by
  have hone : ([(units key, Literal.object (entries.map propertyOf))].map Prod.fst).count
      prototypeKey ≤ 1 := List.count_le_length
  rw [evaluate, read_renderField]
  simp only [Option.bind_eq_bind, Option.bind_some]
  rw [Literal.value?, if_pos hone, valuesOf?, valuesOf?, value?_entries]
  split
  · by_cases hkey : key = "__proto__"
    · simp [Value.ofProperties, Value.extend, Value.single, hkey, prototypeKey]
    · simp [Value.ofProperties, Value.extend, Value.single, hkey,
        mt units_eq_prototypeKey_iff.1 hkey, define]
  · rfl

/-- A generated field says what was asked: its text is read to the end as one property, with the
given key and the given entries in their order. It is refused exactly if two entries are named
`__proto__`, and otherwise it sets the key to an object that shows the last entry of each key; these
are all entries in their order exactly where the keys can be listed so. No key and no value ends its
literal before the closing quote, and no other field has the same text. -/
theorem renderField_means (key : String) (entries : List ConfigEntry) :
    read (renderField key entries) = some (units key,
        .object (entries.map fun entry => (units entry.key, .text (units entry.value)))) ∧
      (evaluate (renderField key entries) = none ↔
        1 < (entries.map ConfigEntry.key).count "__proto__") ∧
      (∀ value, evaluate (renderField key entries) = some value →
        ∃ own, Shows entries own ∧ value = .single key (.object none own)) ∧
      (evaluate (renderField key entries) = some (.object none [(units key, .object none
          (entries.map fun entry => (units entry.key, .text (units entry.value))))]) ↔
        key ≠ "__proto__" ∧ Listable (entries.map ConfigEntry.key)) ∧
      (∀ text rest, readQuoted (Text.escaped text ++ '\x27' :: rest) = some (units text, rest)) ∧
      ∀ key' entries', renderField key' entries' = renderField key entries →
        key' = key ∧ entries' = entries := by
  have hevaluate := evaluate_renderField key entries
  refine ⟨read_renderField key entries, ?_, ?_, ?_, readQuoted_escaped,
    fun _ _ => renderField_injective⟩
  · rw [hevaluate]
    split <;> simp <;> omega
  · intro value hvalue
    rw [hevaluate] at hvalue
    split at hvalue
    · exact ⟨ownOf entries, shows_ownOf entries, (Option.some.inj hvalue).symm⟩
    · cases hvalue
  · have hown : (entries.map fun entry => (units entry.key, Value.text (units entry.value))) =
        entries.map valueOf := rfl
    rw [hevaluate, hown, ← ownOf_eq_iff]
    by_cases hkey : key = "__proto__"
    · simp [hkey, Value.single]
    · rw [Value.single, if_neg hkey, and_iff_right hkey]
      constructor
      · intro h
        split at h
        · simpa using h
        · cases h
      · intro h
        have hfew : (entries.map ConfigEntry.key).count "__proto__" ≤ 1 := by
          rw [List.count_eq_zero.2 (ownOf_eq_iff.1 h).ordinary]
          exact Nat.zero_le 1
        rw [if_pos hfew, h]

/-- An entry named `__proto__` is no property of the object, and keys that are repeated or are
indices are not listed as they were given. -/
theorem evaluate_unlistedKeys :
    evaluate (renderField "firebase" [⟨"__proto__", "a"⟩]) ≠
      some (.object none [(units "firebase",
        .object none [(units "__proto__", .text (units "a"))])]) ∧
    evaluate (renderField "firebase" [⟨"__proto__", "a"⟩]) =
      some (.object none [(units "firebase", .object none [])]) ∧
    evaluate (renderField "firebase" [⟨"__proto__", "a"⟩, ⟨"__proto__", "b"⟩]) = none ∧
    evaluate (renderField "firebase" [⟨"a", "1"⟩, ⟨"a", "2"⟩]) =
      some (.object none [(units "firebase", .object none [(units "a", .text (units "2"))])]) ∧
    evaluate (renderField "firebase" [⟨"b", "1"⟩, ⟨"7", "2"⟩]) =
      some (.object none [(units "firebase",
        .object none [(units "7", .text (units "2")), (units "b", .text (units "1"))])]) := by
  simp only [evaluate_renderField]
  exact ⟨nofun, rfl, rfl, rfl, rfl⟩

end Codemod.ObjectLiteral
