import Codemod.Proofs.JsonLexemes

/-!
Reading a JSON text that was written.

What is read has no two members of one name in an object. Such a value, written over several lines
and read again, comes back as it was but for its numbers, if it is read at all: it may be nested
too deep, and a number may be out of range.
-/
namespace Codemod.Json

/-- No object has two members of one name. -/
def Tidy : Json → Prop
  | array items => TidyItems items
  | object members => (members.map Prod.fst).Nodup ∧ TidyMembers members
  | _ => True
where
  /-- The items of an array. -/
  TidyItems : List Json → Prop
    | [] => True
    | item :: rest => Tidy item ∧ TidyItems rest
  /-- The members of an object. -/
  TidyMembers : List (String × Json) → Prop
    | [] => True
    | (_, value) :: rest => Tidy value ∧ TidyMembers rest

theorem tidy_array_iff {items : List Json} :
    (array items).Tidy ↔ ∀ item ∈ items, item.Tidy := by
  rw [Tidy]
  induction items with
  | nil => simp [Tidy.TidyItems]
  | cons item rest ih => rw [Tidy.TidyItems, ih, List.forall_mem_cons]

theorem tidy_object_iff {members : List (String × Json)} :
    (object members).Tidy ↔
      (members.map Prod.fst).Nodup ∧ ∀ member ∈ members, member.2.Tidy := by
  rw [Tidy]
  refine and_congr Iff.rfl ?_
  induction members with
  | nil => simp [Tidy.TidyMembers]
  | cons member rest ih => rw [Tidy.TidyMembers, ih, List.forall_mem_cons]

/-- A new name comes last. -/
theorem put_of_not_mem {name : String} {value : Json} {members : List (String × Json)}
    (h : name ∉ members.map Prod.fst) : put name value members = members ++ [(name, value)] := by
  induction members with
  | nil => rfl
  | cons member rest ih =>
    obtain ⟨hne, hrest⟩ : name ≠ member.1 ∧ name ∉ rest.map Prod.fst := by simpa using h
    rw [put, if_neg (Ne.symm hne), ih hrest, List.cons_append]

/-- A known name keeps its place. -/
theorem names_put_of_mem {name : String} {value : Json} {members : List (String × Json)}
    (h : name ∈ members.map Prod.fst) :
    (put name value members).map Prod.fst = members.map Prod.fst := by
  induction members with
  | nil => simp at h
  | cons member rest ih =>
    by_cases hn : member.1 = name
    · simp [put, hn]
    · have hrest : name ∈ rest.map Prod.fst := by
        rcases List.mem_cons.1 h with he | hmem
        · exact absurd he.symm hn
        · exact hmem
      simp [put, hn, ih hrest]

theorem mem_put {name : String} {value : Json} {members : List (String × Json)}
    {member : String × Json} (h : member ∈ put name value members) :
    member.2 = value ∨ member ∈ members := by
  induction members with
  | nil =>
    have he : member = (name, value) := by simpa [put] using h
    exact .inl (by rw [he])
  | cons first rest ih =>
    rw [put] at h
    split at h
    · rcases List.mem_cons.1 h with rfl | hmem
      · exact .inl rfl
      · exact .inr (List.mem_cons_of_mem _ hmem)
    · rcases List.mem_cons.1 h with rfl | hmem
      · exact .inr (List.mem_cons_self ..)
      · rcases ih hmem with hv | hmem
        · exact .inl hv
        · exact .inr (List.mem_cons_of_mem _ hmem)

theorem nodup_put {name : String} {value : Json} {members : List (String × Json)}
    (h : (members.map Prod.fst).Nodup) : ((put name value members).map Prod.fst).Nodup := by
  by_cases hm : name ∈ members.map Prod.fst
  · rwa [names_put_of_mem hm]
  · rw [put_of_not_mem hm, List.map_append, List.nodup_append]
    refine ⟨h, by simp, ?_⟩
    intro a ha b hb
    rintro rfl
    obtain rfl : a = name := by simpa using hb
    exact hm ha

/-- What holds of the values of members and of a new value holds after it has been put there. -/
theorem forall_mem_put {P : Json → Prop} {name : String} {value : Json}
    {members : List (String × Json)} (h : ∀ member ∈ members, P member.2) (hv : P value) :
    ∀ member ∈ put name value members, P member.2 := by
  intro member hm
  rcases mem_put hm with he | hmem
  · rwa [he]
  · exact h member hmem

theorem tidy_put {name : String} {value : Json} {members : List (String × Json)}
    (h : (object members).Tidy) (hv : value.Tidy) : (object (put name value members)).Tidy := by
  obtain ⟨hnames, hvalues⟩ := tidy_object_iff.1 h
  exact tidy_object_iff.2 ⟨nodup_put hnames, forall_mem_put hvalues hv⟩

def readNumberValue (negative : Bool) (p : Cursor) : Except Stop (Json × Cursor) := do
  let (n, q) ← readNumber negative p
  return (.number n, q)

def readItem (fuel depth : Nat) (done : List Json) (p : Cursor) : Except Stop (Json × Cursor) := do
  let (value, q) ← readGoal fuel depth .value p
  readGoal fuel depth (.items false (value :: done)) q

def readMember (fuel depth : Nat) (done : List (String × Json)) (p : Cursor) :
    Except Stop (Json × Cursor) := do
  let (name, q) ← readString p.rest.length [] p.next
  let q := q.skip
  match q.rest with
  | [] => q.stopAhead .eofInObject
  | ':' :: _ => do
    let (value, r) ← readGoal fuel depth .value q.next
    readGoal fuel depth (.members false (put name value done)) r
  | _ => q.stopAhead .expectedColon

section goals

variable {fuel depth : Nat} {first : Bool} {items : List Json} {members : List (String × Json)}
  {p : Cursor} {c d : Char} {cs ds : List Char}

theorem readGoal_items_close (hs : p.skip.rest = ']' :: cs) :
    readGoal (fuel + 1) depth (.items first items) p = .ok (array items.reverse, p.skip.next) := by
  simp only [readGoal, hs]

theorem readGoal_items_first (hs : p.skip.rest = c :: cs) (hc : c ≠ ']') :
    readGoal (fuel + 1) depth (.items true items) p = readItem fuel depth items p.skip := by
  simp only [readGoal, hs, if_true]
  rfl

theorem readGoal_items_next (hs : p.skip.rest = ',' :: cs)
    (hs' : p.skip.next.skip.rest = d :: ds) (hd : d ≠ ']') :
    readGoal (fuel + 1) depth (.items false items) p =
      readItem fuel depth items p.skip.next.skip := by
  -- The match asks for the closing mark first, so `simp` needs it ruled out.
  have hcomma : ',' ≠ ']' := by decide
  simp only [readGoal, hs, hs', Bool.false_eq_true, if_false, if_true]
  split
  case h_1 heq => cases heq
  case h_2 heq => exact absurd (List.cons.inj heq).1 hd
  case h_3 => rfl

theorem readGoal_items_other (hs : p.skip.rest = c :: cs) (hc : c ≠ ']') (hc' : c ≠ ',') :
    readGoal (fuel + 1) depth (.items false items) p =
      p.skip.stopAhead .expectedCommaOrListEnd := by
  simp only [readGoal, hs, hc', Bool.false_eq_true, if_false]

theorem readGoal_members_close (hs : p.skip.rest = '\x7d' :: cs) :
    readGoal (fuel + 1) depth (.members first members) p = .ok (object members, p.skip.next) := by
  simp only [readGoal, hs]

theorem readGoal_members_first (hs : p.skip.rest = '\x22' :: cs) :
    readGoal (fuel + 1) depth (.members true members) p =
      readMember fuel depth members p.skip := by
  have hquote : '\x22' ≠ '\x7d' := by decide
  simp only [readGoal, hs, if_true]
  rw [← hs]
  rfl

theorem readGoal_members_next (hs : p.skip.rest = ',' :: cs)
    (hs' : p.skip.next.skip.rest = '\x22' :: ds) :
    readGoal (fuel + 1) depth (.members false members) p =
      readMember fuel depth members p.skip.next.skip := by
  have hcomma : ',' ≠ '\x7d' := by decide
  simp only [readGoal, hs, hs', Bool.false_eq_true, if_false, if_true]
  rw [← hs']
  rfl

theorem readGoal_members_other (hs : p.skip.rest = c :: cs) (hc : c ≠ '\x7d') (hc' : c ≠ ',') :
    readGoal (fuel + 1) depth (.members false members) p =
      p.skip.stopAhead .expectedCommaOrObjectEnd := by
  simp only [readGoal, hs, hc', Bool.false_eq_true, if_false]

end goals

theorem readNumberValue_eq_ok {negative : Bool} {p q : Cursor} {json : Json}
    (h : readNumberValue negative p = .ok (json, q)) :
    ∃ n, json = .number n ∧ readNumber negative p = .ok (n, q) := by
  obtain ⟨⟨n, r⟩, hn, h⟩ := bind_eq_ok_iff.1 h
  simp only [pure, Except.pure, Except.ok.injEq, Prod.mk.injEq] at h
  obtain ⟨rfl, rfl⟩ := h
  exact ⟨n, rfl, hn⟩

theorem readItem_eq_ok {fuel depth : Nat} {done : List Json} {p q : Cursor} {json : Json}
    (h : readItem fuel depth done p = .ok (json, q)) :
    ∃ value r, readGoal fuel depth .value p = .ok (value, r) ∧
      readGoal fuel depth (.items false (value :: done)) r = .ok (json, q) := by
  obtain ⟨⟨value, r⟩, hv, h⟩ := bind_eq_ok_iff.1 h
  exact ⟨value, r, hv, h⟩

theorem readMember_eq_ok {fuel depth : Nat} {done : List (String × Json)} {p q : Cursor}
    {json : Json} (h : readMember fuel depth done p = .ok (json, q)) :
    ∃ name r rest value s, readString p.rest.length [] p.next = .ok (name, r) ∧
      r.skip.rest = ':' :: rest ∧ readGoal fuel depth .value r.skip.next = .ok (value, s) ∧
      readGoal fuel depth (.members false (put name value done)) s = .ok (json, q) := by
  obtain ⟨⟨name, r⟩, hn, h⟩ := bind_eq_ok_iff.1 h
  simp only at h
  split at h
  · simp at h
  · rename_i rest hr
    obtain ⟨⟨value, s⟩, hv, h⟩ := bind_eq_ok_iff.1 h
    exact ⟨name, r, rest, value, s, hn, hr, hv, h⟩
  · simp at h

/-- A text is read as a value if nothing but blanks is left behind the value. -/
theorem read_eq_ok_iff {text : String} {json : Json} :
    read text = .ok json ↔
      ∃ p, readGoal (2 * text.toList.length + 2) depthLimit .value ⟨text.toList, 0⟩ =
        .ok (json, p) ∧ p.skip.rest = [] := by
  constructor
  · intro h
    unfold read at h
    simp only at h
    split at h
    · rename_i value hr
      obtain rfl := Except.ok.inj h
      obtain ⟨⟨found, p⟩, hg, hr⟩ := bind_eq_ok_iff.1 hr
      simp only at hr
      split at hr
      · rename_i hempty
        obtain rfl := Except.ok.inj hr
        exact ⟨p, hg, List.isEmpty_iff.1 hempty⟩
      · simp at hr
    · cases h
  · rintro ⟨p, hg, hp⟩
    simp only [read, hg, bind, Except.bind, hp, List.isEmpty_nil, if_true, pure, Except.pure]

/-- A family of values, by how deep they may nest, that has every value that can be read. -/
structure Closed (P : Nat → Json → Prop) : Prop where
  null {n : Nat} : P n null
  bool {n : Nat} (b : Bool) : P n (bool b)
  number {n : Nat} {negative : Bool} {p q : Cursor} {x : JsonNumber} :
    readNumber negative p = .ok (x, q) → P n (number x)
  string {n : Nat} (s : String) : P n (string s)
  array {n : Nat} {items : List Json} : (∀ item ∈ items, P n item) → P (n + 1) (array items)
  object {n : Nat} {members : List (String × Json)} : (members.map Prod.fst).Nodup →
    (∀ member ∈ members, P n member.2) → P (n + 1) (object members)

namespace Goal

/-- What is done of a goal is in a family. -/
def Has (P : Nat → Json → Prop) (depth : Nat) : Goal → Prop
  | value => True
  | items _ done => ∀ item ∈ done, P depth item
  | members _ done => (done.map Prod.fst).Nodup ∧ ∀ member ∈ done, P depth member.2

/-- How deep the value that is worked towards may nest. -/
def level (depth : Nat) : Goal → Nat
  | value => depth
  | items .. => depth + 1
  | members .. => depth + 1

end Goal

section closed

variable {P : Nat → Json → Prop}

/-- A value that was read is in such a family. -/
theorem Closed.of_readGoal (hP : Closed P) {fuel depth : Nat} {goal : Goal} {p q : Cursor}
    {json : Json} (hg : goal.Has P depth) (h : readGoal fuel depth goal p = .ok (json, q)) :
    P (goal.level depth) json := by
  induction fuel generalizing depth goal p q json with
  | zero => simp [readGoal] at h
  | succ fuel ih =>
    cases goal with
    | value =>
      have hnumber : ∀ {negative : Bool} {r : Cursor},
          readNumberValue negative r = .ok (json, q) → P depth json := by
        intro negative r hr
        obtain ⟨n, rfl, hn⟩ := readNumberValue_eq_ok hr
        exact hP.number hn
      simp only [readGoal] at h
      split at h
      · simp at h
      · rw [(readIdent_eq_ok h).1]
        exact hP.null
      · rw [(readIdent_eq_ok h).1]
        exact hP.bool true
      · rw [(readIdent_eq_ok h).1]
        exact hP.bool false
      · exact hnumber h
      · obtain ⟨⟨s, r⟩, -, h⟩ := bind_eq_ok_iff.1 h
        simp only [pure, Except.pure, Except.ok.injEq, Prod.mk.injEq] at h
        rw [← h.1]
        exact hP.string s
      · split at h
        · simp at h
        · rename_i depth
          have hnone : (Goal.items true []).Has P depth := by simp [Goal.Has]
          have hlist := ih hnone h
          exact hlist
      · split at h
        · simp at h
        · rename_i depth
          have hnone : (Goal.members true []).Has P depth := by simp [Goal.Has]
          have hlist := ih hnone h
          exact hlist
      · split at h
        · exact hnumber h
        · simp at h
    | items first done =>
      have hitem : ∀ {r : Cursor}, readItem fuel depth done r = .ok (json, q) →
          P (depth + 1) json := by
        intro r hr
        obtain ⟨value, s, hv, hr⟩ := readItem_eq_ok hr
        have hvalue : P depth value := ih (show Goal.value.Has P depth from trivial) hv
        have hmore : (Goal.items false (value :: done)).Has P depth :=
          List.forall_mem_cons.2 ⟨hvalue, hg⟩
        exact ih hmore hr
      simp only [readGoal] at h
      split at h
      · simp at h
      · simp only [Except.ok.injEq, Prod.mk.injEq] at h
        rw [← h.1]
        apply hP.array
        intro item hi
        exact hg item (List.mem_reverse.1 hi)
      · split at h
        · exact hitem h
        · split at h
          · split at h
            · simp at h
            · simp at h
            · exact hitem h
          · simp at h
    | members first done =>
      have hmember : ∀ {r : Cursor}, readMember fuel depth done r = .ok (json, q) →
          P (depth + 1) json := by
        intro r hr
        obtain ⟨name, s, rest, value, t, -, -, hv, hr⟩ := readMember_eq_ok hr
        have hvalue : P depth value := ih (show Goal.value.Has P depth from trivial) hv
        have hmore : (Goal.members false (put name value done)).Has P depth :=
          ⟨nodup_put hg.1, forall_mem_put hg.2 hvalue⟩
        exact ih hmore hr
      simp only [readGoal] at h
      split at h
      · simp at h
      · simp only [Except.ok.injEq, Prod.mk.injEq] at h
        rw [← h.1]
        exact hP.object hg.1 hg.2
      · split at h
        · split at h
          · exact hmember h
          · simp at h
        · split at h
          · split at h
            · simp at h
            · exact hmember h
            · simp at h
            · simp at h
          · simp at h

theorem Closed.of_read (hP : Closed P) {text : String} {json : Json}
    (h : read text = .ok json) : P depthLimit json := by
  obtain ⟨p, hg, -⟩ := read_eq_ok_iff.1 h
  exact hP.of_readGoal (show Goal.value.Has P depthLimit from trivial) hg

end closed

/-- A value that was read has no two members of one name. -/
theorem tidy_of_read {text : String} {json : Json} (h : read text = .ok json) : json.Tidy := by
  have hP : Closed fun _ json => json.Tidy := by
    constructor
    case array => exact tidy_array_iff.2
    case object => exact fun hnames hvalues => tidy_object_iff.2 ⟨hnames, hvalues⟩
    all_goals intros; trivial
  exact hP.of_read h

/-- A value but for its numbers. -/
def shape : Json → Json
  | number _ => number (.whole 0)
  | array items => array (shapeItems items)
  | object members => object (shapeMembers members)
  | value => value
where
  /-- The items of an array. -/
  shapeItems : List Json → List Json
    | [] => []
    | item :: rest => shape item :: shapeItems rest
  /-- The members of an object. -/
  shapeMembers : List (String × Json) → List (String × Json)
    | [] => []
    | (name, value) :: rest => (name, shape value) :: shapeMembers rest

/-- A member but for the numbers in its value. -/
def shapeMember (member : String × Json) : String × Json := (member.1, member.2.shape)

@[simp] theorem shape_array (items : List Json) : (array items).shape = array (items.map shape) := by
  rw [shape]
  congr 1
  induction items with
  | nil => rfl
  | cons item rest ih => rw [shape.shapeItems, ih, List.map_cons]

@[simp] theorem shape_object (members : List (String × Json)) :
    (object members).shape = object (members.map shapeMember) := by
  rw [shape]
  congr 1
  induction members with
  | nil => rfl
  | cons member rest ih =>
    rw [shape.shapeMembers, ih, List.map_cons]
    rfl

/-- A value with the shape of an array is one. -/
theorem exists_of_shape_array {value : Json} {items : List Json}
    (h : value.shape = array items) : ∃ items', value = array items' ∧ items'.map shape = items := by
  cases value with
  | array items' => exact ⟨items', rfl, by simpa using h⟩
  | _ => simp [shape] at h

/-- A value with the shape of an object is one. -/
theorem exists_of_shape_object {value : Json} {members : List (String × Json)}
    (h : value.shape = object members) :
    ∃ members', value = object members' ∧ members'.map shapeMember = members := by
  cases value with
  | object members' => exact ⟨members', rfl, by simpa using h⟩
  | _ => simp [shape] at h

def moreItems (unit : List Char) (level : Nat) : List Json → List Char
  | [] => newline unit level ++ [']']
  | item :: rest => ',' :: (newline unit (level + 1) ++ prettyChars unit (level + 1) item
      ++ moreItems unit level rest)

def openItems (unit : List Char) (level : Nat) : List Json → List Char
  | [] => [']']
  | item :: rest => newline unit (level + 1) ++ prettyChars unit (level + 1) item
      ++ moreItems unit level rest

def memberText (unit : List Char) (level : Nat) (member : String × Json) : List Char :=
  newline unit level ++ quote member.1 ++ ':' :: ' ' :: prettyChars unit level member.2

def moreMembers (unit : List Char) (level : Nat) : List (String × Json) → List Char
  | [] => newline unit level ++ ['\x7d']
  | member :: rest => ',' :: (memberText unit (level + 1) member ++ moreMembers unit level rest)

def openMembers (unit : List Char) (level : Nat) : List (String × Json) → List Char
  | [] => ['\x7d']
  | member :: rest => memberText unit (level + 1) member ++ moreMembers unit level rest

theorem prettyItems_eq (unit : List Char) (level : Nat) (item : Json) (rest : List Json) :
    prettyChars.prettyItems unit (level + 1) (item :: rest) ++ newline unit level ++ [']'] =
      openItems unit level (item :: rest) := by
  induction rest generalizing item with
  | nil => simp [prettyChars.prettyItems, openItems, moreItems]
  | cons next rest ih =>
    have hnext := ih next
    simp only [openItems, List.append_assoc] at hnext
    simp [prettyChars.prettyItems, openItems, moreItems, hnext]

theorem prettyMembers_eq (unit : List Char) (level : Nat) (member : String × Json)
    (rest : List (String × Json)) :
    prettyChars.prettyMembers unit (level + 1) (member :: rest) ++ newline unit level ++ ['\x7d'] =
      openMembers unit level (member :: rest) := by
  induction rest generalizing member with
  | nil => simp [prettyChars.prettyMembers, openMembers, moreMembers, memberText]
  | cons next rest ih =>
    have hnext := ih next
    simp only [openMembers, List.append_assoc] at hnext
    simp [prettyChars.prettyMembers, openMembers, moreMembers, memberText, hnext]

theorem prettyChars_array (unit : List Char) (level : Nat) (items : List Json) :
    prettyChars unit level (array items) = '[' :: openItems unit level items := by
  cases items with
  | nil => rfl
  | cons item rest => rw [prettyChars, prettyItems_eq]

theorem prettyChars_object (unit : List Char) (level : Nat) (members : List (String × Json)) :
    prettyChars unit level (object members) = '\x7b' :: openMembers unit level members := by
  cases members with
  | nil => rfl
  | cons member rest => rw [prettyChars, prettyMembers_eq]

/-- What may stand behind a value: blanks, and then the end or a mark of a list. -/
def Closes (rest : List Char) : Prop :=
  ∀ c cs, rest.dropWhile Cursor.isBlank = c :: cs → c = ',' ∨ c = ']' ∨ c = '\x7d'

/-- A reading ended in front of some text, or in the middle of the number before it. -/
def Follows (rest : List Char) (q : Cursor) : Prop :=
  ∃ extra, q.rest = extra ++ rest ∧ ∀ c ∈ extra, isNumberPart c = true

theorem follows_of_eq {rest : List Char} {q : Cursor} (h : q.rest = rest) : Follows rest q :=
  ⟨[], h, by simp⟩

theorem isBlank_of_isNumberPart {c : Char} (h : isNumberPart c = true) :
    Cursor.isBlank c = false := by
  rw [Bool.eq_false_iff]
  intro hb
  simp only [Cursor.isBlank, Bool.or_eq_true, beq_iff_eq] at hb
  rcases hb with ((rfl | rfl) | rfl) | rfl <;> exact absurd h (by decide)

/-- No part of a number stands behind a value. -/
theorem Closes.head {c : Char} {cs : List Char} (h : Closes (c :: cs)) :
    isNumberPart c = false := by
  rw [Bool.eq_false_iff]
  intro hc
  have hb : ¬ Cursor.isBlank c = true := by simp [isBlank_of_isNumberPart hc]
  rcases h c cs (List.dropWhile_cons_of_neg hb) with rfl | rfl | rfl <;>
    exact absurd hc (by decide)

/-- Parts of numbers that were taken from a number end in it. -/
theorem follows_of_takes {text rest : List Char} {p q : Cursor} (hp : p.rest = text ++ rest)
    (ht : ∀ c ∈ text, isNumberPart c = true) (hr : Closes rest) (h : p.Takes q) :
    Follows rest q := by
  obtain ⟨taken, he, hn⟩ := h
  rw [hp] at he
  rcases List.append_eq_append_iff.1 he with ⟨d, htaken, hrest⟩ | ⟨d, htext, hq⟩
  · cases d with
    | nil => exact follows_of_eq (by simpa using hrest.symm)
    | cons c d =>
      have hc := hn c (by simp [htaken])
      rw [hrest, List.cons_append] at hr
      rw [hr.head] at hc
      cases hc
  · exact ⟨d, hq, fun c hc => ht c (by simp [htext, hc])⟩

/-- Behind the word of a value stands what was written behind it. -/
theorem follows_of_readIdent {value json : Json} {word rest : List Char} {p q : Cursor} {c : Char}
    (hs : p.rest = c :: (word ++ rest)) (h : readIdent value word p.next = .ok (json, q)) :
    json = value ∧ Follows rest q := by
  obtain ⟨rfl, hq⟩ := readIdent_eq_ok h
  rw [Cursor.next_rest hs] at hq
  exact ⟨rfl, follows_of_eq (List.append_cancel_left hq).symm⟩

theorem ne_of_isNumberPart {c d : Char} (hc : isNumberPart c = true)
    (hd : isNumberPart d = false) : c ≠ d := by
  rintro rfl
  rw [hc] at hd
  cases hd

/-- A reading that ended in the middle of a number has a part of it in front. -/
theorem Follows.rest_or {rest : List Char} {p : Cursor} (h : Follows rest p) :
    p.rest = rest ∨ ∃ c cs, p.skip.rest = c :: cs ∧ isNumberPart c = true := by
  obtain ⟨extra, hp, hextra⟩ := h
  cases extra with
  | nil => exact .inl hp
  | cons c extra =>
    have hc := hextra c (List.mem_cons_self ..)
    exact .inr ⟨c, _, Cursor.skip_rest_cons hp (isBlank_of_isNumberPart hc), hc⟩

/-- Nothing may stand between a number and what follows it in an array. -/
theorem rest_of_readItems {fuel depth : Nat} {done : List Json} {p : Cursor} {rest : List Char}
    {r : Json × Cursor} (hp : Follows rest p)
    (h : readGoal (fuel + 1) depth (.items false done) p = .ok r) : p.rest = rest := by
  rcases hp.rest_or with hp | ⟨c, cs, hs, hc⟩
  · exact hp
  · have hother := ne_of_isNumberPart hc (d := ']') (by decide)
    rw [readGoal_items_other hs hother (ne_of_isNumberPart hc (by decide))] at h
    simp at h

/-- Nothing may stand between a number and what follows it in an object. -/
theorem rest_of_readMembers {fuel depth : Nat} {done : List (String × Json)} {p : Cursor}
    {rest : List Char} {r : Json × Cursor} (hp : Follows rest p)
    (h : readGoal (fuel + 1) depth (.members false done) p = .ok r) : p.rest = rest := by
  rcases hp.rest_or with hp | ⟨c, cs, hs, hc⟩
  · exact hp
  · have hother := ne_of_isNumberPart hc (d := '\x7d') (by decide)
    rw [readGoal_members_other hs hother (ne_of_isNumberPart hc (by decide))] at h
    simp at h

/-- A value that begins with a part of a number is a number. -/
theorem readGoal_of_isNumberPart {fuel n : Nat} {p : Cursor} {c : Char} {cs : List Char}
    (hs : p.skip.rest = c :: cs) (hc : isNumberPart c = true) :
    readGoal (fuel + 1) n .value p =
      if c = '-' then readNumberValue true p.skip.next
      else if c.isDigit then readNumberValue false p.skip
      else p.skip.stopAhead .expectedValue := by
  have hother : ∀ {d : Char} {ds : List Char}, p.skip.rest = d :: ds → isNumberPart d = true := by
    intro d ds hd
    rw [hs] at hd
    rwa [← (List.cons.inj hd).1]
  simp only [readGoal]
  split
  case h_1 heq =>
    rw [hs] at heq
    cases heq
  case h_5 heq =>
    rw [hs] at heq
    rw [if_pos (List.cons.inj heq).1]
    rfl
  case h_9 hminus _ _ _ heq =>
    rw [hs] at heq
    obtain ⟨rfl, rfl⟩ := List.cons.inj heq
    rw [if_neg hminus]
    rfl
  all_goals
    rename_i heq
    exact absurd (hother heq) (by decide)

theorem closes_of_mark {c : Char} {cs : List Char} (hc : c = ',' ∨ c = ']' ∨ c = '\x7d') :
    Closes (c :: cs) := by
  intro d ds h
  have hb : ¬ Cursor.isBlank c = true := by rcases hc with rfl | rfl | rfl <;> decide
  rw [List.dropWhile_cons_of_neg hb] at h
  rwa [← (List.cons.inj h).1]

theorem closes_of_blanks {blanks rest : List Char} (hb : ∀ b ∈ blanks, Cursor.isBlank b = true)
    (h : Closes rest) : Closes (blanks ++ rest) := by
  intro c cs he
  rw [List.dropWhile_append_of_pos hb] at he
  exact h c cs he

/-- Behind a value there may be nothing but blanks. -/
theorem closes_blanks {blanks : List Char} (hb : ∀ b ∈ blanks, Cursor.isBlank b = true) :
    Closes blanks := by
  have hnil : Closes [] := by
    intro c cs he
    cases he
  simpa using closes_of_blanks hb hnil

section written

variable {unit : List Char} (hu : ∀ c ∈ unit, Cursor.isBlank c = true)

include hu

theorem isBlank_of_mem_newline (level : Nat) :
    ∀ c ∈ newline unit level, Cursor.isBlank c = true := by
  intro c h
  rcases List.mem_cons.1 h with rfl | h
  · decide
  · obtain ⟨part, hp, hc⟩ := List.mem_flatten.1 h
    rw [(List.mem_replicate.1 hp).2] at hc
    exact hu c hc

theorem closes_moreItems (level : Nat) (items : List Json) (rest : List Char) :
    Closes (moreItems unit level items ++ rest) := by
  cases items with
  | nil =>
    rw [moreItems, List.append_assoc]
    exact closes_of_blanks (isBlank_of_mem_newline hu level) (closes_of_mark (by simp))
  | cons item items => exact closes_of_mark (by simp)

theorem closes_moreMembers (level : Nat) (members : List (String × Json)) (rest : List Char) :
    Closes (moreMembers unit level members ++ rest) := by
  cases members with
  | nil =>
    rw [moreMembers, List.append_assoc]
    exact closes_of_blanks (isBlank_of_mem_newline hu level) (closes_of_mark (by simp))
  | cons member members => exact closes_of_mark (by simp)

omit hu

/-- With some fuel, values that were written come back if they are read. -/
def ReadsValues (unit : List Char) (fuel : Nat) : Prop :=
  ∀ {depth level : Nat} {p q : Cursor} {blanks rest : List Char} {value json : Json},
    value.Tidy → p.rest = blanks ++ (prettyChars unit level value ++ rest) →
    (∀ b ∈ blanks, Cursor.isBlank b = true) → Closes rest →
    readGoal fuel depth .value p = .ok (json, q) → json.shape = value.shape ∧ Follows rest q

/-- With some fuel, the items of arrays come back. -/
def ReadsItems (unit : List Char) (fuel : Nat) : Prop :=
  ∀ (first : Bool) {depth level : Nat} {done items : List Json} {p q : Cursor}
    {rest : List Char} {json : Json},
    (∀ item ∈ items, item.Tidy) →
    (if first then p.rest = openItems unit level items ++ rest
      else Follows (moreItems unit level items ++ rest) p) →
    readGoal fuel depth (.items first done) p = .ok (json, q) →
    json.shape = array (done.reverse.map shape ++ items.map shape) ∧ q.rest = rest

/-- With some fuel, the members of objects come back. -/
def ReadsMembers (unit : List Char) (fuel : Nat) : Prop :=
  ∀ (first : Bool) {depth level : Nat} {done members : List (String × Json)} {p q : Cursor}
    {rest : List Char} {json : Json},
    (done.map Prod.fst ++ members.map Prod.fst).Nodup → (∀ member ∈ members, member.2.Tidy) →
    (if first then p.rest = openMembers unit level members ++ rest
      else Follows (moreMembers unit level members ++ rest) p) →
    readGoal fuel depth (.members first done) p = .ok (json, q) →
    json.shape = object (done.map shapeMember ++ members.map shapeMember) ∧ q.rest = rest

theorem readsValues_succ {fuel : Nat} (hi : ReadsItems unit fuel) (hm : ReadsMembers unit fuel) :
    ReadsValues unit (fuel + 1) := by
  intro depth level p q blanks rest value json ht hp hb hr h
  have hvalue := h
  simp only [readGoal] at h
  cases value with
  | null =>
    have hs : p.skip.rest = 'n' :: ("ull".toList ++ rest) :=
      Cursor.skip_rest_append hp hb (by decide)
    simp only [hs] at h
    obtain ⟨rfl, hq⟩ := follows_of_readIdent hs h
    exact ⟨rfl, hq⟩
  | bool b =>
    cases b with
    | true =>
      have hs : p.skip.rest = 't' :: ("rue".toList ++ rest) :=
        Cursor.skip_rest_append hp hb (by decide)
      simp only [hs] at h
      obtain ⟨rfl, hq⟩ := follows_of_readIdent hs h
      exact ⟨rfl, hq⟩
    | false =>
      have hs : p.skip.rest = 'f' :: ("alse".toList ++ rest) :=
        Cursor.skip_rest_append hp hb (by decide)
      simp only [hs] at h
      obtain ⟨rfl, hq⟩ := follows_of_readIdent hs h
      exact ⟨rfl, hq⟩
  | string s =>
    have hs : p.skip.rest = '\x22' :: (s.toList.flatMap escapeChar ++ '\x22' :: rest) := by
      apply Cursor.skip_rest_append (hp.trans ?_) hb (by decide)
      simp [prettyChars, scalar, quote]
    simp only [hs] at h
    obtain ⟨⟨t, r⟩, hread, h⟩ := bind_eq_ok_iff.1 h
    obtain ⟨rfl, hq⟩ := readString_eq_ok (Cursor.next_rest hs) hread
    simp only [pure, Except.pure, Except.ok.injEq, Prod.mk.injEq] at h
    obtain ⟨rfl, rfl⟩ := h
    exact ⟨by simp, follows_of_eq hq⟩
  | number n =>
    have hparts : ∀ c ∈ (numberText n).toList, isNumberPart c = true :=
      fun c => isNumberPart_of_mem_numberText
    have hskip : p.skip.rest = ((numberText n).toList ++ rest).dropWhile Cursor.isBlank := by
      rw [Cursor.skip_rest, hp, List.dropWhile_append_of_pos hb]
      rfl
    obtain ⟨c, cs, htext⟩ := List.exists_cons_of_ne_nil (numberText_ne_nil n)
    rw [htext] at hskip hparts
    have hc := hparts c (List.mem_cons_self ..)
    have hb' : ¬ Cursor.isBlank c = true := by simp [isBlank_of_isNumberPart hc]
    have hs : p.skip.rest = (c :: cs) ++ rest := by
      rw [hskip, List.cons_append, List.dropWhile_cons_of_neg hb']
    have hnumber : ∀ {negative : Bool} {r : Cursor}, p.skip.Takes r →
        readNumberValue negative r = .ok (json, q) →
        json.shape = (number n).shape ∧ Follows rest q := by
      intro negative r hr' hread
      obtain ⟨m, rfl, hm⟩ := readNumberValue_eq_ok hread
      exact ⟨rfl, follows_of_takes hs hparts hr (hr'.trans (takes_of_readNumber hm))⟩
    rw [readGoal_of_isNumberPart hs hc] at hvalue
    split at hvalue
    · exact hnumber (.next hs hc) hvalue
    · split at hvalue
      · exact hnumber (.refl _) hvalue
      · simp at hvalue
  | array items =>
    have hs : p.skip.rest = '[' :: (openItems unit level items ++ rest) := by
      apply Cursor.skip_rest_append (hp.trans ?_) hb (by decide)
      rw [prettyChars_array, List.cons_append]
    simp only [hs] at h
    split at h
    · simp at h
    · obtain ⟨hshape, hq⟩ := hi true (tidy_array_iff.1 ht) (Cursor.next_rest hs) h
      exact ⟨by simpa using hshape, follows_of_eq hq⟩
  | object members =>
    have hs : p.skip.rest = '\x7b' :: (openMembers unit level members ++ rest) := by
      apply Cursor.skip_rest_append (hp.trans ?_) hb (by decide)
      rw [prettyChars_object, List.cons_append]
    simp only [hs] at h
    obtain ⟨hnames, hvalues⟩ := tidy_object_iff.1 ht
    split at h
    · simp at h
    · obtain ⟨hshape, hq⟩ := hm true (by simpa using hnames) hvalues
        (Cursor.next_rest hs) h
      exact ⟨by simpa using hshape, follows_of_eq hq⟩

/-- A written value begins with neither a blank nor a closing mark. -/
theorem prettyChars_head (unit : List Char) (level : Nat) (value : Json) :
    ∃ c cs, prettyChars unit level value = c :: cs ∧ Cursor.isBlank c = false ∧ c ≠ ']' := by
  cases value with
  | null => exact ⟨_, _, rfl, by decide, by decide⟩
  | bool b => cases b <;> exact ⟨_, _, rfl, by decide, by decide⟩
  | string s => exact ⟨_, _, rfl, by decide, by decide⟩
  | array items => exact ⟨_, _, prettyChars_array unit level items, by decide, by decide⟩
  | object members => exact ⟨_, _, prettyChars_object unit level members, by decide, by decide⟩
  | number n =>
    obtain ⟨c, cs, htext⟩ := List.exists_cons_of_ne_nil (numberText_ne_nil n)
    have hc : isNumberPart c = true := isNumberPart_of_mem_numberText (n := n) (by simp [htext])
    refine ⟨c, cs, htext, isBlank_of_isNumberPart hc, ?_⟩
    rintro rfl
    exact absurd hc (by decide)

include hu

/-- An item that was written is read, and then the others. -/
theorem shape_of_readItem {fuel depth level : Nat} {done items : List Json} {item json : Json}
    {p q : Cursor} {rest : List Char} (hv : ReadsValues unit fuel) (hi : ReadsItems unit fuel)
    (ht : ∀ value ∈ item :: items, value.Tidy)
    (hp : p.rest = prettyChars unit (level + 1) item ++ (moreItems unit level items ++ rest))
    (h : readItem fuel depth done p = .ok (json, q)) :
    json.shape = array (done.reverse.map shape ++ (item :: items).map shape) ∧ q.rest = rest := by
  obtain ⟨htitem, htrest⟩ := List.forall_mem_cons.1 ht
  obtain ⟨value, s, hvalue, h⟩ := readItem_eq_ok h
  obtain ⟨hshape, hs⟩ := hv htitem (hp.trans (List.nil_append _).symm) (by simp)
    (closes_moreItems hu level items rest) hvalue
  obtain ⟨hall, hq⟩ := hi false htrest hs h
  exact ⟨by simpa [hshape] using hall, hq⟩

theorem readsItems_succ {fuel : Nat} (hv : ReadsValues unit fuel) (hi : ReadsItems unit fuel) :
    ReadsItems unit (fuel + 1) := by
  intro first depth level done items p q rest json ht hp h
  cases first with
  | true =>
    have hp : p.rest = openItems unit level items ++ rest := hp
    cases items with
    | nil =>
      have hs : p.skip.rest = ']' :: rest := Cursor.skip_rest_cons hp (by decide)
      rw [readGoal_items_close hs] at h
      obtain ⟨rfl, rfl⟩ := Prod.mk.inj (Except.ok.inj h)
      exact ⟨by simp, Cursor.next_rest hs⟩
    | cons item items =>
      obtain ⟨c, cs, hhead, hblank, hclose⟩ := prettyChars_head unit (level + 1) item
      have hs : p.skip.rest = c :: (cs ++ (moreItems unit level items ++ rest)) := by
        refine Cursor.skip_rest_append ?_ (isBlank_of_mem_newline hu (level + 1)) hblank
        rw [hp, openItems, hhead]
        simp
      rw [readGoal_items_first hs hclose] at h
      rw [← List.cons_append, ← hhead] at hs
      exact shape_of_readItem hu hv hi ht hs h
  | false =>
    have hp : p.rest = moreItems unit level items ++ rest := rest_of_readItems hp h
    cases items with
    | nil =>
      have hs : p.skip.rest = ']' :: rest := by
        refine Cursor.skip_rest_append ?_ (isBlank_of_mem_newline hu level) (by decide)
        rw [hp, moreItems]
        simp
      rw [readGoal_items_close hs] at h
      obtain ⟨rfl, rfl⟩ := Prod.mk.inj (Except.ok.inj h)
      exact ⟨by simp, Cursor.next_rest hs⟩
    | cons item items =>
      obtain ⟨c, cs, hhead, hblank, hclose⟩ := prettyChars_head unit (level + 1) item
      have hs : p.skip.rest = ',' :: (newline unit (level + 1) ++
          (prettyChars unit (level + 1) item ++ (moreItems unit level items ++ rest))) := by
        apply Cursor.skip_rest_cons (hp.trans _) (by decide)
        simp [moreItems]
      have hs' : p.skip.next.skip.rest = c :: (cs ++ (moreItems unit level items ++ rest)) := by
        refine Cursor.skip_rest_append ?_ (isBlank_of_mem_newline hu (level + 1)) hblank
        rw [Cursor.next_rest hs, hhead, List.cons_append]
      rw [readGoal_items_next hs hs' hclose] at h
      rw [← List.cons_append, ← hhead] at hs'
      exact shape_of_readItem hu hv hi ht hs' h

/-- A member that was written is read, and then the others. -/
theorem shape_of_readMember {fuel depth level : Nat} {done members : List (String × Json)}
    {member : String × Json} {json : Json} {p q : Cursor} {rest : List Char}
    (hv : ReadsValues unit fuel) (hm : ReadsMembers unit fuel)
    (hn : (done.map Prod.fst ++ (member :: members).map Prod.fst).Nodup)
    (ht : ∀ m ∈ member :: members, m.2.Tidy)
    (hp : p.rest = '\x22' :: (member.1.toList.flatMap escapeChar ++ '\x22' ::
      ':' :: ' ' :: (prettyChars unit (level + 1) member.2 ++
        (moreMembers unit level members ++ rest))))
    (h : readMember fuel depth done p = .ok (json, q)) :
    json.shape = object (done.map shapeMember ++ (member :: members).map shapeMember) ∧
      q.rest = rest := by
  obtain ⟨htmember, htrest⟩ := List.forall_mem_cons.1 ht
  obtain ⟨name, s, _, value, t, hname, -, hvalue, h⟩ := readMember_eq_ok h
  obtain ⟨rfl, hs⟩ := readString_eq_ok (Cursor.next_rest hp) hname
  have hskip := Cursor.skip_rest_cons hs (by decide)
  have hnext : s.skip.next.rest = [' '] ++ (prettyChars unit (level + 1) member.2 ++
      (moreMembers unit level members ++ rest)) := Cursor.next_rest hskip
  obtain ⟨hshape, hfollows⟩ := hv htmember hnext (List.forall_mem_singleton.2 (by decide))
    (closes_moreMembers hu level members rest) hvalue
  have hfresh : member.1 ∉ done.map Prod.fst := by
    intro hmem
    exact (List.nodup_append.1 hn).2.2 _ hmem member.1 (by simp) rfl
  have hput : put (String.ofList ([].reverse ++ member.1.toList)) value done =
      done ++ [(member.1, value)] := by
    rw [List.reverse_nil, List.nil_append, String.ofList_toList, put_of_not_mem hfresh]
  rw [hput] at h
  have hmore : ((done ++ [(member.1, value)]).map Prod.fst ++ members.map Prod.fst).Nodup := by
    simpa using hn
  obtain ⟨hall, hq⟩ := hm false hmore htrest hfollows h
  refine ⟨?_, hq⟩
  rw [hall]
  simp [shapeMember, hshape]

/-- In front of a member there are blanks, and then the quote of its name. -/
theorem skip_rest_memberText {level : Nat} {member : String × Json} {rest : List Char} {p : Cursor}
    (hp : p.rest = memberText unit level member ++ rest) :
    p.skip.rest = '\x22' :: (member.1.toList.flatMap escapeChar ++ '\x22' ::
      ':' :: ' ' :: (prettyChars unit level member.2 ++ rest)) := by
  refine Cursor.skip_rest_append ?_ (isBlank_of_mem_newline hu level) (by decide)
  rw [hp, memberText, quote]
  simp

theorem readsMembers_succ {fuel : Nat} (hv : ReadsValues unit fuel)
    (hm : ReadsMembers unit fuel) : ReadsMembers unit (fuel + 1) := by
  intro first depth level done members p q rest json hn ht hp h
  cases first with
  | true =>
    have hp : p.rest = openMembers unit level members ++ rest := hp
    cases members with
    | nil =>
      have hs : p.skip.rest = '\x7d' :: rest := Cursor.skip_rest_cons hp (by decide)
      rw [readGoal_members_close hs] at h
      obtain ⟨rfl, rfl⟩ := Prod.mk.inj (Except.ok.inj h)
      exact ⟨by simp, Cursor.next_rest hs⟩
    | cons member members =>
      have hs := skip_rest_memberText hu (hp.trans (by rw [openMembers, List.append_assoc]))
      rw [readGoal_members_first hs] at h
      exact shape_of_readMember hu hv hm hn ht hs h
  | false =>
    have hp : p.rest = moreMembers unit level members ++ rest := rest_of_readMembers hp h
    cases members with
    | nil =>
      have hs : p.skip.rest = '\x7d' :: rest := by
        refine Cursor.skip_rest_append ?_ (isBlank_of_mem_newline hu level) (by decide)
        rw [hp, moreMembers, List.append_assoc]
        rfl
      rw [readGoal_members_close hs] at h
      obtain ⟨rfl, rfl⟩ := Prod.mk.inj (Except.ok.inj h)
      exact ⟨by simp, Cursor.next_rest hs⟩
    | cons member members =>
      have hs : p.skip.rest = ',' :: (memberText unit (level + 1) member ++
          (moreMembers unit level members ++ rest)) := by
        apply Cursor.skip_rest_cons (hp.trans _) (by decide)
        simp [moreMembers]
      have hs' := skip_rest_memberText hu (Cursor.next_rest hs)
      rw [readGoal_members_next hs hs'] at h
      exact shape_of_readMember hu hv hm hn ht hs' h

/-- Values that were written come back, whatever the fuel. -/
theorem reads_all (fuel : Nat) :
    ReadsValues unit fuel ∧ ReadsItems unit fuel ∧ ReadsMembers unit fuel := by
  induction fuel with
  | zero =>
    refine ⟨?_, ?_, ?_⟩
    · intro _ _ _ _ _ _ _ _ _ _ _ _ h
      simp [readGoal] at h
    · intro _ _ _ _ _ _ _ _ _ _ _ h
      simp [readGoal] at h
    · intro _ _ _ _ _ _ _ _ _ _ _ _ h
      simp [readGoal] at h
  | succ fuel ih =>
    obtain ⟨hv, hi, hm⟩ := ih
    exact ⟨readsValues_succ hi hm, readsItems_succ hu hv hi, readsMembers_succ hu hv hm⟩

end written

/-- A text of a value, with blanks behind it, is read as the value but for its numbers. -/
theorem shape_of_read {unit : String} {value json : Json} {blanks : List Char}
    (hu : ∀ c ∈ unit.toList, Cursor.isBlank c = true) (ht : value.Tidy)
    (hb : ∀ b ∈ blanks, Cursor.isBlank b = true)
    (h : read (value.pretty unit ++ String.ofList blanks) = .ok json) :
    json.shape = value.shape := by
  obtain ⟨p, hg, -⟩ := read_eq_ok_iff.1 h
  have hp : (value.pretty unit ++ String.ofList blanks).toList =
      [] ++ (prettyChars unit.toList 0 value ++ blanks) := by simp [pretty]
  exact ((reads_all hu _).1 ht hp (by simp) (closes_blanks hb) hg).1

end Codemod.Json
