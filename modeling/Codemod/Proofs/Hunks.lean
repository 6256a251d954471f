import Codemod.Proofs.EditScripts

/-!
Hunks and what they do to a list.

`Tracks` says what the changes of a script are: between two of them the lists agree on at least one
item. The hunks made of such changes can be put into the first list one after another, each at the
place it names, and the second list comes of it. A hunk ends before the next one begins, because a
change whose context would overlap is taken into the hunk before it.
-/
namespace Codemod.Diff

variable {α : Type}

@[simp] theorem range_self (items : List α) (i : Nat) : range items i i = [] := by
  simp [range]

theorem range_append_drop {i k : Nat} (h : i ≤ k) (items : List α) :
    range items i k ++ items.drop k = items.drop i := by
  have hsplit := List.take_append_drop (k - i) (items.drop i)
  rwa [List.drop_drop, Nat.add_sub_cancel' h] at hsplit

theorem range_append {i k l : Nat} (hik : i ≤ k) (hkl : k ≤ l) (items : List α) :
    range items i k ++ range items k l = range items i l := by
  have hmid : items.drop k = (items.drop i).drop (k - i) := by
    rw [List.drop_drop, Nat.add_sub_cancel' hik]
  have hlen : l - i = (k - i) + (l - k) := by omega
  rw [range, range, range, hmid, hlen, List.take_add]

theorem length_range {i k : Nat} {items : List α} (h : k ≤ items.length) :
    (range items i k).length = k - i := by
  rw [range, List.length_take, List.length_drop]
  omega

theorem range_of_drop {items front rest : List α} {i : Nat} (h : items.drop i = front ++ rest) :
    range items i (i + front.length) = front := by
  rw [range, h, Nat.add_sub_cancel_left, List.take_left]

theorem drop_of_drop {items front rest : List α} {i : Nat} (h : items.drop i = front ++ rest) :
    items.drop (i + front.length) = rest := by
  rw [← List.drop_drop, h, List.drop_left]

variable {old new : List α}

/-- The lists agree on some items behind two positions. -/
structure Agree (old new : List α) (i j count : Nat) : Prop where
  old_le : i + count ≤ old.length
  new_le : j + count ≤ new.length
  range_eq : range old i (i + count) = range new j (j + count)

theorem Agree.append {i j m n : Nat} (h : Agree old new i j m)
    (h' : Agree old new (i + m) (j + m) n) : Agree old new i j (m + n) where
  old_le := by have := h'.old_le; omega
  new_le := by have := h'.new_le; omega
  range_eq := by
    rw [← range_append (Nat.le_add_right i m) (by omega), ← Nat.add_assoc,
      ← range_append (Nat.le_add_right j m) (by omega : j + m ≤ j + (m + n)), h.range_eq,
      h'.range_eq, ← Nat.add_assoc]

/-- Changes between two lists from two positions on. Two changes have items between them, and only
the first change may be right at the positions. -/
inductive Tracks (old new : List α) : Bool → Nat → Nat → List Edit → Prop
  | done {first : Bool} {i j : Nat} : i ≤ old.length → j ≤ new.length →
    old.drop i = new.drop j → Tracks old new first i j []
  | edit {first : Bool} {i j : Nat} {edit : Edit} {rest : List Edit} (count : Nat) :
    Agree old new i j count → edit.oldStart = i + count → edit.newStart = j + count →
    (count = 0 → first = true) → edit.oldStart ≤ edit.oldStop → edit.newStart ≤ edit.newStop →
    Tracks old new false edit.oldStop edit.newStop rest → Tracks old new first i j (edit :: rest)

/-- A place in two lists from where a script leads from one to the other. -/
structure At (old new : List α) (i j : Nat) (script : Script α) : Prop where
  old_le : i ≤ old.length
  new_le : j ≤ new.length
  old_eq : old.drop i = script.old
  new_eq : new.drop j = script.new

variable {i j : Nat} {rest : Script α} {items : List α}

theorem At.keep (h : At old new i j (.keep items :: rest)) :
    Agree old new i j items.length ∧
      At old new (i + items.length) (j + items.length) rest := by
  have hold : old.drop i = items ++ rest.old := by simpa [Piece.old] using h.old_eq
  have hnew : new.drop j = items ++ rest.new := by simpa [Piece.new] using h.new_eq
  have hlenOld := congrArg List.length hold
  have hlenNew := congrArg List.length hnew
  have hi := h.old_le
  have hj := h.new_le
  simp only [List.length_drop, List.length_append] at hlenOld hlenNew
  refine ⟨⟨by omega, by omega, ?_⟩, ⟨by omega, by omega, drop_of_drop hold, drop_of_drop hnew⟩⟩
  rw [range_of_drop hold, range_of_drop hnew]

theorem At.delete (h : At old new i j (.delete items :: rest)) :
    At old new (i + items.length) j rest := by
  have hold : old.drop i = items ++ rest.old := by simpa [Piece.old] using h.old_eq
  have hlen := congrArg List.length hold
  have hi := h.old_le
  simp only [List.length_drop, List.length_append] at hlen
  exact ⟨by omega, h.new_le, drop_of_drop hold, by simpa [Piece.new] using h.new_eq⟩

theorem At.insert (h : At old new i j (.insert items :: rest)) :
    At old new i (j + items.length) rest := by
  have hnew : new.drop j = items ++ rest.new := by simpa [Piece.new] using h.new_eq
  have hlen := congrArg List.length hnew
  have hj := h.new_le
  simp only [List.length_drop, List.length_append] at hlen
  exact ⟨h.old_le, by omega, by simpa [Piece.old] using h.old_eq, drop_of_drop hnew⟩

/-- The changes that are left, with or without one that is not complete yet, are changes between
the lists. -/
theorem tracks_edits {script : Script α} (hs : script.Solid) :
    (∀ first i j count, Agree old new i j count → (count = 0 → first = true) →
      At old new (i + count) (j + count) script →
      Tracks old new first i j (edits (i + count) (j + count) none script)) ∧
    (∀ first i j count edit, Agree old new i j count → (count = 0 → first = true) →
      edit.oldStart = i + count → edit.newStart = j + count →
      edit.oldStart ≤ edit.oldStop → edit.newStart ≤ edit.newStop →
      At old new edit.oldStop edit.newStop script →
      Tracks old new first i j (edits edit.oldStop edit.newStop (some edit) script)) := by
  induction script with
  | nil =>
    refine ⟨?_, ?_⟩
    · intro first i j count hagree hfirst hat
      rw [edits]
      refine .done (by have := hat.old_le; omega) (by have := hat.new_le; omega) ?_
      rw [← range_append_drop (Nat.le_add_right i count), ← range_append_drop
        (Nat.le_add_right j count), hagree.range_eq, hat.old_eq, hat.new_eq]
      rfl
    · intro first i j count edit hagree hfirst hold hnew hold' hnew' hat
      rw [edits]
      refine .edit count hagree hold hnew hfirst hold' hnew' (.done hat.old_le hat.new_le ?_)
      rw [hat.old_eq, hat.new_eq]
      rfl
  | cons piece rest ih =>
    obtain ⟨hpiece, hrest⟩ := Script.solid_cons.1 hs
    obtain ⟨ihNone, ihSome⟩ := ih hrest
    cases piece with
    | keep items =>
      have hne : items.length ≠ 0 := by
        intro h
        exact hpiece (by rw [List.length_eq_zero_iff.1 h])
      refine ⟨?_, ?_⟩
      · intro first i j count hagree hfirst hat
        obtain ⟨hmore, hnext⟩ := hat.keep
        rw [edits]
        have := ihNone first i j (count + items.length) (hagree.append hmore) (by omega)
          (by simpa [Nat.add_assoc] using hnext)
        simpa [Nat.add_assoc] using this
      · intro first i j count edit hagree hfirst hold hnew hold' hnew' hat
        obtain ⟨hmore, hnext⟩ := hat.keep
        rw [edits]
        exact .edit count hagree hold hnew hfirst hold' hnew'
          (ihNone false edit.oldStop edit.newStop items.length hmore (by omega) hnext)
    | delete items =>
      refine ⟨?_, ?_⟩
      · intro first i j count hagree hfirst hat
        rw [edits]
        exact ihSome first i j count ⟨i + count, i + count + items.length, j + count, j + count⟩
          hagree hfirst rfl rfl (Nat.le_add_right ..) (Nat.le_refl _) hat.delete
      · intro first i j count edit hagree hfirst hold hnew hold' hnew' hat
        rw [edits]
        exact ihSome first i j count { edit with oldStop := edit.oldStop + items.length }
          hagree hfirst hold hnew (by simp only; omega) hnew' hat.delete
    | insert items =>
      refine ⟨?_, ?_⟩
      · intro first i j count hagree hfirst hat
        rw [edits]
        exact ihSome first i j count ⟨i + count, i + count, j + count, j + count + items.length⟩
          hagree hfirst rfl rfl (Nat.le_refl _) (Nat.le_add_right ..) hat.insert
      · intro first i j count edit hagree hfirst hold hnew hold' hnew' hat
        rw [edits]
        exact ihSome first i j count { edit with newStop := edit.newStop + items.length }
          hagree hfirst hold hnew hold' (by simp only; omega) hat.insert

theorem tracks_edits_zero {script : Script α} (hs : script.Solid) :
    Tracks script.old script.new true 0 0 (edits 0 0 none script) := by
  have hagree : Agree script.old script.new 0 0 0 := ⟨Nat.zero_le _, Nat.zero_le _, by simp⟩
  exact (tracks_edits hs).1 true 0 0 0 hagree (fun _ => rfl)
    ⟨Nat.zero_le _, Nat.zero_le _, rfl, rfl⟩

def HunkLine.old? : HunkLine α → Option α
  | context line | removed line => some line
  | added _ => none

def HunkLine.new? : HunkLine α → Option α
  | context line | added line => some line
  | removed _ => none

def HunkLine.line : HunkLine α → α
  | context line | removed line | added line => line

def olds (lines : List (HunkLine α)) : List α := lines.filterMap HunkLine.old?

def news (lines : List (HunkLine α)) : List α := lines.filterMap HunkLine.new?

@[simp] theorem olds_append (a b : List (HunkLine α)) : olds (a ++ b) = olds a ++ olds b := by
  simp [olds]

@[simp] theorem news_append (a b : List (HunkLine α)) : news (a ++ b) = news a ++ news b := by
  simp [news]

@[simp] theorem olds_context (items : List α) : olds (items.map .context) = items := by
  induction items with
  | nil => rfl
  | cons item items ih => simpa [olds, HunkLine.old?] using ih

@[simp] theorem news_context (items : List α) : news (items.map .context) = items := by
  induction items with
  | nil => rfl
  | cons item items ih => simpa [news, HunkLine.new?] using ih

theorem olds_lines (edit : Edit) :
    olds (edit.lines old new) = range old edit.oldStart edit.oldStop := by
  simp [Edit.lines, olds, HunkLine.old?, List.filterMap_map, Function.comp_def]

theorem news_lines (edit : Edit) :
    news (edit.lines old new) = range new edit.newStart edit.newStop := by
  simp [Edit.lines, news, HunkLine.new?, List.filterMap_map, Function.comp_def]

theorem Agree.mono {i j m n : Nat} (h : Agree old new i j n) (hm : m ≤ n) :
    Agree old new i j m where
  old_le := by have := h.old_le; omega
  new_le := by have := h.new_le; omega
  range_eq := by
    have htake := congrArg (List.take m) h.range_eq
    simpa [range, List.take_take, Nat.min_eq_left hm] using htake

/-- The next hunk begins behind some items that follow two positions, and it has as many unchanged
items in front in the one list as in the other. -/
def Clear (old new : List α) (i j count : Nat) : List Edit → Prop
  | [] => Agree old new i j count
  | edit :: _ => Agree old new i j count ∧ i + count ≤ edit.oldStart - contextLength ∧
    edit.oldStart - (edit.oldStart - contextLength) =
      edit.newStart - (edit.newStart - contextLength)

/-- What the lines from a change to the end of its hunk show, and what is left behind them. -/
structure Shows (old new : List α) (edit : Edit) (lines : List (HunkLine α)) (last : Edit)
    (left : List Edit) : Prop where
  olds_eq : olds lines = range old edit.oldStart (last.oldStop + last.contextAfter old new)
  news_eq : news lines = range new edit.newStart (last.newStop + last.contextAfter old new)
  old_le : edit.oldStart ≤ last.oldStop
  new_le : edit.newStart ≤ last.newStop
  tracks : Tracks old new false last.oldStop last.newStop left
  clear : Clear old new last.oldStop last.newStop (last.contextAfter old new) left

/-- A hunk that ends with a change. -/
theorem shows_last {edit : Edit} {rest : List Edit} (hold : edit.oldStart ≤ edit.oldStop)
    (hnew : edit.newStart ≤ edit.newStop)
    (ht : Tracks old new false edit.oldStop edit.newStop rest)
    (hc : Clear old new edit.oldStop edit.newStop (edit.contextAfter old new) rest) :
    Shows old new edit (edit.lines old new ++ (range new edit.newStop
      (edit.newStop + edit.contextAfter old new)).map .context) edit rest := by
  have hagree : Agree old new edit.oldStop edit.newStop (edit.contextAfter old new) := by
    cases rest with
    | nil => exact hc
    | cons next rest => exact hc.1
  refine ⟨?_, ?_, hold, hnew, ht, hc⟩
  · rw [olds_append, olds_lines, olds_context, ← hagree.range_eq,
      range_append hold (Nat.le_add_right ..)]
  · rw [news_append, news_lines, news_context, range_append hnew (Nat.le_add_right ..)]

theorem shows_hunkLines {edit : Edit} {rest : List Edit} (hold : edit.oldStart ≤ edit.oldStop)
    (hnew : edit.newStart ≤ edit.newStop)
    (ht : Tracks old new false edit.oldStop edit.newStop rest) :
    Shows old new edit (hunkLines old new edit rest).1 (hunkLines old new edit rest).2.1
      (hunkLines old new edit rest).2.2 := by
  induction rest generalizing edit with
  | nil =>
    rw [hunkLines]
    refine shows_last hold hnew ht ?_
    cases ht with
    | done hi hj hdrop =>
      refine ⟨by simp only [Edit.contextAfter]; omega, by simp only [Edit.contextAfter]; omega, ?_⟩
      simp only [range, hdrop, Nat.add_sub_cancel_left]
  | cons next rest ih =>
    cases ht with
    | edit count hagree hstart hstart' hcount hnext hnext' htail =>
      have hi := hagree.old_le
      have hj := hagree.new_le
      have hpos : count ≠ 0 := fun h => Bool.false_ne_true (hcount h)
      rw [hunkLines]
      split
      · have hmore := ih hnext hnext' htail
        generalize hunkLines old new next rest = answer at hmore ⊢
        obtain ⟨lines, last, left⟩ := answer
        simp only at hmore ⊢
        obtain ⟨holds, hnews, hle, hle', htracks, hclear⟩ := hmore
        have hgap : min (next.oldStart - edit.oldStop) (next.newStart - edit.newStop) = count := by
          omega
        refine ⟨?_, ?_, by omega, by omega, htracks, hclear⟩
        · rw [hgap, olds_append, olds_append, olds_lines, olds_context, holds, ← hagree.range_eq,
            ← hstart, range_append hold (by omega), range_append (by omega) (by omega)]
        · rw [hgap, news_append, news_append, news_lines, news_context, hnews, ← hstart',
            range_append hnew (by omega), range_append (by omega) (by omega)]
      · rename_i hapart
        refine shows_last hold hnew
          (.edit count hagree hstart hstart' hcount hnext hnext' htail) ?_
        -- There is an item between the two changes, so the context of the first is not empty, and
        -- the subtraction in the condition for joining them has not stopped at zero.
        have hcontext : 0 < edit.contextAfter old new := by
          rw [Edit.contextAfter, Nat.lt_min, Nat.lt_min]
          exact ⟨by decide, by omega, by omega⟩
        have hgap : edit.oldStop + edit.contextAfter old new + contextLength ≤ next.oldStart := by
          have hle := Nat.min_le_left next.oldStart (old.length - 1)
          omega
        exact ⟨hagree.mono (by omega), by omega, by omega⟩

def hunkOf (old new : List α) (edit : Edit) (rest : List Edit) : Hunk α :=
  let (lines, last, _) := hunkLines old new edit rest
  { oldStart := edit.oldStart - contextLength
    oldCount := last.oldStop + last.contextAfter old new - (edit.oldStart - contextLength)
    newStart := edit.newStart - contextLength
    newCount := last.newStop + last.contextAfter old new - (edit.newStart - contextLength)
    lines := (range new (edit.newStart - contextLength) edit.newStart).map .context ++ lines }

theorem hunks_cons (fuel : Nat) (edit : Edit) (rest : List Edit) :
    hunks old new (fuel + 1) (edit :: rest) =
      hunkOf old new edit rest :: hunks old new fuel (hunkLines old new edit rest).2.2 := rfl

/-- Corresponding parts of what the lists agree on are the same. -/
theorem Agree.part {i j n a b a' b' : Nat} (h : Agree old new i j n) (ha : i ≤ a) (hab : a ≤ b)
    (hb : b ≤ i + n) (ha' : a' + i = j + a) (hb' : b' + i = j + b) :
    range old a b = range new a' b' := by
  obtain ⟨m, rfl⟩ := Nat.exists_eq_add_of_le ha
  obtain ⟨k, rfl⟩ := Nat.exists_eq_add_of_le hab
  obtain rfl : a' = j + m := by omega
  obtain rfl : b' = j + m + k := by omega
  have hdrop := congrArg (List.drop m) (h.mono (show m + k ≤ n by omega)).range_eq
  simp only [range, List.drop_take, List.drop_drop, Nat.add_sub_cancel_left] at hdrop ⊢
  exact hdrop

/-- A hunk shows the parts of the two lists that it names. -/
structure Hunk.Describes (old new : List α) (hunk : Hunk α) : Prop where
  olds_eq : olds hunk.lines = range old hunk.oldStart (hunk.oldStart + hunk.oldCount)
  news_eq : news hunk.lines = range new hunk.newStart (hunk.newStart + hunk.newCount)
  old_le : hunk.oldStart + hunk.oldCount ≤ old.length
  new_le : hunk.newStart + hunk.newCount ≤ new.length

theorem Hunk.Describes.length_olds {hunk : Hunk α} (h : hunk.Describes old new) :
    (olds hunk.lines).length = hunk.oldCount := by
  rw [h.olds_eq, length_range h.old_le, Nat.add_sub_cancel_left]

theorem Hunk.Describes.length_news {hunk : Hunk α} (h : hunk.Describes old new) :
    (news hunk.lines).length = hunk.newCount := by
  rw [h.news_eq, length_range h.new_le, Nat.add_sub_cancel_left]

/-- A line of a hunk is an item of one of the two lists. -/
theorem Hunk.Describes.line_mem {hunk : Hunk α} (h : hunk.Describes old new) {l : HunkLine α}
    (hl : l ∈ hunk.lines) : l.line ∈ old ∨ l.line ∈ new := by
  have hshown : l.old? = some l.line ∨ l.new? = some l.line := by
    cases l with
    | context line => exact .inl rfl
    | removed line => exact .inl rfl
    | added line => exact .inr rfl
  rcases hshown with hshown | hshown
  · have hmem : l.line ∈ olds hunk.lines := List.mem_filterMap.2 ⟨l, hl, hshown⟩
    rw [h.olds_eq] at hmem
    exact .inl (List.mem_of_mem_drop (List.mem_of_mem_take hmem))
  · have hmem : l.line ∈ news hunk.lines := List.mem_filterMap.2 ⟨l, hl, hshown⟩
    rw [h.news_eq] at hmem
    exact .inr (List.mem_of_mem_drop (List.mem_of_mem_take hmem))

/-- What a hunk and the changes behind it are, by the place where the hunk before it ends. -/
structure Next (old new : List α) (i j : Nat) (hunk : Hunk α) (left : List Edit) : Prop where
  describes : hunk.Describes old new
  old_le : i ≤ hunk.oldStart
  new_eq : hunk.newStart = j + (hunk.oldStart - i)
  skips : range old i hunk.oldStart = range new j hunk.newStart
  left : ∃ i' j' count, Tracks old new false i' j' left ∧ Clear old new i' j' count left ∧
    i' + count = hunk.oldStart + hunk.oldCount ∧ j' + count = hunk.newStart + hunk.newCount

theorem next_hunkOf {first : Bool} {i j count : Nat} {edit : Edit} {rest : List Edit}
    (ht : Tracks old new first i j (edit :: rest)) (hc : Clear old new i j count (edit :: rest)) :
    Next old new (i + count) (j + count) (hunkOf old new edit rest)
      (hunkLines old new edit rest).2.2 := by
  obtain ⟨-, hbefore, hcontext⟩ := hc
  cases ht with
  | edit gap hagree hstart hstart' _ hle hle' htail =>
    have hshows := shows_hunkLines hle hle' htail
    unfold hunkOf
    generalize hunkLines old new edit rest = answer at hshows ⊢
    obtain ⟨lines, last, left⟩ := answer
    simp only at hshows ⊢
    obtain ⟨holds, hnews, hlast, hlast', htracks, hclear⟩ := hshows
    have hend : Agree old new last.oldStop last.newStop (last.contextAfter old new) := by
      cases left with
      | nil => exact hclear
      | cons next rest => exact hclear.1
    have hold := hend.old_le
    have hnew := hend.new_le
    have hlead : range old (edit.oldStart - contextLength) edit.oldStart =
        range new (edit.newStart - contextLength) edit.newStart :=
      hagree.part (by omega) (by omega) (by omega) (by omega) (by omega)
    have hskip : range old (i + count) (edit.oldStart - contextLength) =
        range new (j + count) (edit.newStart - contextLength) :=
      hagree.part (by omega) (by omega) (by omega) (by omega) (by omega)
    refine ⟨⟨?_, ?_, ?_, ?_⟩, ?_, ?_, hskip, last.oldStop, last.newStop,
      last.contextAfter old new, htracks, hclear, ?_, ?_⟩ <;> simp only
    · have hsum : edit.oldStart - contextLength + (last.oldStop + last.contextAfter old new -
          (edit.oldStart - contextLength)) = last.oldStop + last.contextAfter old new := by omega
      rw [hsum, olds_append, olds_context, holds, ← hlead,
        range_append (by omega) (by omega)]
    · have hsum : edit.newStart - contextLength + (last.newStop + last.contextAfter old new -
          (edit.newStart - contextLength)) = last.newStop + last.contextAfter old new := by omega
      rw [hsum, news_append, news_context, hnews, range_append (by omega) (by omega)]
    all_goals omega

/-- There are at most as many changes left behind a hunk as behind the change it begins with. -/
theorem length_hunkLines (edit : Edit) (rest : List Edit) :
    (hunkLines old new edit rest).2.2.length ≤ rest.length := by
  induction rest generalizing edit with
  | nil => exact Nat.le_refl _
  | cons next rest ih =>
    rw [hunkLines]
    split
    · exact Nat.le_succ_of_le (ih next)
    · exact Nat.le_refl _

/-- Puts hunks into a list. The rest of the list and the two positions say how far it has come: what
is in front of a hunk is taken over, and the hunk has to show what stands at its place. -/
def applyHunks [DecidableEq α] : Nat → Nat → List α → List (Hunk α) → Option (List α)
  | _, _, rest, [] => some rest
  | i, j, rest, hunk :: more =>
    let skip := hunk.oldStart - i
    let behind := rest.drop skip
    if i ≤ hunk.oldStart ∧ skip ≤ rest.length ∧ hunk.newStart = j + skip ∧
        olds hunk.lines <+: behind then
      (applyHunks (hunk.oldStart + (olds hunk.lines).length)
        (hunk.newStart + (news hunk.lines).length) (behind.drop (olds hunk.lines).length) more).map
          fun result => rest.take skip ++ news hunk.lines ++ result
    else none

/-- Without a change left, the rest of the one list is the rest of the other. -/
theorem applyHunks_nil [DecidableEq α] {first : Bool} {i j : Nat}
    (ht : Tracks old new first i j []) (count : Nat) :
    applyHunks (i + count) (j + count) (old.drop (i + count)) [] =
      some (new.drop (j + count)) := by
  cases ht with
  | done _ _ hdrop => rw [applyHunks, ← List.drop_drop, ← List.drop_drop, hdrop]

theorem applyHunks_cons [DecidableEq α] {i j : Nat} {hunk : Hunk α} {left : List Edit}
    (h : Next old new i j hunk left) (more : List (Hunk α)) :
    applyHunks i j (old.drop i) (hunk :: more) =
      (applyHunks (hunk.oldStart + hunk.oldCount) (hunk.newStart + hunk.newCount)
        (old.drop (hunk.oldStart + hunk.oldCount)) more).map fun result =>
          range new j (hunk.newStart + hunk.newCount) ++ result := by
  have hle := h.old_le
  have hold := h.describes.old_le
  have hnew := h.new_eq
  have hbehind : (old.drop i).drop (hunk.oldStart - i) = old.drop hunk.oldStart := by
    rw [List.drop_drop, Nat.add_sub_cancel' hle]
  have htake : (old.drop i).take (hunk.oldStart - i) = range new j hunk.newStart := h.skips
  have hprefix : olds hunk.lines <+: old.drop hunk.oldStart := by
    rw [h.describes.olds_eq]
    exact ⟨_, range_append_drop (Nat.le_add_right ..) old⟩
  rw [applyHunks, if_pos ⟨hle, by rw [List.length_drop]; omega, hnew, by rwa [hbehind]⟩, hbehind,
    h.describes.length_olds, h.describes.length_news, List.drop_drop, htake, h.describes.news_eq,
    range_append (by omega) (Nat.le_add_right ..)]

/-- The hunks of the changes that are left make the rest of the second list of the rest of the
first one, and every one of them shows what it names. -/
theorem applyHunks_hunks [DecidableEq α] {first : Bool} {i j count fuel : Nat}
    {edits : List Edit} (hf : edits.length ≤ fuel) (ht : Tracks old new first i j edits)
    (hc : Clear old new i j count edits) :
    applyHunks (i + count) (j + count) (old.drop (i + count)) (hunks old new fuel edits) =
        some (new.drop (j + count)) ∧
      ∀ hunk ∈ hunks old new fuel edits, hunk.Describes old new := by
  induction fuel generalizing first i j count edits with
  | zero =>
    obtain rfl := List.length_eq_zero_iff.1 (Nat.le_zero.1 hf)
    exact ⟨applyHunks_nil ht count, nofun⟩
  | succ fuel ih =>
    cases edits with
    | nil => exact ⟨applyHunks_nil ht count, nofun⟩
    | cons edit rest =>
      have hnext := next_hunkOf ht hc
      obtain ⟨i', j', count', htracks, hclear, hi, hj⟩ := hnext.left
      have hfuel : (hunkLines old new edit rest).2.2.length ≤ fuel :=
        Nat.le_trans (length_hunkLines edit rest) (Nat.le_of_succ_le_succ hf)
      obtain ⟨happly, hdescribes⟩ := ih hfuel htracks hclear
      rw [hi, hj] at happly
      rw [hunks_cons]
      refine ⟨?_, List.forall_mem_cons.2 ⟨hnext.describes, hdescribes⟩⟩
      rw [applyHunks_cons hnext, happly, Option.map_some,
        range_append_drop (by have := hnext.new_eq; omega)]

/-- In front of the first change there is as much of the one list as of the other. -/
theorem Tracks.clear {first : Bool} {edits : List Edit} (h : Tracks old new first 0 0 edits) :
    Clear old new 0 0 0 edits := by
  have hnone : Agree old new 0 0 0 := ⟨Nat.zero_le _, Nat.zero_le _, by simp⟩
  cases h with
  | done => exact hnone
  | edit count _ hstart hstart' => exact ⟨hnone, by omega, by omega⟩

/-- The hunks between two lists make the second list of the first one, and each shows the parts of
the lists that it names. -/
theorem applyHunks_between [DecidableEq α] (old new : List α) :
    applyHunks 0 0 old (between old new) = some new ∧
      ∀ hunk ∈ between old new, hunk.Describes old new := by
  have hleads := leads_compact (old.length + new.length + 1) old new
  have htracks := tracks_edits_zero hleads.solid
  rw [hleads.old, hleads.new] at htracks
  exact applyHunks_hunks (Nat.le_refl _) htracks htracks.clear

end Codemod.Diff
