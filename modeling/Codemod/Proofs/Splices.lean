import Codemod.Staging.Record
import Codemod.Staging.Splice

/-!
Replacements in a text.

`Text.replaceAt?_eq_some_iff` describes a replacement by the three parts of the text around it; an
insertion replaces nothing. The splice between two texts makes one of the other, and a replayed
record has both ends of its range on boundaries of the text it is replayed on.
-/
namespace Codemod

namespace Text

theorem insertAt?_eq_some_iff {s t piece : String} {offset : Nat} :
    insertAt? s offset piece = some t ↔
      ∃ a b, s.toList = a ++ b ∧ byteLength a = offset ∧
        t = String.ofList (a ++ piece.toList ++ b) := by
  rw [insertAt?, Option.map_eq_some_iff]
  constructor
  · rintro ⟨⟨a, b⟩, h, rfl⟩
    obtain ⟨hs, hl⟩ := cut?_eq_some_iff.1 h
    exact ⟨a, b, hs, hl, rfl⟩
  · rintro ⟨a, b, hs, hl, rfl⟩
    exact ⟨(a, b), cut?_eq_some_iff.2 ⟨hs, hl⟩, rfl⟩

/-- A piece can be put wherever the text has a boundary. -/
theorem insertAt?_of_isBoundary {s : String} {offset : Nat} (h : isBoundary s offset = true)
    (piece : String) : ∃ t, insertAt? s offset piece = some t := by
  obtain ⟨a, b, hs, hl⟩ := isBoundary_iff.1 h
  exact ⟨_, insertAt?_eq_some_iff.2 ⟨a, b, hs, hl, rfl⟩⟩

theorem replaceAt?_eq_some_iff {s t piece : String} {offset removed : Nat} :
    replaceAt? s offset removed piece = some t ↔
      ∃ a b c, s.toList = a ++ b ++ c ∧ byteLength a = offset ∧ byteLength b = removed ∧
        t = String.ofList (a ++ piece.toList ++ c) := by
  constructor
  · intro h
    unfold replaceAt? at h
    split at h
    · simp at h
    · rename_i a rest ha
      obtain ⟨⟨b, c⟩, hb, rfl⟩ := Option.map_eq_some_iff.1 h
      obtain ⟨hs, hl⟩ := cut?_eq_some_iff.1 ha
      obtain ⟨rfl, hr⟩ := cut?_eq_some_iff.1 hb
      exact ⟨a, b, c, by simp [hs], hl, hr, rfl⟩
  · rintro ⟨a, b, c, hs, rfl, rfl, rfl⟩
    have ha : cut? s.toList (byteLength a) = some (a, b ++ c) := by
      rw [hs, List.append_assoc]
      exact cut?_append a (b ++ c)
    simp [replaceAt?, ha, cut?_append]

/-- An insertion is a replacement of nothing. -/
theorem replaceAt?_zero (s piece : String) (offset : Nat) :
    replaceAt? s offset 0 piece = insertAt? s offset piece := by
  unfold replaceAt? insertAt?
  split <;> simp [*]

end Text

/-- Both texts are what is kept at the front, a part of their own, and what is kept at the end. -/
theorem Splice.Keeps.exists_parts {old new : String} {front back : Nat}
    (h : Keeps old new front back) : ∃ a m m' t, old.toList = a ++ m ++ t ∧
      new.toList = a ++ m' ++ t ∧ Text.byteLength a = front ∧ Text.byteLength t = back := by
  have hfits := h.fits
  have holdle := hfits.old_le
  have hnewle := hfits.new_le
  obtain ⟨a, m, t, hold, ha, hm⟩ := Text.exists_parts hfits.old_start hfits.old_stop (by omega)
  obtain ⟨a', m', t', hnew, ha', hm'⟩ :=
    Text.exists_parts hfits.new_start hfits.new_stop (by omega)
  have hsize : Text.byteLength (a ++ m) + Text.byteLength t = Text.size old := by
    rw [Text.size, hold, ← Text.byteLength_append]
  have hsize' : Text.byteLength (a' ++ m') + Text.byteLength t' = Text.size new := by
    rw [Text.size, hnew, ← Text.byteLength_append]
  rw [← Text.byteLength_append] at hm hm'
  have hfront : a = a' := by
    obtain ⟨-, -, hsame⟩ := Diff.le_commonFront_iff.1 (downTo?_spec h.atFront).1
    apply Text.bytes_inj
    calc Text.bytes a = (Text.bytes old.toList).take front := by
          rw [hold, List.append_assoc, ← ha, Text.take_bytes]
      _ = (Text.bytes new.toList).take front := hsame
      _ = Text.bytes a' := by rw [hnew, List.append_assoc, ← ha', Text.take_bytes]
  have hback : t = t' := by
    obtain ⟨-, -, hsame⟩ := Diff.le_commonBack_iff.1
      (Nat.le_trans (downTo?_spec h.atBack).1 (Nat.min_le_right ..))
    rw [Text.length_bytes, Text.length_bytes] at hsame
    apply Text.bytes_inj
    calc Text.bytes t = (Text.bytes old.toList).drop (Text.size old - back) := by
          rw [← hm, hold, Text.drop_bytes]
      _ = (Text.bytes new.toList).drop (Text.size new - back) := hsame
      _ = Text.bytes t' := by rw [← hm', hnew, Text.drop_bytes]
  exact ⟨a, m, m', t, hold, by rw [hnew, hfront, hback], ha, by omega⟩

/-- The splice between two texts is what lies between the parts that are kept. -/
theorem Splice.Keeps.between_eq_of_parts {old new : String} {back : Nat} {a m m' t : List Char}
    (h : Keeps old new (Text.byteLength a) back) (hold : old.toList = a ++ m ++ t)
    (hnew : new.toList = a ++ m' ++ t) (ht : Text.byteLength t = back) :
    between old new = ⟨Text.byteLength a, Text.byteLength m, String.ofList m'⟩ := by
  have hremoved : Text.size old - back - Text.byteLength a = Text.byteLength m := by
    rw [Text.size, hold, Text.byteLength_append, Text.byteLength_append]
    omega
  have hstop : Text.size new - back = Text.byteLength a + Text.byteLength m' := by
    rw [Text.size, hnew, Text.byteLength_append, Text.byteLength_append]
    omega
  rw [h.between_eq, hremoved, hstop, Text.slice_append hnew]

/-- The splice between two texts makes the second of the first. -/
theorem Splice.replaceAt?_between (old new : String) :
    Text.replaceAt? old (between old new).offset (between old new).removed
      (between old new).inserted = some new := by
  obtain ⟨front, back, h⟩ := exists_keeps old new
  obtain ⟨a, m, m', t, hold, hnew, rfl, ht⟩ := h.exists_parts
  rw [h.between_eq_of_parts hold hnew ht]
  refine Text.replaceAt?_eq_some_iff.2 ⟨a, m, t, hold, rfl, rfl, ?_⟩
  rw [String.toList_ofList, ← hnew, String.ofList_toList]

namespace EditRecord

/-- Both ends of the range of a record that can be replayed are boundaries. -/
theorem isBoundary_of_replay? {record : EditRecord} {text text' : String}
    (h : record.replay? text = some text') :
    Text.isBoundary text record.offset = true ∧
      Text.isBoundary text (record.offset + record.removed) = true := by
  obtain ⟨a, b, c, hs, ha, hb, _⟩ := Text.replaceAt?_eq_some_iff.1 h
  constructor
  · exact Text.isBoundary_iff.2 ⟨a, b ++ c, by simp [hs], ha⟩
  · exact Text.isBoundary_iff.2 ⟨a ++ b, c, hs, by simp [ha, hb]⟩

@[simp] theorem replayAll?_nil (text : String) : replayAll? [] text = some text := rfl

theorem replayAll?_append (first rest : List EditRecord) (text : String) :
    replayAll? (first ++ rest) text = (replayAll? first text).bind (replayAll? rest) := by
  simp only [replayAll?, List.foldlM_append]
  rfl

/-- Replaying goes on where the edits before have led to. -/
theorem replayAll?_append_of {first rest : List EditRecord} {text mid last : String}
    (h : replayAll? first text = some mid) (h' : replayAll? rest mid = some last) :
    replayAll? (first ++ rest) text = some last := by
  rw [replayAll?_append, h]
  exact h'

@[simp] theorem replayAll?_singleton (record : EditRecord) (text : String) :
    replayAll? [record] text = record.replay? text := by
  simp [replayAll?]

/-- Every record of a history that can be replayed is replayed on a text of its own, with its
range on boundaries. -/
theorem exists_replayAll?_of_split {first rest : List EditRecord} {record : EditRecord}
    {text last : String} (h : replayAll? (first ++ record :: rest) text = some last) :
    ∃ mid next, replayAll? first text = some mid ∧ record.replay? mid = some next ∧
      Text.isBoundary mid record.offset = true ∧
      Text.isBoundary mid (record.offset + record.removed) = true := by
  rw [replayAll?_append] at h
  obtain ⟨mid, hm, h⟩ := Option.bind_eq_some_iff.1 h
  rw [← List.singleton_append, replayAll?_append, replayAll?_singleton] at h
  obtain ⟨next, hn, _⟩ := Option.bind_eq_some_iff.1 h
  exact ⟨mid, next, hm, hn, isBoundary_of_replay? hn⟩

end EditRecord

end Codemod
