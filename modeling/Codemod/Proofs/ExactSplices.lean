import Codemod.Proofs.Splices
import Codemod.Staging.Tree

/-!
Splices are as short as can be.

What a splice keeps at the front is the longest leading part that both texts have in common and that
ends between two characters of both. What it keeps at the end is the longest such part of the rest,
so that the two never overlap, neither in the text before nor in the one after. Characters that
share some of their bytes are kept or replaced as a whole.
-/
namespace Codemod

open Text (bytes isBoundary size)

/-- The length of a part that two texts have in common at the front, with whole characters. -/
structure SharesFront (old new : String) (n : Nat) : Prop where
  inOld : isBoundary old n = true
  inNew : isBoundary new n = true
  same : (bytes old.toList).take n = (bytes new.toList).take n

/-- The length of a part that two texts have in common at the end, with whole characters. -/
structure SharesBack (old new : String) (n : Nat) : Prop where
  old_le : n ≤ size old
  new_le : n ≤ size new
  inOld : isBoundary old (size old - n) = true
  inNew : isBoundary new (size new - n) = true
  same : (bytes old.toList).drop (size old - n) = (bytes new.toList).drop (size new - n)

namespace Splice

def record (s : Splice) (rationale : String) : EditRecord :=
  ⟨s.offset, s.removed, s.inserted, rationale⟩

/-- The number of bytes that a splice leaves at the end of a text. -/
def kept (s : Splice) (old : String) : Nat := size old - (s.offset + s.removed)

/-- A splice that makes one text of another and replaces no more than it has to. -/
structure IsExact (s : Splice) (old new : String) : Prop where
  start : isBoundary old s.offset = true
  stop : isBoundary old (s.offset + s.removed) = true
  rebuilds : Text.before old s.offset ++ s.inserted ++ Text.after old (s.offset + s.removed) = new
  front : SharesFront old new s.offset
  front_longest : ∀ n, SharesFront old new n → n ≤ s.offset
  back : SharesBack old new (s.kept old)
  apart : s.offset + s.kept old ≤ size old ∧ s.offset + s.kept old ≤ size new
  back_longest : ∀ n, SharesBack old new n → s.offset + n ≤ size old → s.offset + n ≤ size new →
    n ≤ s.kept old

variable {old new : String} {front back : Nat}

theorem Keeps.sharesFront (h : Keeps old new front back) : SharesFront old new front := by
  obtain ⟨hle, haccepts, -⟩ := downTo?_spec h.atFront
  obtain ⟨hold, hnew⟩ := fromStart?_eq_true_iff.1 haccepts
  exact ⟨hold, hnew, (Diff.le_commonFront_iff.1 hle).2.2⟩

/-- A longer part would have been accepted on the way down. -/
theorem Keeps.front_longest (h : Keeps old new front back) {n : Nat}
    (hn : SharesFront old new n) : n ≤ front := by
  obtain ⟨-, -, hrefused⟩ := downTo?_spec h.atFront
  have holdle := Text.le_size_of_isBoundary hn.inOld
  have hnewle := Text.le_size_of_isBoundary hn.inNew
  have hcommon : n ≤ Diff.commonFront (bytes old.toList) (bytes new.toList) := by
    rw [Diff.le_commonFront_iff, Text.length_bytes, Text.length_bytes]
    exact ⟨holdle, hnewle, hn.same⟩
  have haccepts : fromStart? old new n = some true := fromStart?_eq_true_iff.2 ⟨hn.inOld, hn.inNew⟩
  by_cases hlt : front < n
  · rw [hrefused n hlt hcommon] at haccepts
    cases haccepts
  · omega

theorem Keeps.sharesBack (h : Keeps old new front back) : SharesBack old new back := by
  obtain ⟨hle, haccepts, -⟩ := downTo?_spec h.atBack
  obtain ⟨holdle, hnewle, hold, hnew⟩ := fromEnd?_eq_true_iff.1 haccepts
  obtain ⟨-, -, hsame⟩ := Diff.le_commonBack_iff.1 (Nat.le_trans hle (Nat.min_le_right ..))
  rw [Text.length_bytes, Text.length_bytes] at hsame
  exact ⟨holdle, hnewle, hold, hnew, hsame⟩

/-- A longer part that fits behind what is kept at the front would have been accepted. -/
theorem Keeps.back_longest (h : Keeps old new front back) {n : Nat} (hn : SharesBack old new n)
    (hold : front + n ≤ size old) (hnew : front + n ≤ size new) : n ≤ back := by
  obtain ⟨-, -, hrefused⟩ := downTo?_spec h.atBack
  have hcommon : n ≤ Diff.commonBack (bytes old.toList) (bytes new.toList) := by
    rw [Diff.le_commonBack_iff, Text.length_bytes, Text.length_bytes]
    exact ⟨hn.old_le, hn.new_le, hn.same⟩
  have haccepts : fromEnd? old new n = some true :=
    fromEnd?_eq_true_iff.2 ⟨hn.old_le, hn.new_le, hn.inOld, hn.inNew⟩
  by_cases hlt : back < n
  · rw [hrefused n hlt (by omega)] at haccepts
    cases haccepts
  · omega

/-- The parts around a splice and the text put between them make up the text after it. -/
theorem rebuilds_of_parts {a m m' t : List Char} (hold : old.toList = a ++ m ++ t)
    (hnew : new.toList = a ++ m' ++ t) :
    Text.before old (Text.byteLength a) ++ String.ofList m' ++
      Text.after old (Text.byteLength a + Text.byteLength m) = new := by
  have hbefore : Text.cut? old.toList (Text.byteLength a) = some (a, m ++ t) :=
    Text.cut?_eq_some_iff.2 ⟨by rw [hold, List.append_assoc], rfl⟩
  have hafter : Text.cut? old.toList (Text.byteLength a + Text.byteLength m) = some (a ++ m, t) :=
    Text.cut?_eq_some_iff.2 ⟨hold, Text.byteLength_append a m⟩
  rw [Text.before, Text.after, hbefore, hafter, ← String.toList_inj, hnew]
  simp

theorem Keeps.isExact (h : Keeps old new front back) : (between old new).IsExact old new := by
  obtain ⟨a, m, m', t, hold, hnew, rfl, rfl⟩ := h.exists_parts
  have hsize : size old = Text.byteLength a + Text.byteLength m + Text.byteLength t := by
    rw [size, hold, Text.byteLength_append, Text.byteLength_append]
  have hsize' : size new = Text.byteLength a + Text.byteLength m' + Text.byteLength t := by
    rw [size, hnew, Text.byteLength_append, Text.byteLength_append]
  have hsplice := h.between_eq_of_parts hold hnew rfl
  have hkept : (between old new).kept old = Text.byteLength t := by
    rw [kept, hsplice, hsize]
    exact Nat.add_sub_cancel_left ..
  have hstop : size old - Text.byteLength t = Text.byteLength a + Text.byteLength m := by omega
  constructor
  · rw [hsplice]
    exact h.fits.old_start
  · rw [hsplice, ← hstop]
    exact h.fits.old_stop
  · rw [hsplice]
    exact rebuilds_of_parts hold hnew
  · rw [hsplice]
    exact h.sharesFront
  · intro n hn
    rw [hsplice]
    exact h.front_longest hn
  · rw [hkept]
    exact h.sharesBack
  · rw [hkept, hsplice, hsize, hsize']
    exact ⟨by simp only; omega, by simp only; omega⟩
  · intro n hn hno hnn
    rw [hkept]
    rw [hsplice] at hno hnn
    exact h.back_longest hn hno hnn

/-- Between any two texts there is an exact splice, and it is what a buffer records when one of the
texts takes the place of the other. -/
theorem exact_between? (old new : String) : ∃ s, between? old new = some s ∧ s.IsExact old new ∧
    ∀ (buffer : Buffer) (rationale : String), buffer.text = old → new ≠ old →
      buffer.replaceAll new rationale =
        { buffer with text := new, edits := buffer.edits ++ [s.record rationale] } := by
  obtain ⟨front, back, h⟩ := exists_keeps old new
  refine ⟨between old new, between?_eq_some_between old new, h.isExact, ?_⟩
  rintro buffer rationale rfl hne
  exact if_neg hne

/-- Two letters with the same first byte are replaced as a whole, and of three equal letters two
are kept at the front. -/
example : between "né" "nè" = ⟨1, 2, "è"⟩ ∧ between "aa" "aaa" = ⟨2, 0, "a"⟩ := by
  decide +kernel

end Splice

end Codemod
