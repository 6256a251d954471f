import Codemod.Proofs.TreeGrowth

/-!
The texts of nodes after an insertion.

A slice between two boundaries is the middle of three parts of the text. An insertion in front of
the slice or behind it leaves the slice alone, and one inside of it only adds to it.
-/
namespace Codemod

namespace Text

/-- A slice inside of a part of a text is a part of that part. -/
theorem slice_infix {s : String} {a b c : List Char} (h : s.toList = a ++ b ++ c) {start stop : Nat}
    (hs : isBoundary s start = true) (ht : isBoundary s stop = true) (hle : start ≤ stop)
    (hstart : byteLength a ≤ start) (hstop : stop ≤ byteLength a + byteLength b) :
    (slice s start stop).toList <:+: b := by
  obtain ⟨a', b', c', hp, rfl, rfl⟩ := exists_parts hs ht hle
  obtain ⟨d, rfl, hr⟩ := exists_append_of_byteLength_le (a := a) (b := a') (r := b ++ c)
    (s := b' ++ c') (by rw [← List.append_assoc, ← List.append_assoc, ← h, hp]) hstart
  rw [byteLength_append] at hstop
  obtain ⟨e, rfl, -⟩ := exists_append_of_byteLength_le (a := d ++ b') (b := b) (r := c') (s := c)
    (by rw [List.append_assoc, ← hr]) (by simp; omega)
  rw [slice_append hp, String.toList_ofList]
  exact ⟨d, e, rfl⟩

end Text

namespace Source.Node

open Text (byteLength isBoundary)

variable {source source' piece : String} {offset : Nat} {node : Node} {new : List Node}

/-- A node that a place is not inside of keeps its text when a piece is put there. -/
theorem text_grow_of_not_around (h : node.Fits source) (ha : node.around offset = false)
    (hi : Text.insertAt? source offset piece = some source') :
    (grow offset (Text.size piece) new node).text source' = node.text source := by
  obtain ⟨x, y, hs, hx, rfl⟩ := Text.insertAt?_eq_some_iff.1 hi
  obtain ⟨a, b, c, hp, hstart, hstop⟩ :=
    Text.exists_parts h.start h.stop (Nat.le_of_lt h.nonempty)
  have hold : node.text source = String.ofList b := by
    rw [text, ← hstart, ← hstop]
    exact Text.slice_append hp
  rw [hold]
  rcases grow_of_not_around (Text.size piece) new h ha with ⟨hle, hg⟩ | ⟨hge, hg⟩
  · obtain ⟨d, rfl, -⟩ := Text.exists_append_of_byteLength_le (a := a ++ b) (b := x)
      (hp.symm.trans hs) (by simp; omega)
    rw [hg, text, ← hstart, ← hstop]
    apply Text.slice_append (c := d ++ piece.toList ++ y)
    simp
  · obtain ⟨d, rfl, hy⟩ := Text.exists_append_of_byteLength_le (a := x) (b := a) (r := y)
      (s := b ++ c) (by rw [← hs, hp, List.append_assoc]) (by omega)
    have hfront : byteLength (x ++ piece.toList ++ d) = (grow offset (Text.size piece) new
        node).start := by
      rw [hg, shift_start, ← hstart]
      simp [Text.size]
      omega
    have hback : byteLength (x ++ piece.toList ++ d) + byteLength b = (grow offset
        (Text.size piece) new node).stop := by
      rw [hg, shift_stop, ← hstop]
      simp [Text.size]
      omega
    rw [text, ← hfront, ← hback]
    apply Text.slice_append (c := c)
    simp [hy]

/-- The parts of a text in front of a node around a place, in it on both sides of the place, and
behind it. The piece that is put there comes between the two parts of the node. -/
theorem exists_text_grow (new : List Node) (h : node.Fits source) (ha : node.around offset = true)
    (hi : Text.insertAt? source offset piece = some source') :
    ∃ lead front back tail, source.toList = lead ++ front ++ back ++ tail ∧
      byteLength lead = node.start ∧ byteLength (lead ++ front) = offset ∧
      byteLength (lead ++ front ++ back) = node.stop ∧
      node.text source = String.ofList (front ++ back) ∧
      (grow offset (Text.size piece) new node).text source' =
        String.ofList (front ++ piece.toList ++ back) := by
  obtain ⟨x, y, hs, hx, rfl⟩ := Text.insertAt?_eq_some_iff.1 hi
  obtain ⟨a, b, z, hp, hstart, hstop⟩ :=
    Text.exists_parts h.start h.stop (Nat.le_of_lt h.nonempty)
  have hplace := around_iff.1 ha
  obtain ⟨d, rfl, hr⟩ := Text.exists_append_of_byteLength_le (a := a) (b := x) (r := b ++ z)
    (s := y) (by rw [← hs, hp, List.append_assoc]) (by omega)
  rw [Text.byteLength_append] at hx
  obtain ⟨e, rfl, rfl⟩ := Text.exists_append_of_byteLength_le (a := d) (b := b) (r := y)
    (s := z) hr.symm (by omega)
  refine ⟨a, d, e, z, by simpa using hp, hstart, by simpa using hx, ?_, ?_, ?_⟩
  · rw [← hstop]
    simp
  · rw [text, ← hstart, ← hstop]
    exact Text.slice_append hp
  · have hsize : node.stop + Text.size piece =
        byteLength a + byteLength (d ++ piece.toList ++ e) := by
      rw [← hstop]
      simp [Text.size]
      omega
    rw [grow_of_around ha, text, ← hstart]
    simp only [hsize]
    apply Text.slice_append (c := z)
    simp

/-- A node around a place keeps every character of its text. -/
theorem mem_text_grow (h : node.Fits source) (ha : node.around offset = true)
    (hi : Text.insertAt? source offset piece = some source') {c : Char}
    (hc : c ∈ (node.text source).toList) :
    c ∈ ((grow offset (Text.size piece) new node).text source').toList := by
  obtain ⟨lead, front, back, tail, -, -, -, -, hold, hnew⟩ :=
    exists_text_grow new h ha hi
  rw [hold, String.toList_ofList, List.mem_append] at hc
  rw [hnew, String.toList_ofList]
  simp only [List.mem_append]
  rcases hc with hc | hc
  · exact .inl (.inl hc)
  · exact .inr hc

/-- A node inside another one has its text inside the other's text. -/
theorem mem_text_of_inside {inner : Node} (h : node.Laid source) (hi : inner ∈ node.preorder)
    {c : Char} (hc : c ∈ (inner.text source).toList) : c ∈ (node.text source).toList := by
  have hin := h.inside hi
  have hinner := h inner hi
  obtain ⟨a, b, z, hp, hstart, hstop⟩ :=
    Text.exists_parts h.fits.start h.fits.stop (Nat.le_of_lt h.fits.nonempty)
  have hinfix := Text.slice_infix hp hinner.start hinner.stop (Nat.le_of_lt hinner.nonempty)
    (by omega) (by omega)
  rw [text, ← hstart, ← hstop, Text.slice_append hp, String.toList_ofList]
  exact hinfix.subset hc

/-- What is inside a node around a place, and not around it itself, has its text in one of the two
parts of the node. -/
theorem exists_text_grow_infix (new : List Node) (h : node.Laid source)
    (ha : node.around offset = true)
    (hi : Text.insertAt? source offset piece = some source') {inner : Node}
    (hin : inner ∈ node.preorder) (hout : inner.around offset = false) :
    ∃ front back, node.text source = String.ofList (front ++ back) ∧
      (grow offset (Text.size piece) new node).text source' =
        String.ofList (front ++ piece.toList ++ back) ∧
      ((inner.text source).toList <:+: front ∨ (inner.text source).toList <:+: back) := by
  obtain ⟨lead, front, back, tail, hs, hlead, hfront, hback, hold, hnew⟩ :=
    exists_text_grow new h.fits ha hi
  have hinside := h.inside hin
  have hfits := h inner hin
  have hle := Nat.le_of_lt hfits.nonempty
  simp only [Text.byteLength_append] at hfront hback
  refine ⟨front, back, hold, hnew, ?_⟩
  rcases around_eq_false_iff.1 hout with hge | hge
  · refine .inr (Text.slice_infix (a := lead ++ front) (c := tail) hs hfits.start hfits.stop hle ?_ ?_)
    · simp only [Text.byteLength_append]
      omega
    · simp only [Text.byteLength_append]
      omega
  · refine .inl (Text.slice_infix (a := lead) (c := back ++ tail) ?_ hfits.start hfits.stop hle ?_ ?_)
    · rw [hs, List.append_assoc]
    · omega
    · omega

end Source.Node

end Codemod
