/-!
Byte offsets into text.

Positions are counted in UTF-8 bytes, while text is handled as a run of characters. `cut?` is the
one way from an offset to the characters on both of its sides, and every operation that names
offsets is built on it. `cut?_eq_some_iff` says which offsets it accepts: the byte lengths of the
leading parts of the text.
-/
namespace Codemod.Text

/-- The number of bytes a run of characters takes in UTF-8. -/
def byteLength : List Char → Nat
  | [] => 0
  | c :: cs => c.utf8Size + byteLength cs

@[simp] theorem byteLength_nil : byteLength [] = 0 := rfl

@[simp] theorem byteLength_cons (c : Char) (cs : List Char) :
    byteLength (c :: cs) = c.utf8Size + byteLength cs := rfl

@[simp] theorem byteLength_append (a b : List Char) :
    byteLength (a ++ b) = byteLength a + byteLength b := by
  induction a with
  | nil => simp
  | cons c a ih => simp [ih, Nat.add_assoc]

/-- Cuts a run of characters after `n` bytes. There is no cut past the end or inside a character. -/
def cut? : List Char → Nat → Option (List Char × List Char)
  | cs, 0 => some ([], cs)
  | [], _ + 1 => none
  | c :: cs, n + 1 =>
    if c.utf8Size ≤ n + 1 then
      (cut? cs (n + 1 - c.utf8Size)).map fun parts => (c :: parts.1, parts.2)
    else none

@[simp] theorem cut?_zero (cs : List Char) : cut? cs 0 = some ([], cs) := by
  cases cs <;> rfl

theorem cut?_append (a b : List Char) : cut? (a ++ b) (byteLength a) = some (a, b) := by
  induction a with
  | nil => simp
  | cons c a ih =>
    obtain ⟨n, hn⟩ : ∃ n, c.utf8Size = n + 1 := ⟨c.utf8Size - 1, by have := c.utf8Size_pos; omega⟩
    have hlen : byteLength (c :: a) = (n + byteLength a) + 1 := by simp [hn]; omega
    rw [List.cons_append, hlen, cut?, if_pos (by omega)]
    have hrest : n + byteLength a + 1 - c.utf8Size = byteLength a := by omega
    simp [hrest, ih]

theorem eq_append_of_cut? {cs : List Char} {n : Nat} {a b : List Char}
    (h : cut? cs n = some (a, b)) : cs = a ++ b ∧ byteLength a = n := by
  induction cs generalizing n a b with
  | nil =>
    cases n with
    | zero => simp at h; simp [h]
    | succ n => simp [cut?] at h
  | cons c cs ih =>
    cases n with
    | zero => simp at h; simp [h]
    | succ n =>
      rw [cut?] at h
      split at h
      · rename_i hc
        obtain ⟨⟨x, y⟩, hxy, heq⟩ := Option.map_eq_some_iff.1 h
        simp only [Prod.mk.injEq] at heq
        obtain ⟨rfl, rfl⟩ := heq
        have := ih hxy
        simp [this.1, this.2]; omega
      · simp at h

/-- An offset is accepted exactly when it is the byte length of a leading part. -/
theorem cut?_eq_some_iff {cs : List Char} {n : Nat} {a b : List Char} :
    cut? cs n = some (a, b) ↔ cs = a ++ b ∧ byteLength a = n := by
  constructor
  · exact eq_append_of_cut?
  · rintro ⟨rfl, rfl⟩
    exact cut?_append a b

theorem byteLength_eq_zero {cs : List Char} (h : byteLength cs = 0) : cs = [] := by
  cases cs with
  | nil => rfl
  | cons c cs =>
    have := c.utf8Size_pos
    simp only [byteLength_cons] at h
    omega

/-- Of two leading parts of a text, the longer one begins with the shorter one. -/
theorem exists_append_of_byteLength_le {a b r s : List Char} (h : a ++ r = b ++ s)
    (hle : byteLength a ≤ byteLength b) : ∃ d, b = a ++ d ∧ r = d ++ s := by
  rcases List.append_eq_append_iff.1 h with ⟨d, hb, hr⟩ | ⟨d, ha, hs⟩
  · exact ⟨d, hb, hr⟩
  · have hd : d = [] := by
      apply byteLength_eq_zero
      rw [ha, byteLength_append] at hle
      omega
    subst hd
    exact ⟨[], by simpa using ha.symm, by simpa using hs.symm⟩

def size (s : String) : Nat := byteLength s.toList

/-- The offset is inside the text or at its end, and not inside a character. -/
def isBoundary (s : String) (offset : Nat) : Bool := (cut? s.toList offset).isSome

theorem isBoundary_iff {s : String} {offset : Nat} :
    isBoundary s offset = true ↔ ∃ a b, s.toList = a ++ b ∧ byteLength a = offset := by
  rw [isBoundary, Option.isSome_iff_exists]
  constructor
  · rintro ⟨⟨a, b⟩, h⟩
    exact ⟨a, b, cut?_eq_some_iff.1 h⟩
  · rintro ⟨a, b, h⟩
    exact ⟨(a, b), cut?_eq_some_iff.2 h⟩

@[simp] theorem isBoundary_zero (s : String) : isBoundary s 0 = true :=
  isBoundary_iff.2 ⟨[], s.toList, rfl, rfl⟩

@[simp] theorem isBoundary_size (s : String) : isBoundary s (size s) = true :=
  isBoundary_iff.2 ⟨s.toList, [], by simp, rfl⟩

theorem le_size_of_isBoundary {s : String} {offset : Nat} (h : isBoundary s offset = true) :
    offset ≤ size s := by
  obtain ⟨a, b, hs, rfl⟩ := isBoundary_iff.1 h
  rw [size, hs, byteLength_append]
  omega

/-- The parts of a text in front of a slice, in it and behind it. -/
theorem exists_parts {s : String} {start stop : Nat} (hs : isBoundary s start = true)
    (ht : isBoundary s stop = true) (hle : start ≤ stop) :
    ∃ a b c, s.toList = a ++ b ++ c ∧ byteLength a = start ∧ byteLength a + byteLength b = stop := by
  obtain ⟨a, r, ha, hstart⟩ := isBoundary_iff.1 hs
  obtain ⟨x, c, hx, hstop⟩ := isBoundary_iff.1 ht
  obtain ⟨b, rfl, -⟩ := exists_append_of_byteLength_le (ha.symm.trans hx) (by omega)
  exact ⟨a, b, c, hx, hstart, by simpa using hstop⟩

/-- The text before an offset, all of it where the offset is no boundary. -/
def before (s : String) (offset : Nat) : String :=
  match cut? s.toList offset with
  | some (front, _) => String.ofList front
  | none => s

/-- The text from an offset on, nothing where the offset is no boundary. -/
def after (s : String) (offset : Nat) : String :=
  match cut? s.toList offset with
  | some (_, back) => String.ofList back
  | none => ""

def slice (s : String) (start stop : Nat) : String :=
  before (after s start) (stop - start)

theorem slice_append {s : String} {a b c : List Char} (h : s.toList = a ++ b ++ c) :
    slice s (byteLength a) (byteLength a + byteLength b) = String.ofList b := by
  have hafter : cut? s.toList (byteLength a) = some (a, b ++ c) := by
    rw [h, List.append_assoc]
    exact cut?_append a (b ++ c)
  have hsub : byteLength a + byteLength b - byteLength a = byteLength b := by omega
  simp [slice, after, before, hafter, hsub, cut?_append]

/-- The text between two offsets, if both are boundaries and in this order. -/
def slice? (s : String) (start stop : Nat) : Option String :=
  if isBoundary s start && isBoundary s stop && start ≤ stop then some (slice s start stop)
  else none

def insertAt? (s : String) (offset : Nat) (piece : String) : Option String :=
  (cut? s.toList offset).map fun parts =>
    String.ofList (parts.1 ++ piece.toList ++ parts.2)

/-- Replaces `removed` bytes at a boundary by `piece`. -/
def replaceAt? (s : String) (offset removed : Nat) (piece : String) : Option String :=
  match cut? s.toList offset with
  | none => none
  | some (front, rest) =>
    (cut? rest removed).map fun parts =>
      String.ofList (front ++ piece.toList ++ parts.2)

end Codemod.Text
