import Codemod.Proofs.JsonNumbers

/-!
Reading any layout of a JSON value.

A text spells a value when it is made from its parts with blanks between them as one likes. Both
ways of writing a value spell it, and a text that spells a value is read as that value. Only numbers
that are read back are spelled here.
-/
namespace Codemod.Json

/-- A word is read to its end. -/
theorem readIdent_append {α : Type} (value : α) {word rest : List Char} {p : Cursor}
    (hp : p.rest = word ++ rest) :
    ∃ q, readIdent value word p = .ok (value, q) ∧ q.rest = rest := by
  induction word generalizing p with
  | nil => exact ⟨p, rfl, hp⟩
  | cons c cs ih =>
    have hp : p.rest = c :: (cs ++ rest) := hp
    obtain ⟨q, hq, hrest⟩ := ih (Cursor.next_rest hp)
    refine ⟨q, ?_, hrest⟩
    rw [readIdent, hp]
    simp only [if_true, hq]

theorem readUnicode_control {p : Cursor} {c : Char} {cs : List Char} (hc : c.toNat < 0x20)
    (hp : p.rest = '0' :: '0' :: hexDigit (c.toNat / 16) :: hexDigit (c.toNat % 16) :: cs) :
    readUnicode p = .ok (c, p.nextN 4) := by
  have hhigh := hexValue?_hexDigit (c.toNat / 16) (by omega)
  have hlow := hexValue?_hexDigit (c.toNat % 16) (by omega)
  have hzero : hexValue? '0' = some 0 := by decide
  have hvalue : hexValue4? p.rest = some c.toNat := by
    simp only [hp, hexValue4?, hhigh, hlow, hzero, bind, Option.bind, pure]
    congr 1
    omega
  have hlong : ¬ Text.byteLength p.rest < 4 := by
    have hsize : ∀ d : Char, 0 < d.utf8Size := Char.utf8Size_pos
    have h1 := hsize (hexDigit (c.toNat / 16))
    have h2 := hsize (hexDigit (c.toNat % 16))
    have h0 : '0'.utf8Size = 1 := rfl
    simp only [hp, Text.byteLength_cons]
    omega
  have hplain : ¬ (0xDC00 ≤ c.toNat ∧ c.toNat ≤ 0xDFFF) := by omega
  have hsmall : c.toNat < 0xD800 := by omega
  have hhex : readHex p = .ok (c.toNat, p.nextN 4) := by rw [readHex, if_neg hlong, hvalue]
  rw [readUnicode, hhex]
  simp only [bind, Except.bind, Bool.and_eq_true, decide_eq_true_eq, hplain, if_false,
    Bool.or_eq_true, hsmall, true_or, if_true, pure, Except.pure, Char.ofNat_toNat]

/-- A string that was written is read to its closing quote. -/
theorem readString_append {fuel : Nat} {s rest : List Char} {p : Cursor}
    (hf : s.length < fuel) (done : List Char)
    (hp : p.rest = s.flatMap escapeChar ++ '\x22' :: rest) :
    ∃ q, readString fuel done p = .ok (String.ofList (done.reverse ++ s), q) ∧ q.rest = rest := by
  induction s generalizing fuel done p with
  | nil =>
    obtain ⟨fuel, rfl⟩ : ∃ n, fuel = n + 1 := ⟨fuel - 1, by simp at hf; omega⟩
    have hp : p.rest = '\x22' :: rest := hp
    refine ⟨p.next, ?_, Cursor.next_rest hp⟩
    rw [readString, hp, List.append_nil]
    rfl
  | cons c s ih =>
    rw [List.length_cons] at hf
    obtain ⟨fuel, rfl⟩ : ∃ n, fuel = n + 1 := ⟨fuel - 1, by omega⟩
    rw [List.flatMap_cons, List.append_assoc] at hp
    have hmore : ∀ {r : Cursor}, r.rest = s.flatMap escapeChar ++ '\x22' :: rest →
        ∃ q, readString fuel (c :: done) r = .ok (String.ofList (done.reverse ++ c :: s), q) ∧
          q.rest = rest := by
      intro r hr
      obtain ⟨q, hq, hrest⟩ := ih (Nat.lt_of_succ_lt_succ hf) (c :: done) hr
      exact ⟨q, by simpa using hq, hrest⟩
    rcases escapeChar_cases c with ⟨e, he, hu, hc⟩ | ⟨hcontrol, he⟩ | ⟨he, hquote, hslash, hplain⟩
    · rw [he] at hp
      have hnext : (p.nextN 2).rest = s.flatMap escapeChar ++ '\x22' :: rest := by simp [hp]
      obtain ⟨q, hq, hrest⟩ := hmore hnext
      refine ⟨q, ?_, hrest⟩
      rw [readString, hp]
      simp only [List.cons_append, List.nil_append, hc, hq]
    · rw [he] at hp
      have hnext : (p.nextN 2).rest = '0' :: '0' :: hexDigit (c.toNat / 16) ::
          hexDigit (c.toNat % 16) :: (s.flatMap escapeChar ++ '\x22' :: rest) := by simp [hp]
      have hfour : ((p.nextN 2).nextN 4).rest = s.flatMap escapeChar ++ '\x22' :: rest := by
        rw [Cursor.nextN_rest, hnext]
        rfl
      obtain ⟨q, hq, hrest⟩ := hmore hfour
      refine ⟨q, ?_, hrest⟩
      rw [readString, hp]
      simp only [List.cons_append, List.nil_append, readUnicode_control hcontrol hnext, bind,
        Except.bind, hq]
    · rw [he, List.singleton_append] at hp
      obtain ⟨q, hq, hrest⟩ := hmore (Cursor.next_rest hp)
      refine ⟨q, ?_, hrest⟩
      rw [readString, hp]
      simp [hplain, hq]

/-- There is more of a text than of the string that it begins with. -/
theorem length_lt_of_quoted {cs s rest : List Char}
    (h : cs = '\x22' :: (s.flatMap escapeChar ++ '\x22' :: rest)) : s.length < cs.length := by
  have hescape : s.length ≤ (s.flatMap escapeChar).length := by
    clear h
    induction s with
    | nil => exact Nat.le_refl _
    | cons c s ih =>
      have hone : 0 < (escapeChar c).length := by
        rcases escapeChar_cases c with ⟨e, he, -⟩ | ⟨-, he⟩ | ⟨he, -⟩ <;> simp [he]
      rw [List.flatMap_cons, List.length_append, List.length_cons]
      omega
  rw [h, List.length_cons, List.length_append]
  omega

def Blank (cs : List Char) : Prop := ∀ c ∈ cs, Cursor.isBlank c = true

/-- A value with its text and the blanks around it. -/
structure Piece where
  before : List Char
  value : Json
  text : List Char
  after : List Char

namespace Piece

def chars (piece : Piece) : List Char := piece.before ++ piece.text ++ piece.after

structure Spaced (piece : Piece) : Prop where
  before : Blank piece.before
  after : Blank piece.after

end Piece

/-- A member of an object: its name with the blanks around it, and its value as a piece. -/
structure MemberPiece where
  before : List Char
  name : String
  gap : List Char
  piece : Piece

namespace MemberPiece

def member (m : MemberPiece) : String × Json := (m.name, m.piece.value)

def chars (m : MemberPiece) : List Char := m.before ++ quote m.name ++ m.gap ++ ':' :: m.piece.chars

structure Spaced (m : MemberPiece) : Prop where
  before : Blank m.before
  gap : Blank m.gap
  piece : m.piece.Spaced

end MemberPiece

/-- What is written behind a part of a list: the others, a comma before each, and the closing
mark. -/
def behind (close : Char) : List (List Char) → List Char
  | [] => [close]
  | part :: rest => ',' :: (part ++ behind close rest)

/-- What is written behind the opening mark of a list. -/
def inside (close : Char) : List (List Char) → List Char
  | [] => [close]
  | part :: rest => part ++ behind close rest

/-- A text spells a value that nests at most so deep. -/
inductive Spells : Nat → Json → List Char → Prop where
  | null {n : Nat} : Spells n null (scalar null)
  | bool {n : Nat} (b : Bool) : Spells n (bool b) (scalar (bool b))
  | number {n : Nat} {x : JsonNumber} (hx : x.ReadsBack) :
      Spells n (.number x) (scalar (.number x))
  | string {n : Nat} (s : String) : Spells n (string s) (scalar (string s))
  | array {n : Nat} {gap : List Char} {pieces : List Piece} (hgap : Blank gap)
      (hspaced : ∀ piece ∈ pieces, piece.Spaced)
      (hpieces : ∀ piece ∈ pieces, Spells n piece.value piece.text) :
      Spells (n + 1) (array (pieces.map Piece.value))
        ('[' :: (gap ++ inside ']' (pieces.map Piece.chars)))
  | object {n : Nat} {gap : List Char} {members : List MemberPiece} (hgap : Blank gap)
      (hnames : (members.map MemberPiece.name).Nodup) (hspaced : ∀ m ∈ members, m.Spaced)
      (hmembers : ∀ m ∈ members, Spells n m.piece.value m.piece.text) :
      Spells (n + 1) (object (members.map MemberPiece.member))
        ('\x7b' :: (gap ++ inside '\x7d' (members.map MemberPiece.chars)))

/-- A text is read as a value wherever it stands, if the fuel does. -/
def ReadsBack (n : Nat) (value : Json) (text : List Char) : Prop :=
  ∀ {fuel : Nat} {p : Cursor} {blanks rest : List Char}, 2 * text.length ≤ fuel →
    p.rest = blanks ++ (text ++ rest) → Blank blanks → Closes rest →
    ∃ q, readGoal fuel n .value p = .ok (value, q) ∧ q.rest = rest

/-- The text of a value begins with neither a blank nor a closing mark. -/
theorem Spells.exists_head {n : Nat} {value : Json} {text : List Char} (h : Spells n value text) :
    ∃ c cs, text = c :: cs ∧ Cursor.isBlank c = false ∧ c ≠ ']' := by
  cases h with
  | null => exact ⟨_, _, rfl, by decide, by decide⟩
  | bool b => cases b <;> exact ⟨_, _, rfl, by decide, by decide⟩
  | string s => exact ⟨_, _, rfl, by decide, by decide⟩
  | array => exact ⟨_, _, rfl, by decide, by decide⟩
  | object => exact ⟨_, _, rfl, by decide, by decide⟩
  | @number n x => exact prettyChars_head [] 0 (.number x)

theorem length_behind (close : Char) (parts : List (List Char)) :
    0 < (behind close parts).length := by
  cases parts <;> simp [behind]

theorem closes_behind {close : Char} (hclose : close = ']' ∨ close = '\x7d') {blanks : List Char}
    (hb : Blank blanks) (parts : List (List Char)) (rest : List Char) :
    Closes (blanks ++ (behind close parts ++ rest)) := by
  intro c cs h
  rw [List.dropWhile_append_of_pos hb] at h
  cases parts with
  | nil =>
    have hstop : ¬ Cursor.isBlank close = true := by rcases hclose with rfl | rfl <;> decide
    rw [behind, List.singleton_append, List.dropWhile_cons_of_neg hstop] at h
    obtain ⟨rfl, -⟩ := List.cons.inj h
    exact .inr hclose
  | cons part parts =>
    rw [behind, List.cons_append, List.dropWhile_cons_of_neg (by decide)] at h
    exact .inl (List.cons.inj h).1.symm

/-- Behind blanks the text of a value is found. -/
theorem Spells.skip_rest {n : Nat} {value : Json} {text blanks rest : List Char} {p : Cursor}
    (h : Spells n value text) (hb : Blank blanks) (hp : p.rest = blanks ++ (text ++ rest)) :
    p.skip.rest = text ++ rest := by
  obtain ⟨c, cs, rfl, hc, -⟩ := h.exists_head
  exact Cursor.skip_rest_append hp hb hc

/-- An item is read, and then what comes behind it. -/
theorem readItem_append {n fuel : Nat} {piece : Piece} {done : List Json} {json : Json}
    {p : Cursor} {more rest : List Char} (hv : ReadsBack n piece.value piece.text)
    (hf : 2 * piece.text.length ≤ fuel) (hp : p.rest = piece.text ++ more) (hc : Closes more)
    (hmore : ∀ {q : Cursor}, q.rest = more →
      ∃ r, readGoal fuel n (.items false (piece.value :: done)) q = .ok (json, r) ∧ r.rest = rest) :
    ∃ q, readItem fuel n done p = .ok (json, q) ∧ q.rest = rest := by
  obtain ⟨q, hq, hqrest⟩ := hv hf (hp.trans (List.nil_append _).symm) (by simp [Blank]) hc
  obtain ⟨r, hr, hrrest⟩ := hmore hqrest
  exact ⟨r, by simp only [readItem, hq, bind, Except.bind, hr], hrrest⟩

section items

variable {n : Nat} {rest : List Char}

theorem readItems_behind {pieces : List Piece} {fuel : Nat} (done : List Json) {p : Cursor}
    {blanks : List Char} (hb : Blank blanks) (hspaced : ∀ piece ∈ pieces, piece.Spaced)
    (hpieces : ∀ piece ∈ pieces, Spells n piece.value piece.text)
    (hreads : ∀ piece ∈ pieces, ReadsBack n piece.value piece.text)
    (hf : 2 * (behind ']' (pieces.map Piece.chars)).length ≤ fuel)
    (hp : p.rest = blanks ++ (behind ']' (pieces.map Piece.chars) ++ rest)) :
    ∃ q, readGoal fuel n (.items false done) p =
      .ok (array (done.reverse ++ pieces.map Piece.value), q) ∧ q.rest = rest := by
  induction pieces generalizing fuel done p blanks with
  | nil =>
    obtain ⟨fuel, rfl⟩ : ∃ m, fuel = m + 1 := ⟨fuel - 1, by simp [behind] at hf; omega⟩
    have hs : p.skip.rest = ']' :: rest := Cursor.skip_rest_append hp hb (by decide)
    refine ⟨p.skip.next, ?_, Cursor.next_rest hs⟩
    rw [readGoal_items_close hs, List.map_nil, List.append_nil]
  | cons piece pieces ih =>
    obtain ⟨hspace, hspaced⟩ := List.forall_mem_cons.1 hspaced
    obtain ⟨hpiece, hpieces⟩ := List.forall_mem_cons.1 hpieces
    obtain ⟨hread, hreads⟩ := List.forall_mem_cons.1 hreads
    simp only [List.map_cons, behind, Piece.chars, List.length_cons, List.length_append] at hf
    obtain ⟨fuel, rfl⟩ : ∃ m, fuel = m + 1 := ⟨fuel - 1, by omega⟩
    have hs : p.skip.rest = ',' :: (piece.before ++ (piece.text ++ (piece.after ++
        (behind ']' (pieces.map Piece.chars) ++ rest)))) := by
      refine Cursor.skip_rest_append (hp.trans ?_) hb (by decide)
      simp [behind, Piece.chars]
    have hs' := hpiece.skip_rest hspace.before (Cursor.next_rest hs)
    have hitem : ∃ q, readItem fuel n done p.skip.next.skip =
        .ok (array (done.reverse ++ (piece :: pieces).map Piece.value), q) ∧ q.rest = rest := by
      refine readItem_append hread (by omega) hs' (closes_behind (.inl rfl) hspace.after _ _) ?_
      intro q hq
      have hmore : 2 * (behind ']' (pieces.map Piece.chars)).length ≤ fuel := by omega
      obtain ⟨r, hr, hrest⟩ := ih (piece.value :: done) hspace.after hspaced hpieces hreads hmore hq
      exact ⟨r, by simpa using hr, hrest⟩
    obtain ⟨c, cs, hhead, -, hclose⟩ := hpiece.exists_head
    rw [hhead, List.cons_append] at hs'
    rwa [readGoal_items_next hs hs' hclose]

theorem readItems_inside {pieces : List Piece} {fuel : Nat} {p : Cursor} {gap : List Char}
    (hgap : Blank gap) (hspaced : ∀ piece ∈ pieces, piece.Spaced)
    (hpieces : ∀ piece ∈ pieces, Spells n piece.value piece.text)
    (hreads : ∀ piece ∈ pieces, ReadsBack n piece.value piece.text)
    (hf : 2 * (inside ']' (pieces.map Piece.chars)).length ≤ fuel)
    (hp : p.rest = gap ++ (inside ']' (pieces.map Piece.chars) ++ rest)) :
    ∃ q, readGoal fuel n (.items true []) p = .ok (array (pieces.map Piece.value), q) ∧
      q.rest = rest := by
  cases pieces with
  | nil =>
    obtain ⟨fuel, rfl⟩ : ∃ m, fuel = m + 1 := ⟨fuel - 1, by simp [inside] at hf; omega⟩
    have hs : p.skip.rest = ']' :: rest := Cursor.skip_rest_append hp hgap (by decide)
    refine ⟨p.skip.next, ?_, Cursor.next_rest hs⟩
    rw [readGoal_items_close hs, List.reverse_nil, List.map_nil]
  | cons piece pieces =>
    obtain ⟨hspace, hspaced⟩ := List.forall_mem_cons.1 hspaced
    obtain ⟨hpiece, hpieces⟩ := List.forall_mem_cons.1 hpieces
    obtain ⟨hread, hreads⟩ := List.forall_mem_cons.1 hreads
    simp only [List.map_cons, inside, Piece.chars, List.length_append] at hf
    obtain ⟨c, cs, hhead, hblank, hclose⟩ := hpiece.exists_head
    have hone : 0 < piece.text.length := by simp [hhead]
    have hmore := length_behind ']' (pieces.map Piece.chars)
    obtain ⟨fuel, rfl⟩ : ∃ m, fuel = m + 1 := ⟨fuel - 1, by omega⟩
    have hs : p.skip.rest = piece.text ++ (piece.after ++
        (behind ']' (pieces.map Piece.chars) ++ rest)) := by
      have hblank : Blank (gap ++ piece.before) := List.forall_mem_append.2 ⟨hgap, hspace.before⟩
      refine hpiece.skip_rest hblank (hp.trans ?_)
      simp [inside, Piece.chars]
    have hitem : ∃ q, readItem fuel n [] p.skip =
        .ok (array ((piece :: pieces).map Piece.value), q) ∧ q.rest = rest :=
      readItem_append hread (by omega) hs (closes_behind (.inl rfl) hspace.after _ _) fun hq =>
        readItems_behind [piece.value] hspace.after hspaced hpieces hreads (by omega) hq
    rw [hhead, List.cons_append] at hs
    rwa [readGoal_items_first hs hclose]

end items

/-- A member is read, and then what comes behind it. -/
theorem readMember_append {n fuel : Nat} {m : MemberPiece} {done : List (String × Json)}
    {json : Json} {p : Cursor} {more rest : List Char} (hs : m.Spaced)
    (hv : ReadsBack n m.piece.value m.piece.text) (hf : 2 * m.piece.text.length ≤ fuel)
    (hnew : m.name ∉ done.map Prod.fst)
    (hp : p.rest = quote m.name ++ (m.gap ++ ':' :: (m.piece.before ++ (m.piece.text ++ more))))
    (hc : Closes more)
    (hmore : ∀ {q : Cursor}, q.rest = more →
      ∃ r, readGoal fuel n (.members false (done ++ [m.member])) q = .ok (json, r) ∧
        r.rest = rest) :
    ∃ q, readMember fuel n done p = .ok (json, q) ∧ q.rest = rest := by
  have hquote : p.rest = '\x22' :: (m.name.toList.flatMap escapeChar ++ '\x22' ::
      (m.gap ++ ':' :: (m.piece.before ++ (m.piece.text ++ more)))) := by
    rw [hp]
    simp [quote]
  obtain ⟨q, hq, hqrest⟩ := readString_append (length_lt_of_quoted hquote) []
    (Cursor.next_rest hquote)
  have hskip := Cursor.skip_rest_append hqrest hs.gap (by decide)
  obtain ⟨r, hr, hrrest⟩ := hv hf (Cursor.next_rest hskip) hs.piece.before hc
  obtain ⟨t, ht, htrest⟩ := hmore hrrest
  refine ⟨t, ?_, htrest⟩
  have hname : String.ofList ([].reverse ++ m.name.toList) = m.name := by
    rw [List.reverse_nil, List.nil_append, String.ofList_toList]
  rw [hname] at hq
  have hput : put m.name m.piece.value done = done ++ [m.member] := put_of_not_mem hnew
  simp only [readMember, hq, bind, Except.bind, hskip, hr, hput, ht]

section members

variable {n : Nat} {rest : List Char}

theorem readMembers_behind {members : List MemberPiece} {fuel : Nat}
    (done : List (String × Json)) {p : Cursor} {blanks : List Char} (hb : Blank blanks)
    (hnames : (done.map Prod.fst ++ members.map MemberPiece.name).Nodup)
    (hspaced : ∀ m ∈ members, m.Spaced)
    (hreads : ∀ m ∈ members, ReadsBack n m.piece.value m.piece.text)
    (hf : 2 * (behind '\x7d' (members.map MemberPiece.chars)).length ≤ fuel)
    (hp : p.rest = blanks ++ (behind '\x7d' (members.map MemberPiece.chars) ++ rest)) :
    ∃ q, readGoal fuel n (.members false done) p =
      .ok (object (done ++ members.map MemberPiece.member), q) ∧ q.rest = rest := by
  induction members generalizing fuel done p blanks with
  | nil =>
    obtain ⟨fuel, rfl⟩ : ∃ m, fuel = m + 1 := ⟨fuel - 1, by simp [behind] at hf; omega⟩
    have hs : p.skip.rest = '\x7d' :: rest := Cursor.skip_rest_append hp hb (by decide)
    refine ⟨p.skip.next, ?_, Cursor.next_rest hs⟩
    rw [readGoal_members_close hs, List.map_nil, List.append_nil]
  | cons m members ih =>
    obtain ⟨hspace, hspaced⟩ := List.forall_mem_cons.1 hspaced
    obtain ⟨hread, hreads⟩ := List.forall_mem_cons.1 hreads
    simp only [List.map_cons, behind, MemberPiece.chars, Piece.chars, List.length_cons,
      List.length_append] at hf
    obtain ⟨fuel, rfl⟩ : ∃ m, fuel = m + 1 := ⟨fuel - 1, by omega⟩
    have hnew : m.name ∉ done.map Prod.fst := by
      intro hmem
      exact (List.nodup_append.1 hnames).2.2 _ hmem m.name (by simp) rfl
    have hs : p.skip.rest = ',' :: (m.before ++ (quote m.name ++ (m.gap ++ ':' ::
        (m.piece.before ++ (m.piece.text ++ (m.piece.after ++
          (behind '\x7d' (members.map MemberPiece.chars) ++ rest))))))) := by
      refine Cursor.skip_rest_append (hp.trans ?_) hb (by decide)
      simp [behind, MemberPiece.chars, Piece.chars]
    have hs' := Cursor.skip_rest_append (Cursor.next_rest hs) hspace.before (by decide)
    have hmember : ∃ q, readMember fuel n done p.skip.next.skip =
        .ok (object (done ++ (m :: members).map MemberPiece.member), q) ∧ q.rest = rest := by
      refine readMember_append hspace hread (by omega) hnew hs'
        (closes_behind (.inr rfl) hspace.piece.after _ _) ?_
      intro q hq
      have hmore : 2 * (behind '\x7d' (members.map MemberPiece.chars)).length ≤ fuel := by omega
      obtain ⟨r, hr, hrest⟩ := ih (done ++ [m.member]) hspace.piece.after
        (by simpa [MemberPiece.member] using hnames) hspaced hreads hmore hq
      exact ⟨r, by simpa using hr, hrest⟩
    rwa [readGoal_members_next hs hs']

theorem readMembers_inside {members : List MemberPiece} {fuel : Nat} {p : Cursor}
    {gap : List Char} (hgap : Blank gap) (hnames : (members.map MemberPiece.name).Nodup)
    (hspaced : ∀ m ∈ members, m.Spaced)
    (hreads : ∀ m ∈ members, ReadsBack n m.piece.value m.piece.text)
    (hf : 2 * (inside '\x7d' (members.map MemberPiece.chars)).length ≤ fuel)
    (hp : p.rest = gap ++ (inside '\x7d' (members.map MemberPiece.chars) ++ rest)) :
    ∃ q, readGoal fuel n (.members true []) p =
      .ok (object (members.map MemberPiece.member), q) ∧ q.rest = rest := by
  cases members with
  | nil =>
    obtain ⟨fuel, rfl⟩ : ∃ m, fuel = m + 1 := ⟨fuel - 1, by simp [inside] at hf; omega⟩
    have hs : p.skip.rest = '\x7d' :: rest := Cursor.skip_rest_append hp hgap (by decide)
    refine ⟨p.skip.next, ?_, Cursor.next_rest hs⟩
    rw [readGoal_members_close hs, List.map_nil]
  | cons m members =>
    obtain ⟨hspace, hspaced⟩ := List.forall_mem_cons.1 hspaced
    obtain ⟨hread, hreads⟩ := List.forall_mem_cons.1 hreads
    simp only [List.map_cons, inside, MemberPiece.chars, Piece.chars, List.length_cons,
      List.length_append] at hf
    obtain ⟨fuel, rfl⟩ : ∃ m, fuel = m + 1 := ⟨fuel - 1, by omega⟩
    have hs : p.skip.rest = quote m.name ++ (m.gap ++ ':' :: (m.piece.before ++ (m.piece.text ++
        (m.piece.after ++ (behind '\x7d' (members.map MemberPiece.chars) ++ rest))))) := by
      have hblank : Blank (gap ++ m.before) := List.forall_mem_append.2 ⟨hgap, hspace.before⟩
      refine Cursor.skip_rest_append (hp.trans ?_) hblank (by decide)
      simp [inside, MemberPiece.chars, Piece.chars, quote]
    have hmember : ∃ q, readMember fuel n [] p.skip =
        .ok (object ((m :: members).map MemberPiece.member), q) ∧ q.rest = rest :=
      readMember_append hspace hread (by omega) (by simp) hs
        (closes_behind (.inr rfl) hspace.piece.after _ _) fun hq =>
          readMembers_behind [m.member] hspace.piece.after
            (by simpa [MemberPiece.member] using hnames) hspaced hreads (by omega) hq
    rwa [readGoal_members_first hs]

end members

/-- It is enough to read a text from where the blanks end. -/
theorem Spells.readsBack_of_skip {n : Nat} {value : Json} {text : List Char}
    (h : Spells n value text)
    (hread : ∀ {fuel : Nat} {p : Cursor} {rest : List Char}, 2 * text.length ≤ fuel + 1 →
      p.skip.rest = text ++ rest → Closes rest →
      ∃ q, readGoal (fuel + 1) n .value p = .ok (value, q) ∧ q.rest = rest) :
    ReadsBack n value text := by
  intro fuel p blanks rest hf hp hb hc
  obtain ⟨fuel, rfl⟩ : ∃ m, fuel = m + 1 := by
    obtain ⟨c, cs, rfl, -⟩ := h.exists_head
    rw [List.length_cons] at hf
    exact ⟨fuel - 1, by omega⟩
  exact hread hf (h.skip_rest hb hp) hc

/-- A text that spells a value is read as that value. -/
theorem Spells.readsBack {n : Nat} {value : Json} {text : List Char} (h : Spells n value text) :
    ReadsBack n value text := by
  induction h with
  | null =>
    refine Spells.null.readsBack_of_skip ?_
    intro fuel p rest _ hs _
    have hs : p.skip.rest = 'n' :: ("ull".toList ++ rest) := hs
    obtain ⟨q, hq, hrest⟩ := readIdent_append Json.null (Cursor.next_rest hs)
    exact ⟨q, by simp only [readGoal, hs, hq], hrest⟩
  | bool b =>
    refine (Spells.bool b).readsBack_of_skip ?_
    intro fuel p rest _ hs _
    cases b with
    | false =>
      have hs : p.skip.rest = 'f' :: ("alse".toList ++ rest) := hs
      obtain ⟨q, hq, hrest⟩ := readIdent_append (Json.bool false) (Cursor.next_rest hs)
      exact ⟨q, by simp only [readGoal, hs, hq], hrest⟩
    | true =>
      have hs : p.skip.rest = 't' :: ("rue".toList ++ rest) := hs
      obtain ⟨q, hq, hrest⟩ := readIdent_append (Json.bool true) (Cursor.next_rest hs)
      exact ⟨q, by simp only [readGoal, hs, hq], hrest⟩
  | number hx =>
    refine (Spells.number hx).readsBack_of_skip ?_
    intro fuel p rest _ hs hc
    exact readGoal_number hx hs hc
  | string s =>
    refine (Spells.string s).readsBack_of_skip ?_
    intro fuel p rest _ hs _
    have hs : p.skip.rest = '\x22' :: (s.toList.flatMap escapeChar ++ '\x22' :: rest) := by
      rw [hs]
      simp [scalar, quote]
    obtain ⟨q, hq, hrest⟩ := readString_append (length_lt_of_quoted hs) []
      (Cursor.next_rest hs)
    refine ⟨q, ?_, hrest⟩
    rw [hs] at hq
    simp only [readGoal, hs, hq, bind, Except.bind, pure, Except.pure, List.reverse_nil,
      List.nil_append, String.ofList_toList]
  | @array n gap pieces hgap hspaced hpieces ih =>
    refine (Spells.array hgap hspaced hpieces).readsBack_of_skip ?_
    intro fuel p rest hf hs _
    rw [List.cons_append, List.append_assoc] at hs
    rw [List.length_cons, List.length_append] at hf
    have hinside : 2 * (inside ']' (pieces.map Piece.chars)).length ≤ fuel := by omega
    obtain ⟨q, hq, hrest⟩ := readItems_inside hgap hspaced hpieces ih hinside (Cursor.next_rest hs)
    exact ⟨q, by simp only [readGoal, hs, hq], hrest⟩
  | @object n gap members hgap hnames hspaced hmembers ih =>
    refine (Spells.object hgap hnames hspaced hmembers).readsBack_of_skip ?_
    intro fuel p rest hf hs _
    rw [List.cons_append, List.append_assoc] at hs
    rw [List.length_cons, List.length_append] at hf
    have hinside : 2 * (inside '\x7d' (members.map MemberPiece.chars)).length ≤ fuel := by omega
    obtain ⟨q, hq, hrest⟩ := readMembers_inside hgap hnames hspaced ih hinside (Cursor.next_rest hs)
    exact ⟨q, by simp only [readGoal, hs, hq], hrest⟩

/-- A text that spells a value, with blanks around it, is read as that value. -/
theorem Spells.read_eq {value : Json} {text : List Char} (h : Spells depthLimit value text)
    {before after : List Char} (hb : Blank before) (ha : Blank after) :
    read (String.ofList (before ++ text ++ after)) = .ok value := by
  have hfuel : 2 * text.length ≤ 2 * (before ++ text ++ after).length + 2 := by
    simp only [List.length_append]
    omega
  have hstart : (Cursor.mk (before ++ text ++ after) 0).rest = before ++ (text ++ after) :=
    List.append_assoc before text after
  obtain ⟨q, hq, hrest⟩ := h.readsBack hfuel hstart hb (closes_blanks ha)
  have hend : q.skip.rest = [] := by
    rw [Cursor.skip_rest, hrest, ← List.append_nil after, List.dropWhile_append_of_pos ha]
    rfl
  exact read_eq_ok_iff.2 ⟨q, by simpa using hq, hend⟩

/-- A value that nests at most so deep, with different names in its objects and numbers that are
read back. -/
inductive Plain : Nat → Json → Prop where
  | null {n : Nat} : Plain n null
  | bool {n : Nat} (b : Bool) : Plain n (bool b)
  | number {n : Nat} {x : JsonNumber} (hx : x.ReadsBack) : Plain n (.number x)
  | string {n : Nat} (s : String) : Plain n (string s)
  | array {n : Nat} {items : List Json} (hitems : ∀ item ∈ items, Plain n item) :
      Plain (n + 1) (array items)
  | object {n : Nat} {members : List (String × Json)} (hnames : (members.map Prod.fst).Nodup)
      (hmembers : ∀ m ∈ members, Plain n m.2) : Plain (n + 1) (object members)

/-- A whole number of 64 bits is written and read back. -/
theorem Plain.ofNat {n k : Nat} (hk : k < wholeLimit) : Plain n (ofNat k) := by
  have hlow : -(negativeLimit : Int) ≤ k := by omega
  exact .number (JsonNumber.readsBack_whole hlow (Int.ofNat_lt.2 hk))

theorem inside_cons {parts : List (List Char)} (h : parts ≠ []) (close : Char) (part : List Char) :
    inside close (part :: parts) = part ++ ',' :: inside close parts := by
  cases parts with
  | nil => exact absurd rfl h
  | cons next rest => rfl

/-- Items with the same blanks before each and others behind the last. -/
def laidOut (before last : List Char) (text : Json → List Char) : List Json → List Piece
  | [] => []
  | [item] => [⟨before, item, text item, last⟩]
  | item :: next :: rest => ⟨before, item, text item, []⟩ :: laidOut before last text (next :: rest)

/-- Members with the same blanks before each name, before each value, and behind the last. -/
def laidOutMembers (before lead last : List Char) (text : Json → List Char) :
    List (String × Json) → List MemberPiece
  | [] => []
  | [(name, value)] => [⟨before, name, [], ⟨lead, value, text value, last⟩⟩]
  | (name, value) :: next :: rest =>
    ⟨before, name, [], ⟨lead, value, text value, []⟩⟩ ::
      laidOutMembers before lead last text (next :: rest)

section laidOut

variable {before lead last : List Char} {text : Json → List Char}

theorem map_value_laidOut (items : List Json) :
    (laidOut before last text items).map Piece.value = items := by
  fun_induction laidOut before last text items with
  | case1 => rfl
  | case2 item => rfl
  | case3 item next rest ih => rw [List.map_cons, ih]

theorem map_member_laidOut (members : List (String × Json)) :
    (laidOutMembers before lead last text members).map MemberPiece.member = members := by
  fun_induction laidOutMembers before lead last text members with
  | case1 => rfl
  | case2 name value => rfl
  | case3 name value next rest ih => rw [List.map_cons, ih]; rfl

theorem mem_laidOut {items : List Json} {piece : Piece} (hb : Blank before) (hl : Blank last)
    (h : piece ∈ laidOut before last text items) :
    piece.Spaced ∧ piece.value ∈ items ∧ piece.text = text piece.value := by
  have hnil : Blank [] := by simp [Blank]
  fun_induction laidOut before last text items with
  | case1 => cases h
  | case2 item =>
    obtain rfl := List.mem_singleton.1 h
    exact ⟨⟨hb, hl⟩, by simp, rfl⟩
  | case3 item next rest ih =>
    rcases List.mem_cons.1 h with rfl | h
    · exact ⟨⟨hb, hnil⟩, by simp, rfl⟩
    · obtain ⟨hs, hm, ht⟩ := ih h
      exact ⟨hs, List.mem_cons_of_mem _ hm, ht⟩

theorem mem_laidOutMembers {members : List (String × Json)} {m : MemberPiece} (hb : Blank before)
    (hlead : Blank lead) (hl : Blank last) (h : m ∈ laidOutMembers before lead last text members) :
    m.Spaced ∧ m.member ∈ members ∧ m.piece.text = text m.piece.value := by
  have hnil : Blank [] := by simp [Blank]
  fun_induction laidOutMembers before lead last text members with
  | case1 => cases h
  | case2 name value =>
    obtain rfl := List.mem_singleton.1 h
    exact ⟨⟨hb, hnil, ⟨hlead, hl⟩⟩, by simp [MemberPiece.member], rfl⟩
  | case3 name value next rest ih =>
    rcases List.mem_cons.1 h with rfl | h
    · exact ⟨⟨hb, hnil, ⟨hlead, hnil⟩⟩, by simp [MemberPiece.member], rfl⟩
    · obtain ⟨hs, hm, ht⟩ := ih h
      exact ⟨hs, List.mem_cons_of_mem _ hm, ht⟩

/-- A list of items is spelled by its items. -/
theorem spells_laidOut {n : Nat} {items : List Json} (hb : Blank before) (hl : Blank last)
    (h : ∀ item ∈ items, Spells n item (text item)) :
    Spells (n + 1) (array items)
      ('[' :: inside ']' ((laidOut before last text items).map Piece.chars)) := by
  have hgap : Blank [] := by simp [Blank]
  have hpieces : ∀ piece ∈ laidOut before last text items, Spells n piece.value piece.text := by
    intro piece hm
    obtain ⟨-, hvalue, htext⟩ := mem_laidOut hb hl hm
    rw [htext]
    exact h _ hvalue
  have harray := Spells.array hgap (fun piece hm => (mem_laidOut hb hl hm).1) hpieces
  rwa [map_value_laidOut, List.nil_append] at harray

/-- A list of members is spelled by its members. -/
theorem spells_laidOutMembers {n : Nat} {members : List (String × Json)} (hb : Blank before)
    (hlead : Blank lead) (hl : Blank last) (hnames : (members.map Prod.fst).Nodup)
    (h : ∀ m ∈ members, Spells n m.2 (text m.2)) :
    Spells (n + 1) (object members)
      ('\x7b' :: inside '\x7d'
        ((laidOutMembers before lead last text members).map MemberPiece.chars)) := by
  have hgap : Blank [] := by simp [Blank]
  have hfst : MemberPiece.name = Prod.fst ∘ MemberPiece.member := rfl
  have hmap : (laidOutMembers before lead last text members).map MemberPiece.member = members :=
    map_member_laidOut members
  have hdistinct : ((laidOutMembers before lead last text members).map MemberPiece.name).Nodup := by
    rwa [hfst, ← List.map_map, hmap]
  have hmembers : ∀ m ∈ laidOutMembers before lead last text members,
      Spells n m.piece.value m.piece.text := by
    intro m hm
    obtain ⟨-, hmember, htext⟩ := mem_laidOutMembers hb hlead hl hm
    rw [htext]
    exact h _ hmember
  have hobject := Spells.object hgap hdistinct (fun m hm => (mem_laidOutMembers hb hlead hl hm).1)
    hmembers
  rwa [hmap, List.nil_append] at hobject

end laidOut

section written

variable {unit : List Char} {level : Nat}

theorem map_chars_laidOut_ne_nil {before last : List Char} {text : Json → List Char} (item : Json)
    (rest : List Json) : (laidOut before last text (item :: rest)).map Piece.chars ≠ [] := by
  cases rest <;> simp [laidOut]

theorem map_chars_laidOutMembers_ne_nil {before lead last : List Char} {text : Json → List Char}
    (member : String × Json) (rest : List (String × Json)) :
    (laidOutMembers before lead last text (member :: rest)).map MemberPiece.chars ≠ [] := by
  cases rest <;> simp [laidOutMembers]

theorem prettyChars_array_laidOut (items : List Json) :
    prettyChars unit level (array items) = '[' :: inside ']' ((laidOut (newline unit (level + 1))
      (newline unit level) (prettyChars unit (level + 1)) items).map Piece.chars) := by
  cases items with
  | nil => rfl
  | cons item rest =>
    rw [prettyChars]
    congr 1
    induction rest generalizing item with
    | nil => simp [prettyChars.prettyItems, laidOut, inside, behind, Piece.chars]
    | cons next rest ih =>
      rw [laidOut, List.map_cons, inside_cons (map_chars_laidOut_ne_nil next rest), ← ih]
      simp [prettyChars.prettyItems, Piece.chars]

theorem prettyChars_object_laidOut (members : List (String × Json)) :
    prettyChars unit level (object members) = '\x7b' :: inside '\x7d'
      ((laidOutMembers (newline unit (level + 1)) [' '] (newline unit level)
        (prettyChars unit (level + 1)) members).map MemberPiece.chars) := by
  cases members with
  | nil => rfl
  | cons member rest =>
    rw [prettyChars]
    congr 1
    induction rest generalizing member with
    | nil =>
      simp [prettyChars.prettyMembers, laidOutMembers, inside, behind, MemberPiece.chars,
        Piece.chars]
    | cons next rest ih =>
      rw [laidOutMembers, List.map_cons, inside_cons (map_chars_laidOutMembers_ne_nil next rest),
        ← ih]
      simp [prettyChars.prettyMembers, MemberPiece.chars, Piece.chars]

theorem compactChars_array_laidOut (items : List Json) :
    compactChars (array items) =
      '[' :: inside ']' ((laidOut [] [] compactChars items).map Piece.chars) := by
  rw [compactChars]
  congr 1
  fun_induction laidOut [] [] compactChars items with
  | case1 => rfl
  | case2 item => simp [compactChars.compactItems, inside, behind, Piece.chars]
  | case3 item next rest ih =>
    rw [List.map_cons, inside_cons (map_chars_laidOut_ne_nil next rest), ← ih]
    simp [compactChars.compactItems, Piece.chars]

theorem compactChars_object_laidOut (members : List (String × Json)) :
    compactChars (object members) = '\x7b' :: inside '\x7d'
      ((laidOutMembers [] [] [] compactChars members).map MemberPiece.chars) := by
  rw [compactChars]
  congr 1
  fun_induction laidOutMembers [] [] [] compactChars members with
  | case1 => rfl
  | case2 name value =>
    simp [compactChars.compactMembers, inside, behind, MemberPiece.chars, Piece.chars]
  | case3 name value next rest ih =>
    rw [List.map_cons, inside_cons (map_chars_laidOutMembers_ne_nil next rest), ← ih]
    simp [compactChars.compactMembers, MemberPiece.chars, Piece.chars]

/-- A value written over several lines is spelled. -/
theorem Plain.spells_pretty {n : Nat} {value : Json} (h : Plain n value) (hu : Blank unit)
    (level : Nat) : Spells n value (prettyChars unit level value) := by
  have hline : ∀ level, Blank (newline unit level) := isBlank_of_mem_newline hu
  induction h generalizing level with
  | null => exact .null
  | bool b => exact .bool b
  | number hx => exact .number hx
  | string s => exact .string s
  | array _ ih =>
    rw [prettyChars_array_laidOut]
    exact spells_laidOut (hline _) (hline _) fun item hm => ih item hm (level + 1)
  | object hnames _ ih =>
    rw [prettyChars_object_laidOut]
    exact spells_laidOutMembers (hline _) (List.forall_mem_singleton.2 (by decide)) (hline _) hnames
      fun m hm => ih m hm (level + 1)

/-- So is a value written without blanks. -/
theorem Plain.spells_compact {n : Nat} {value : Json} (h : Plain n value) :
    Spells n value (compactChars value) := by
  have hnil : Blank [] := by simp [Blank]
  induction h with
  | null => exact .null
  | bool b => exact .bool b
  | number hx => exact .number hx
  | string s => exact .string s
  | array _ ih =>
    rw [compactChars_array_laidOut]
    exact spells_laidOut hnil hnil ih
  | object hnames _ ih =>
    rw [compactChars_object_laidOut]
    exact spells_laidOutMembers hnil hnil hnil hnames ih

/-- A value that was written over several lines is read back, with blanks behind its text. -/
theorem Plain.read_pretty {value : Json} (h : Plain depthLimit value) {unit : String}
    (hu : Blank unit.toList) {blanks : List Char} (hb : Blank blanks) :
    read (value.pretty unit ++ String.ofList blanks) = .ok value := by
  have htext : value.pretty unit ++ String.ofList blanks =
      String.ofList ([] ++ prettyChars unit.toList 0 value ++ blanks) := by
    rw [pretty, List.nil_append, String.ofList_append]
  rw [htext]
  exact (h.spells_pretty hu 0).read_eq (by simp [Blank]) hb

/-- So is a value that was written without blanks. -/
theorem Plain.read_compact {value : Json} (h : Plain depthLimit value) :
    read value.compact = .ok value := by
  have hnil : Blank [] := by simp [Blank]
  have hread := h.spells_compact.read_eq hnil hnil
  rwa [List.nil_append, List.append_nil] at hread

end written

/-- The numbers in a value. -/
def numbers : Json → List JsonNumber
  | .number x => [x]
  | .array items => numbersOfItems items
  | .object members => numbersOfMembers members
  | _ => []
where
  /-- The items of an array. -/
  numbersOfItems : List Json → List JsonNumber
    | [] => []
    | item :: rest => numbers item ++ numbersOfItems rest
  /-- The members of an object. -/
  numbersOfMembers : List (String × Json) → List JsonNumber
    | [] => []
    | (_, value) :: rest => numbers value ++ numbersOfMembers rest

@[simp] theorem numbers_array (items : List Json) :
    (array items).numbers = items.flatMap numbers := by
  rw [numbers]
  induction items with
  | nil => rfl
  | cons item rest ih => rw [numbers.numbersOfItems, ih, List.flatMap_cons]

@[simp] theorem numbers_object (members : List (String × Json)) :
    (object members).numbers = members.flatMap fun member => member.2.numbers := by
  rw [numbers]
  induction members with
  | nil => rfl
  | cons member rest ih => rw [numbers.numbersOfMembers, ih, List.flatMap_cons]

/-- A value is written and read back if it is so but for its numbers, and they are. -/
theorem plain_of_shape {n : Nat} {value : Json} (h : Plain n value.shape)
    (hx : ∀ x ∈ value.numbers, x.ReadsBack) : Plain n value := by
  generalize hs : value.shape = shaped at h
  induction h generalizing value with
  | null =>
    cases value with
    | null => exact .null
    | _ => simp [shape] at hs
  | bool b =>
    cases value with
    | bool b => exact .bool b
    | _ => simp [shape] at hs
  | string s =>
    cases value with
    | string s => exact .string s
    | _ => simp [shape] at hs
  | number =>
    cases value with
    | number x => exact .number (hx x (List.mem_singleton.2 rfl))
    | _ => simp [shape] at hs
  | array _ ih =>
    obtain ⟨items, rfl, rfl⟩ := exists_of_shape_array hs
    refine .array fun item hi => ih item.shape (List.mem_map_of_mem hi) ?_ rfl
    intro x hm
    exact hx x (by rw [numbers_array]; exact List.mem_flatMap_of_mem hi hm)
  | object hnames _ ih =>
    obtain ⟨members, rfl, rfl⟩ := exists_of_shape_object hs
    have hfst : Prod.fst ∘ shapeMember = Prod.fst := rfl
    rw [List.map_map, hfst] at hnames
    refine .object hnames fun m hi => ih (shapeMember m) (List.mem_map_of_mem hi) ?_ rfl
    intro x hm
    exact hx x (by rw [numbers_object]; exact List.mem_flatMap.2 ⟨m, hi, hm⟩)

/-- A value that was read nests no deeper than is allowed, and its objects have different names. -/
theorem plain_shape_of_read {text : String} {json : Json} (h : read text = .ok json) :
    Plain depthLimit json.shape := by
  have hP : Closed fun n json => Plain n json.shape := by
    constructor
    case null => exact .null
    case bool => exact .bool
    case string => exact .string
    case number => exact fun _ => .number (JsonNumber.readsBack_whole (by decide) (by decide))
    case array =>
      intro n items hitems
      rw [shape_array]
      exact .array (List.forall_mem_map.2 hitems)
    case object =>
      intro n members hnames hmembers
      rw [shape_object]
      exact .object (by rwa [List.map_map]) (List.forall_mem_map.2 hmembers)
  exact hP.of_read h

/-- A whole number that was read is one of 64 bits. -/
theorem readsBack_of_read {text : String} {json : Json} (h : read text = .ok json)
    (hd : ∀ d, .double d ∈ json.numbers → (JsonNumber.double d).ReadsBack) :
    ∀ x ∈ json.numbers, x.ReadsBack := by
  have hP : Closed fun _ json => ∀ x ∈ json.numbers,
      (∀ d, x = .double d → x.ReadsBack) → x.ReadsBack := by
    constructor
    case number =>
      intro n negative p q y hy x hx hdouble
      obtain rfl : x = y := List.mem_singleton.1 hx
      exact readsBack_of_readNumber hy hdouble
    case array =>
      intro n items hitems x hx
      obtain ⟨item, hi, hx⟩ := List.mem_flatMap.1 (numbers_array items ▸ hx)
      exact hitems item hi x hx
    case object =>
      intro n members _ hmembers x hx
      obtain ⟨m, hi, hx⟩ := List.mem_flatMap.1 (numbers_object members ▸ hx)
      exact hmembers m hi x hx
    all_goals
      intros
      simp_all only [numbers, List.not_mem_nil]
  intro x hx
  refine hP.of_read h x hx ?_
  rintro d rfl
  exact hd d hx

/-- A value that was read is written and read back, if its doubles are. -/
theorem plain_of_read {text : String} {json : Json} (h : read text = .ok json)
    (hd : ∀ d, .double d ∈ json.numbers → (JsonNumber.double d).ReadsBack) :
    Plain depthLimit json :=
  plain_of_shape (plain_shape_of_read h) (readsBack_of_read h hd)

end Codemod.Json
