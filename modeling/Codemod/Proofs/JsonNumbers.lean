import Codemod.Proofs.JsonTexts

/-!
Numbers in a JSON text.

A number ends where no part of a number stands, so the readers of numbers answer the same whatever
is written behind one. Whether a number is read back from its own text is then a property of the
number: whole numbers of 64 bits have it, and of a double it depends on how it is rounded.
-/
namespace Codemod.Json

/-- What a reader answers at the end of a text, it answers in front of what may stand behind a
value, too. -/
def Local {α : Type} (read : Cursor → Except Stop (α × Cursor)) : Prop :=
  ∀ ⦃p p' q : Cursor⦄ ⦃a : α⦄ ⦃rest : List Char⦄, Closes rest → p'.rest = p.rest ++ rest →
    read p = .ok (a, q) → ∃ q', read p' = .ok (a, q') ∧ q'.rest = q.rest ++ rest

section local_readers

variable {rest cs ds : List Char} {c : Char} {p p' : Cursor}

/-- A part of a number that is found in front of such a text is there without it. -/
theorem Closes.exists_cons (hr : Closes rest) (hc : isNumberPart c = true)
    (h : cs ++ rest = c :: ds) : ∃ ts, cs = c :: ts := by
  cases cs with
  | nil =>
    rw [List.nil_append] at h
    subst h
    rw [hr.head] at hc
    cases hc
  | cons d ts => exact ⟨ts, by rw [(List.cons.inj h).1]⟩

theorem Closes.not_digit (h : Closes (c :: cs)) : c.isDigit = false := by
  have hc := h.head
  simp only [isNumberPart, Bool.or_eq_false_iff] at hc
  exact hc.1

/-- What stands ahead of one place stands ahead of the other, too. -/
theorem rest_append (hp : p'.rest = p.rest ++ rest) (hc : p.rest = c :: cs) :
    p'.rest = c :: (cs ++ rest) := by
  rw [hp, hc, List.cons_append]

/-- A part of a number that does not stand ahead of one place does not stand ahead of the other. -/
theorem rest_ne_append (hr : Closes rest) (hp : p'.rest = p.rest ++ rest)
    (hc : isNumberPart c = true) (hno : ∀ ts, p.rest ≠ c :: ts) : p'.rest ≠ c :: ds := by
  intro h
  obtain ⟨ts, hts⟩ := hr.exists_cons hc (hp.symm.trans h)
  exact hno ts hts

theorem leadingDigits_append (hr : Closes rest) (cs : List Char) :
    leadingDigits (cs ++ rest) = leadingDigits cs := by
  induction cs with
  | nil =>
    cases rest with
    | nil => rfl
    | cons c cs => exact List.takeWhile_cons_of_neg (by simp [hr.not_digit])
  | cons c cs ih =>
    rw [leadingDigits, leadingDigits] at *
    simp only [List.cons_append, List.takeWhile_cons, ih]

theorem next_append (hp : p'.rest = p.rest ++ rest) (hne : p.rest ≠ []) :
    p'.next.rest = p.next.rest ++ rest := by
  obtain ⟨c, cs, hc⟩ := List.exists_cons_of_ne_nil hne
  rw [Cursor.next_rest hc, Cursor.next_rest (rest_append hp hc)]

theorem nextN_append (hp : p'.rest = p.rest ++ rest) :
    (p'.nextN (leadingDigits p.rest).length).rest =
      (p.nextN (leadingDigits p.rest).length).rest ++ rest := by
  have hle : (leadingDigits p.rest).length ≤ p.rest.length :=
    (List.takeWhile_sublist _).length_le
  rw [Cursor.nextN_rest, Cursor.nextN_rest, hp, List.drop_append_of_le_length hle]

theorem local_scaledNumber (negative : Bool) (digits : Nat) (scale : Int) :
    Local (scaledNumber negative digits scale) := by
  intro p p' q n rest _ hp h
  unfold scaledNumber at h ⊢
  split at h
  · simp at h
  · simp only [Except.ok.injEq, Prod.mk.injEq] at h
    exact ⟨p', by rw [h.1], by rw [hp, h.2]⟩

theorem local_readExponentDigits (negative up : Bool) (digits : Nat) (scale : Int) :
    Local (readExponentDigits negative up digits scale) := by
  intro p p' q n rest hr hp h
  have hnext := nextN_append hp
  have hsame := leadingDigits_append hr p.rest
  rw [← hp] at hsame
  unfold readExponentDigits at h ⊢
  split at h
  · simp at h
  · rename_i c cs hc
    have hp' := rest_append hp hc
    rw [hp']
    split at h
    · simp at h
    · rename_i hdigit
      simp only [hdigit, Bool.false_eq_true, if_false, ← hp', hsame] at h ⊢
      split at h
      · rename_i hlimit
        split at h
        · simp at h
        · rename_i hup
          simp only [Except.ok.injEq, Prod.mk.injEq] at h
          obtain ⟨rfl, rfl⟩ := h
          exact ⟨_, by rw [if_pos hlimit, if_neg hup], hnext⟩
      · rename_i hlimit
        rw [if_neg hlimit]
        exact local_scaledNumber _ _ _ hr hnext h

theorem readExponentSign_append (hr : Closes rest) (hp : p'.rest = p.rest ++ rest) :
    (readExponentSign p').1 = (readExponentSign p).1 ∧
      (readExponentSign p').2.rest = (readExponentSign p).2.rest ++ rest := by
  unfold readExponentSign
  split
  · rename_i hc
    obtain ⟨ts, hts⟩ := hr.exists_cons (by decide) (hp.symm.trans hc)
    rw [hts]
    exact ⟨rfl, next_append hp (by simp [hts])⟩
  · rename_i hc
    obtain ⟨ts, hts⟩ := hr.exists_cons (by decide) (hp.symm.trans hc)
    rw [hts]
    exact ⟨rfl, next_append hp (by simp [hts])⟩
  · rename_i hplus hminus
    split
    · rename_i hc
      exact absurd (rest_append hp hc) (hplus _)
    · rename_i hc
      exact absurd (rest_append hp hc) (hminus _)
    · exact ⟨rfl, hp⟩

theorem local_readExponent (negative : Bool) (digits : Nat) (scale : Int) :
    Local (readExponent negative digits scale) := by
  intro p p' q n rest hr hp h
  have hne : p.rest ≠ [] := by
    intro hnil
    simp [readExponent, Cursor.next, hnil] at h
  rw [readExponent_eq] at h ⊢
  obtain ⟨hup, hrest⟩ := readExponentSign_append hr (next_append hp hne)
  rw [hup]
  exact local_readExponentDigits _ _ _ _ hr hrest h

theorem local_readScaled (negative : Bool) (digits : Nat) (scale : Int) :
    Local (readScaled negative digits scale) := by
  intro p p' q n rest hr hp h
  unfold readScaled at h ⊢
  split at h
  · rename_i hc
    simp only [rest_append hp hc]
    exact local_readExponent _ _ _ hr hp h
  · rename_i hc
    simp only [rest_append hp hc]
    exact local_readExponent _ _ _ hr hp h
  · rename_i hlower hupper
    split
    · rename_i hc
      exact absurd hc (rest_ne_append hr hp (by decide) hlower)
    · rename_i hc
      exact absurd hc (rest_ne_append hr hp (by decide) hupper)
    · exact local_scaledNumber _ _ _ hr hp h

theorem local_readFraction (negative : Bool) (digits : Nat) (scale : Int) :
    Local (readFraction negative digits scale) := by
  intro p p' q n rest hr hp h
  have hne : p.rest ≠ [] := by
    intro hnil
    simp [readFraction, Cursor.next, hnil, leadingDigits] at h
  have hnext := next_append hp hne
  have hsame := leadingDigits_append hr p.next.rest
  rw [← hnext] at hsame
  unfold readFraction at h ⊢
  simp only [hsame]
  simp only at h
  split at h
  · simp at h
  · exact local_readScaled _ _ _ hr (nextN_append hnext) h

def wholeNumber (negative : Bool) (value : Nat) (q : Cursor) : Except Stop (JsonNumber × Cursor) :=
  if !negative then .ok (.whole value, q)
  else if value = 0 || negativeLimit < value then scaledNumber negative value 0 q
  else .ok (.whole (-(value : Int)), q)

def readTail (negative : Bool) (value : Nat) (scale : Int) (q : Cursor) :
    Except Stop (JsonNumber × Cursor) :=
  match q.rest with
  | '.' :: _ => readFraction negative value scale q
  | 'e' :: _ | 'E' :: _ => readExponent negative value scale q
  | _ => if scale ≠ 0 then scaledNumber negative value scale q else wholeNumber negative value q

theorem readNumber_eq (negative : Bool) (p : Cursor) :
    readNumber negative p =
      match p.rest with
      | [] => p.stop .eofInValue
      | c :: cs =>
        if !c.isDigit then Cursor.stop ⟨p.rest, p.offset + 1⟩ .invalidNumber
        else if c = '0' && (cs.head?.map Char.isDigit).getD false then
          p.next.stopAhead .invalidNumber
        else
          let text := leadingDigits p.rest
          let (value, count) := takeDigits 0 0 text
          readTail negative value ((text.length : Int) - count) (p.nextN text.length) := rfl

theorem local_wholeNumber (negative : Bool) (value : Nat) : Local (wholeNumber negative value) := by
  intro p p' q n rest hr hp h
  unfold wholeNumber at h ⊢
  split at h
  · rename_i hpositive
    simp only [Except.ok.injEq, Prod.mk.injEq] at h
    exact ⟨p', by rw [if_pos hpositive, h.1], by rw [hp, h.2]⟩
  · rename_i hnegative
    rw [if_neg hnegative]
    split at h
    · rename_i hrange
      rw [if_pos hrange]
      exact local_scaledNumber _ _ _ hr hp h
    · rename_i hrange
      simp only [Except.ok.injEq, Prod.mk.injEq] at h
      exact ⟨p', by rw [if_neg hrange, h.1], by rw [hp, h.2]⟩

theorem local_readTail (negative : Bool) (value : Nat) (scale : Int) :
    Local (readTail negative value scale) := by
  intro p p' q n rest hr hp h
  unfold readTail at h ⊢
  split at h
  · rename_i hc
    simp only [rest_append hp hc]
    exact local_readFraction _ _ _ hr hp h
  · rename_i hc
    simp only [rest_append hp hc]
    exact local_readExponent _ _ _ hr hp h
  · rename_i hc
    simp only [rest_append hp hc]
    exact local_readExponent _ _ _ hr hp h
  · rename_i hpoint hlower hupper
    split
    · rename_i hc
      exact absurd hc (rest_ne_append hr hp (by decide) hpoint)
    · rename_i hc
      exact absurd hc (rest_ne_append hr hp (by decide) hlower)
    · rename_i hc
      exact absurd hc (rest_ne_append hr hp (by decide) hupper)
    · split at h
      · rename_i hscale
        rw [if_pos hscale]
        exact local_scaledNumber _ _ _ hr hp h
      · rename_i hscale
        rw [if_neg hscale]
        exact local_wholeNumber _ _ hr hp h

theorem local_readNumber (negative : Bool) : Local (readNumber negative) := by
  intro p p' q n rest hr hp h
  have hnext := nextN_append hp
  have hsame := leadingDigits_append hr p.rest
  rw [← hp] at hsame
  rw [readNumber_eq] at h ⊢
  split at h
  · simp at h
  · rename_i c cs hc
    have hp' := rest_append hp hc
    have hhead : ((cs ++ rest).head?.map Char.isDigit).getD false =
        (cs.head?.map Char.isDigit).getD false := by
      cases cs with
      | cons d ds => rfl
      | nil =>
        cases rest with
        | nil => rfl
        | cons d ds => simp [hr.not_digit]
    simp only [hsame]
    simp only [hp', hhead]
    split at h
    · simp at h
    · rename_i hdigit
      split at h
      · simp at h
      · rename_i hzero
        rw [if_neg hdigit, if_neg hzero]
        exact local_readTail _ _ _ hr hnext h

end local_readers

end Codemod.Json

namespace Codemod.JsonNumber

open Json

/-- The text of a number is read as the number. -/
def ReadsBack (x : JsonNumber) : Prop := read (numberText x) = .ok (.number x)

end Codemod.JsonNumber

namespace Codemod.Json

/-- A number that is read back from its own text is so in front of what may stand behind it. -/
theorem readGoal_number {fuel n : Nat} {x : JsonNumber} {p : Cursor} {rest : List Char}
    (hx : x.ReadsBack) (hs : p.skip.rest = (numberText x).toList ++ rest) (hr : Closes rest) :
    ∃ q, readGoal (fuel + 1) n .value p = .ok (.number x, q) ∧ q.rest = rest := by
  obtain ⟨r, hg, hend⟩ := read_eq_ok_iff.1 hx
  have hparts : ∀ c ∈ (numberText x).toList, isNumberPart c = true :=
    fun c => isNumberPart_of_mem_numberText
  obtain ⟨c, cs, htext⟩ := List.exists_cons_of_ne_nil (numberText_ne_nil x)
  rw [htext] at hg hs hparts
  have hc := hparts c (List.mem_cons_self ..)
  have hstart : (Cursor.mk (c :: cs) 0).skip.rest = c :: cs :=
    Cursor.skip_rest_cons rfl (isBlank_of_isNumberPart hc)
  have hp : p.skip.rest = (Cursor.mk (c :: cs) 0).skip.rest ++ rest := by rw [hs, hstart]
  rw [readGoal_of_isNumberPart hstart hc] at hg
  rw [readGoal_of_isNumberPart (List.cons_append ▸ hs) hc]
  have hnumber : ∀ {negative : Bool} {s s' : Cursor}, s'.rest = s.rest ++ rest →
      s.rest ⊆ c :: cs → readNumberValue negative s = .ok (.number x, r) →
      ∃ q, readNumberValue negative s' = .ok (.number x, q) ∧ q.rest = rest := by
    intro negative s s' hs' hsub hread
    obtain ⟨y, hy, hread⟩ := readNumberValue_eq_ok hread
    obtain rfl := Json.number.inj hy
    obtain ⟨taken, htaken, -⟩ := takes_of_readNumber hread
    have hnil : r.rest = [] := by
      cases hrest : r.rest with
      | nil => rfl
      | cons d ds =>
        have hd := hparts d (hsub (by simp [htaken, hrest]))
        rw [Cursor.skip_rest_cons hrest (isBlank_of_isNumberPart hd)] at hend
        cases hend
    obtain ⟨q, hq, hqrest⟩ := local_readNumber negative hr hs' hread
    rw [hnil, List.nil_append] at hqrest
    exact ⟨q, by simp only [readNumberValue, hq, bind, Except.bind, pure, Except.pure], hqrest⟩
  split at hg
  · rename_i hminus
    rw [if_pos hminus]
    refine hnumber (next_append hp (by simp [hstart])) ?_ hg
    rw [Cursor.next_rest hstart]
    exact List.subset_cons_self ..
  · rename_i hminus
    rw [if_neg hminus]
    split at hg
    · rename_i hdigit
      rw [if_pos hdigit]
      exact hnumber hp (by rw [hstart]; exact List.Subset.refl _) hg
    · simp at hg

/-- The digits of a number start with a zero only where that is all of them. -/
theorem toDigits_head (n : Nat) :
    ∃ c cs, Nat.toDigits 10 n = c :: cs ∧ (c = '0' → cs = []) := by
  have hdigit : ∀ n < 10, n ≠ 0 → n.digitChar ≠ '0' := by decide
  have hpos : n ≠ 0 → ∃ c cs, Nat.toDigits 10 n = c :: cs ∧ c ≠ '0' := by
    induction n using Nat.strongRecOn with
    | ind n ih =>
      intro hn
      by_cases hten : n < 10
      · exact ⟨n.digitChar, [], Nat.toDigits_of_lt_base hten, hdigit n hten hn⟩
      · obtain ⟨c, cs, hcs, hc⟩ := ih (n / 10) (by omega) (by omega)
        refine ⟨c, cs ++ [(n % 10).digitChar], ?_, hc⟩
        rw [Nat.toDigits_of_base_le (by decide) (by omega), hcs, List.cons_append]
  by_cases hn : n = 0
  · exact ⟨'0', [], by rw [hn, Nat.toDigits_zero], fun _ => rfl⟩
  · obtain ⟨c, cs, hcs, hc⟩ := hpos hn
    exact ⟨c, cs, hcs, fun h => absurd h hc⟩

theorem le_ofDigitChars (cs : List Char) (n : Nat) : n ≤ Nat.ofDigitChars 10 cs n := by
  induction cs generalizing n with
  | nil => exact Nat.le_refl n
  | cons c cs ih =>
    have hrest := ih (10 * n + (c.toNat - '0'.toNat))
    exact Nat.le_trans (by omega) hrest

/-- Digits of a number below the limit are all taken. -/
theorem takeDigits_eq {cs : List Char} {n count : Nat} (hd : ∀ c ∈ cs, c.isDigit = true)
    (hn : Nat.ofDigitChars 10 cs n < wholeLimit) :
    takeDigits n count cs = (Nat.ofDigitChars 10 cs n, count + cs.length) := by
  induction cs generalizing n count with
  | nil => rfl
  | cons c cs ih =>
    obtain ⟨hc, hcs⟩ := List.forall_mem_cons.1 hd
    have hstep : n * 10 + digitValue c = 10 * n + (c.toNat - '0'.toNat) := by
      rw [digitValue, Nat.mul_comm]
      rfl
    have hbound : 10 * n + (c.toNat - '0'.toNat) < wholeLimit :=
      Nat.lt_of_le_of_lt (le_ofDigitChars cs _) hn
    rw [takeDigits, hstep, hc, Bool.true_and, if_pos (by simpa using hbound), ih hcs hn,
      List.length_cons]
    congr 1
    omega

theorem takeDigits_lt {cs : List Char} {n count : Nat} (hn : n < wholeLimit) :
    (takeDigits n count cs).1 < wholeLimit := by
  induction cs generalizing n count with
  | nil => exact hn
  | cons c cs ih =>
    rw [takeDigits]
    split
    · rename_i hc
      simp only [Bool.and_eq_true, decide_eq_true_eq] at hc
      exact ih hc.2
    · exact hn

/-- The digits of a number of 64 bits are read as the number. -/
theorem readNumber_digits (negative : Bool) {n : Nat} {p : Cursor} (hn : n < wholeLimit)
    (hp : p.rest = Nat.toDigits 10 n) :
    ∃ q, readNumber negative p = wholeNumber negative n q ∧ q.rest = [] := by
  have hdigits : ∀ c ∈ Nat.toDigits 10 n, c.isDigit = true := fun c hc =>
    Nat.isDigit_of_mem_toDigits (by decide) (by decide) hc
  have hleading : leadingDigits p.rest = Nat.toDigits 10 n := by
    have hall : (Nat.toDigits 10 n ++ []).takeWhile Char.isDigit = Nat.toDigits 10 n ++ [] :=
      List.takeWhile_append_of_pos hdigits
    rw [List.append_nil] at hall
    rw [leadingDigits, hp, hall]
  have htake : takeDigits 0 0 (Nat.toDigits 10 n) = (n, (Nat.toDigits 10 n).length) := by
    have hvalue : Nat.ofDigitChars 10 (Nat.toDigits 10 n) 0 = n :=
      Nat.ofDigitChars_toDigits (by decide) (by decide)
    rw [takeDigits_eq hdigits (by rwa [hvalue]), hvalue, Nat.zero_add]
  have hrest : (p.nextN (Nat.toDigits 10 n).length).rest = [] := by
    rw [Cursor.nextN_rest, hp, List.drop_length]
  refine ⟨_, ?_, hrest⟩
  obtain ⟨c, cs, hcs, hzero⟩ := toDigits_head n
  have hc : c.isDigit = true := hdigits c (hcs ▸ List.mem_cons_self ..)
  have hsingle : (c = '0' && (cs.head?.map Char.isDigit).getD false) = false := by
    by_cases hc : c = '0'
    · simp [hzero hc]
    · simp [hc]
  rw [readNumber_eq]
  simp only [hleading, htake]
  simp only [hp, hcs, hc, hsingle, Bool.not_true, Bool.false_eq_true, if_false]
  rw [← hcs, readTail, hrest]
  simp

end Codemod.Json

namespace Codemod.JsonNumber

open Json

/-- A whole number of 64 bits is read back. -/
theorem readsBack_whole {n : Int} (hlow : -(negativeLimit : Int) ≤ n) (hhigh : n < wholeLimit) :
    (whole n).ReadsBack := by
  have hpart : ∀ {c : Char}, c.isDigit = true → isNumberPart c = true ∧ c ≠ '-' := by
    intro c hc
    refine ⟨by simp [isNumberPart, hc], ?_⟩
    rintro rfl
    cases hc
  have hsmall : negativeLimit < wholeLimit := by decide
  rw [ReadsBack, read_eq_ok_iff]
  cases n with
  | ofNat n =>
    have hhigh : (n : Int) < wholeLimit := hhigh
    have htext : (numberText (whole n)).toList = Nat.toDigits 10 n := Nat.toList_repr
    obtain ⟨c, cs, hcs, -⟩ := toDigits_head n
    have hc : c.isDigit = true :=
      Nat.isDigit_of_mem_toDigits (by decide) (by decide) (hcs ▸ List.mem_cons_self ..)
    obtain ⟨hnumber, hminus⟩ := hpart hc
    have hs : (Cursor.mk (Nat.toDigits 10 n) 0).skip.rest = c :: cs :=
      Cursor.skip_rest_cons hcs (isBlank_of_isNumberPart hnumber)
    obtain ⟨q, hq, hend⟩ := readNumber_digits false (by omega) (hs.trans hcs.symm)
    refine ⟨q, ?_, by rw [Cursor.skip_rest, hend]; rfl⟩
    change readGoal (2 * (numberText (whole n)).toList.length + 2) depthLimit .value
      ⟨(numberText (whole n)).toList, 0⟩ = _
    rw [htext, readGoal_of_isNumberPart hs hnumber, if_neg hminus, if_pos hc, readNumberValue, hq]
    rfl
  | negSucc n =>
    have htext : (numberText (whole (.negSucc n))).toList = '-' :: Nat.toDigits 10 (n + 1) := by
      simp [numberText, toString, Int.repr, Nat.repr]
    have hs : (Cursor.mk ('-' :: Nat.toDigits 10 (n + 1)) 0).skip.rest =
        '-' :: Nat.toDigits 10 (n + 1) := Cursor.skip_rest_cons rfl (by decide)
    have hle : n + 1 ≤ negativeLimit := by omega
    obtain ⟨q, hq, hend⟩ := readNumber_digits true (by omega) (Cursor.next_rest hs)
    refine ⟨q, ?_, by rw [Cursor.skip_rest, hend]; rfl⟩
    have hwhole : wholeNumber true (n + 1) q = .ok (whole (.negSucc n), q) := by
      have hrange : ¬ (n + 1 = 0 ∨ negativeLimit < n + 1) := by omega
      simp only [wholeNumber, Bool.not_true, Bool.false_eq_true, if_false, Bool.or_eq_true,
        decide_eq_true_eq, hrange]
      rfl
    rw [htext, readGoal_of_isNumberPart hs (by decide), if_pos rfl, readNumberValue, hq, hwhole]
    rfl

end Codemod.JsonNumber

namespace Codemod.Json

theorem exists_double_of_scaledNumber {negative : Bool} {digits : Nat} {scale : Int} {p q : Cursor}
    {x : JsonNumber} (h : scaledNumber negative digits scale p = .ok (x, q)) :
    ∃ d, x = .double d := by
  unfold scaledNumber at h
  split at h
  · simp at h
  · simp only [Except.ok.injEq, Prod.mk.injEq] at h
    exact ⟨_, h.1.symm⟩

theorem exists_double_of_readExponent {negative : Bool} {digits : Nat} {scale : Int} {p q : Cursor}
    {x : JsonNumber} (h : readExponent negative digits scale p = .ok (x, q)) :
    ∃ d, x = .double d := by
  rw [readExponent_eq, readExponentDigits] at h
  split at h
  · simp at h
  · split at h
    · simp at h
    · simp only at h
      split at h
      · split at h
        · simp at h
        · simp only [Except.ok.injEq, Prod.mk.injEq] at h
          exact ⟨_, h.1.symm⟩
      · exact exists_double_of_scaledNumber h

theorem exists_double_of_readFraction {negative : Bool} {digits : Nat} {scale : Int} {p q : Cursor}
    {x : JsonNumber} (h : readFraction negative digits scale p = .ok (x, q)) :
    ∃ d, x = .double d := by
  unfold readFraction at h
  simp only at h
  split at h
  · simp at h
  · unfold readScaled at h
    split at h
    · exact exists_double_of_readExponent h
    · exact exists_double_of_readExponent h
    · exact exists_double_of_scaledNumber h

/-- A number that was read is a double, or a whole number of 64 bits. -/
theorem readsBack_of_readNumber {negative : Bool} {p q : Cursor} {x : JsonNumber}
    (h : readNumber negative p = .ok (x, q)) (hx : ∀ d, x = .double d → x.ReadsBack) :
    x.ReadsBack := by
  have hdouble : (∃ d, x = .double d) → x.ReadsBack := fun ⟨d, hd⟩ => hx d hd
  rw [readNumber_eq] at h
  split at h
  · simp at h
  · split at h
    · simp at h
    · split at h
      · simp at h
      · simp only [readTail] at h
        have hlimit : (takeDigits 0 0 (leadingDigits p.rest)).1 < wholeLimit :=
          takeDigits_lt (by decide)
        split at h
        · exact hdouble (exists_double_of_readFraction h)
        · exact hdouble (exists_double_of_readExponent h)
        · exact hdouble (exists_double_of_readExponent h)
        · split at h
          · exact hdouble (exists_double_of_scaledNumber h)
          · unfold wholeNumber at h
            split at h
            · simp only [Except.ok.injEq, Prod.mk.injEq] at h
              rw [← h.1]
              exact JsonNumber.readsBack_whole (by omega) (by omega)
            · split at h
              · exact hdouble (exists_double_of_scaledNumber h)
              · rename_i hrange
                simp only [Bool.or_eq_true, decide_eq_true_eq, not_or] at hrange
                simp only [Except.ok.injEq, Prod.mk.injEq] at h
                rw [← h.1]
                exact JsonNumber.readsBack_whole (by omega) (by omega)

end Codemod.Json
