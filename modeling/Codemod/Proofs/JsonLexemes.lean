import Codemod.Json.Printer
import Codemod.Json.Reader

/-!
Reading the words, numbers and strings of a JSON text.

A number takes nothing but digits, points, signs and exponent marks. A string that was written with
escapes is read back as it was. The lemmas are about readings that succeed.
-/
namespace Codemod.Json

/-- What a step of a computation that succeeded has answered. -/
theorem bind_eq_ok_iff {ε α β : Type} {x : Except ε α} {f : α → Except ε β} {b : β} :
    x >>= f = .ok b ↔ ∃ a, x = .ok a ∧ f a = .ok b := by
  cases x with
  | error e =>
    constructor
    · intro h
      cases h
    · rintro ⟨a, h, -⟩
      cases h
  | ok a =>
    constructor
    · intro h
      exact ⟨a, rfl, h⟩
    · rintro ⟨b, hb, h⟩
      obtain rfl := Except.ok.inj hb
      exact h

namespace Cursor

@[simp] theorem stop_ne_ok {α : Type} (p : Cursor) (cause : Cause) (a : α) :
    (p.stop cause : Except Stop α) ≠ .ok a := by
  intro h
  cases h

@[simp] theorem stopAhead_ne_ok {α : Type} (p : Cursor) (cause : Cause) (a : α) :
    (p.stopAhead cause : Except Stop α) ≠ .ok a := by
  intro h
  cases h

theorem drop_length_takeWhile {α : Type} (p : α → Bool) (cs : List α) :
    cs.drop (cs.takeWhile p).length = cs.dropWhile p := by
  have h : (cs.takeWhile p ++ cs.dropWhile p).drop (cs.takeWhile p).length = cs.dropWhile p :=
    List.drop_left
  rwa [List.takeWhile_append_dropWhile] at h

theorem skip_rest (p : Cursor) : p.skip.rest = p.rest.dropWhile isBlank :=
  drop_length_takeWhile isBlank p.rest

/-- Blanks in front of something else are skipped. -/
theorem skip_rest_append {p : Cursor} {blanks : List Char} {c : Char} {cs : List Char}
    (hp : p.rest = blanks ++ c :: cs) (hb : ∀ b ∈ blanks, isBlank b = true)
    (hc : isBlank c = false) : p.skip.rest = c :: cs := by
  have hstop : ¬ isBlank c = true := by simp [hc]
  rw [skip_rest, hp, List.dropWhile_append_of_pos hb, List.dropWhile_cons_of_neg hstop]

/-- Without blanks in front nothing is skipped. -/
theorem skip_rest_cons {p : Cursor} {c : Char} {cs : List Char} (hp : p.rest = c :: cs)
    (hc : isBlank c = false) : p.skip.rest = c :: cs := by
  have hstop : ¬ isBlank c = true := by simp [hc]
  rw [skip_rest, hp, List.dropWhile_cons_of_neg hstop]

theorem next_rest {p : Cursor} {c : Char} {cs : List Char} (hp : p.rest = c :: cs) :
    p.next.rest = cs := by
  simp [next, hp]

@[simp] theorem nextN_rest (p : Cursor) (n : Nat) : (p.nextN n).rest = p.rest.drop n := rfl

end Cursor

/-- A word that was read gives its value. -/
theorem readIdent_eq_ok {α : Type} {value a : α} {word : List Char} {p q : Cursor}
    (h : readIdent value word p = .ok (a, q)) : a = value ∧ p.rest = word ++ q.rest := by
  induction word generalizing p with
  | nil =>
    simp only [readIdent, Except.ok.injEq, Prod.mk.injEq] at h
    exact ⟨h.1.symm, by rw [h.2, List.nil_append]⟩
  | cons c cs ih =>
    rw [readIdent] at h
    split at h
    · simp at h
    · rename_i d ds hp
      split at h
      · rename_i hcd
        obtain ⟨ha, hq⟩ := ih h
        rw [Cursor.next_rest hp] at hq
        exact ⟨ha, by rw [hp, hq, hcd, List.cons_append]⟩
      · simp at h

/-- A character that numbers are written with. -/
def isNumberPart (c : Char) : Bool := c.isDigit || ['.', 'e', 'E', '+', '-'].contains c

/-- From one place to another there is nothing but parts of numbers. -/
def Cursor.Takes (p q : Cursor) : Prop :=
  ∃ taken, p.rest = taken ++ q.rest ∧ ∀ c ∈ taken, isNumberPart c = true

namespace Cursor.Takes

theorem refl (p : Cursor) : p.Takes p := ⟨[], rfl, by simp⟩

theorem trans {p q r : Cursor} (h : p.Takes q) (h' : q.Takes r) : p.Takes r := by
  obtain ⟨a, ha, hpa⟩ := h
  obtain ⟨b, hb, hpb⟩ := h'
  refine ⟨a ++ b, by rw [ha, hb, List.append_assoc], ?_⟩
  intro c hc
  rcases List.mem_append.1 hc with hc | hc
  · exact hpa c hc
  · exact hpb c hc

theorem next {p : Cursor} {c : Char} {cs : List Char} (hp : p.rest = c :: cs)
    (hc : isNumberPart c = true) : p.Takes p.next := by
  refine ⟨[c], by rw [next_rest hp, hp, List.singleton_append], ?_⟩
  intro d hd
  rwa [List.mem_singleton.1 hd]

theorem digits (p : Cursor) : p.Takes (p.nextN (leadingDigits p.rest).length) := by
  refine ⟨leadingDigits p.rest, ?_, ?_⟩
  · rw [nextN_rest, leadingDigits, drop_length_takeWhile, List.takeWhile_append_dropWhile]
  · intro c hc
    have hdigit := List.all_eq_true.1 List.all_takeWhile c hc
    simp [isNumberPart, hdigit]

end Cursor.Takes

open Cursor (Takes)

theorem takes_of_scaledNumber {negative : Bool} {digits : Nat} {scale : Int} {p q : Cursor}
    {n : JsonNumber} (h : scaledNumber negative digits scale p = .ok (n, q)) : p.Takes q := by
  unfold scaledNumber at h
  split at h
  · simp at h
  · simp only [Except.ok.injEq, Prod.mk.injEq] at h
    exact h.2 ▸ .refl p

def readExponentDigits (negative up : Bool) (digits : Nat) (scale : Int) (p : Cursor) :
    Except Stop (JsonNumber × Cursor) :=
  match p.rest with
  | [] => p.stop .eofInValue
  | c :: _ =>
    if !c.isDigit then Cursor.stop ⟨p.rest, p.offset + 1⟩ .invalidNumber
    else
      let text := leadingDigits p.rest
      let exponent := text.foldl (fun n c => n * 10 + digitValue c) 0
      let q := p.nextN text.length
      if exponentLimit ≤ exponent then
        let fits := (List.range (text.length + 1)).takeWhile fun n =>
          (text.take n).foldl (fun n c => n * 10 + digitValue c) 0 < exponentLimit
        if digits ≠ 0 ∧ up then (p.nextN fits.length).stop .numberOutOfRange
        else .ok (.double ⟨negative, 0, 0⟩, q)
      else
        let total := if up then scale + exponent else scale - exponent
        let total := max (-(exponentLimit : Int)) (min total (exponentLimit - 1))
        scaledNumber negative digits total q

def readExponentSign (p : Cursor) : Bool × Cursor :=
  match p.rest with
  | '+' :: _ => (true, p.next)
  | '-' :: _ => (false, p.next)
  | _ => (true, p)

theorem readExponent_eq (negative : Bool) (digits : Nat) (scale : Int) (p : Cursor) :
    readExponent negative digits scale p =
      readExponentDigits negative (readExponentSign p.next).1 digits scale
        (readExponentSign p.next).2 := rfl

theorem takes_readExponentSign (p : Cursor) : p.Takes (readExponentSign p).2 := by
  unfold readExponentSign
  split
  · rename_i hp
    exact .next hp (by decide)
  · rename_i hp
    exact .next hp (by decide)
  · exact .refl p

theorem takes_of_readExponentDigits {negative up : Bool} {digits : Nat} {scale : Int}
    {p q : Cursor} {n : JsonNumber}
    (h : readExponentDigits negative up digits scale p = .ok (n, q)) : p.Takes q := by
  unfold readExponentDigits at h
  split at h
  · simp at h
  · split at h
    · simp at h
    · simp only at h
      split at h
      · split at h
        · simp at h
        · simp only [Except.ok.injEq, Prod.mk.injEq] at h
          exact h.2 ▸ .digits p
      · exact (Takes.digits p).trans (takes_of_scaledNumber h)

theorem takes_of_readExponent {negative : Bool} {digits : Nat} {scale : Int} {p q : Cursor}
    {n : JsonNumber} {c : Char} {cs : List Char} (hp : p.rest = c :: cs)
    (hc : isNumberPart c = true) (h : readExponent negative digits scale p = .ok (n, q)) :
    p.Takes q := by
  rw [readExponent_eq] at h
  have hsign := takes_readExponentSign p.next
  exact ((Takes.next hp hc).trans hsign).trans (takes_of_readExponentDigits h)

theorem takes_of_readScaled {negative : Bool} {digits : Nat} {scale : Int} {p q : Cursor}
    {n : JsonNumber} (h : readScaled negative digits scale p = .ok (n, q)) : p.Takes q := by
  unfold readScaled at h
  split at h
  · rename_i hp
    exact takes_of_readExponent hp (by decide) h
  · rename_i hp
    exact takes_of_readExponent hp (by decide) h
  · exact takes_of_scaledNumber h

theorem takes_of_readFraction {negative : Bool} {digits : Nat} {scale : Int} {p q : Cursor}
    {n : JsonNumber} {cs : List Char} (hp : p.rest = '.' :: cs)
    (h : readFraction negative digits scale p = .ok (n, q)) : p.Takes q := by
  refine (Takes.next hp (by decide)).trans ?_
  unfold readFraction at h
  simp only at h
  split at h
  · simp at h
  · exact (Takes.digits p.next).trans (takes_of_readScaled h)

/-- A number that was read consists of its parts. -/
theorem takes_of_readNumber {negative : Bool} {p q : Cursor} {n : JsonNumber}
    (h : readNumber negative p = .ok (n, q)) : p.Takes q := by
  unfold readNumber at h
  split at h
  · simp at h
  · split at h
    · simp at h
    · split at h
      · simp at h
      · refine (Takes.digits p).trans ?_
        simp only at h
        split at h
        · rename_i hp
          exact takes_of_readFraction hp h
        · rename_i hp
          exact takes_of_readExponent hp (by decide) h
        · rename_i hp
          exact takes_of_readExponent hp (by decide) h
        · split at h
          · exact takes_of_scaledNumber h
          · split at h
            · simp only [Except.ok.injEq, Prod.mk.injEq] at h
              exact h.2 ▸ .refl _
            · split at h
              · exact takes_of_scaledNumber h
              · simp only [Except.ok.injEq, Prod.mk.injEq] at h
                exact h.2 ▸ .refl _

theorem isNumberPart_of_mem_repr {n : Nat} {c : Char} (h : c ∈ (Nat.repr n).toList) :
    isNumberPart c = true := by
  have hd : c ∈ Nat.toDigits 10 n := by simpa [Nat.repr] using h
  simp [isNumberPart, Nat.isDigit_of_mem_toDigits (by decide) (by decide) hd]

theorem isNumberPart_of_mem_layout {layout : Decimal.Layout} {negative : Bool}
    {x : Decimal.Double.Digits} {c : Char} (h : c ∈ (layout.text negative x).toList) :
    isNumberPart c = true := by
  -- The three sorts of parts: digits of a number, zeros, and single marks.
  have hdigits : ∀ {n : Nat} {part : List Char}, part ⊆ (Nat.repr n).toList → c ∈ part →
      isNumberPart c = true := fun hs hc => isNumberPart_of_mem_repr (hs hc)
  have hzeros : ∀ {n : Nat}, c ∈ List.replicate n '0' → isNumberPart c = true := by
    intro n hc
    rw [(List.mem_replicate.1 hc).2]
    decide
  have hmarks : ∀ {marks : List Char}, marks.all isNumberPart = true → c ∈ marks →
      isNumberPart c = true := fun hm hc => List.all_eq_true.1 hm c hc
  have hall : ∀ {n : Nat}, c ∈ (Nat.repr n).toList → isNumberPart c = true :=
    isNumberPart_of_mem_repr
  have htake : ∀ {n m : Nat}, c ∈ (Nat.repr n).toList.take m → isNumberPart c = true :=
    hdigits (List.take_subset ..)
  have hdrop : ∀ {n m : Nat}, c ∈ (Nat.repr n).toList.drop m → isNumberPart c = true :=
    hdigits (List.drop_subset ..)
  have hbody : ∀ {body : List Char}, (c ∈ body → isNumberPart c = true) →
      c ∈ (if negative then '-' :: body else body) → isNumberPart c = true := by
    intro body hb hc
    split at hc
    · rcases List.mem_cons.1 hc with rfl | hc
      · decide
      · exact hb hc
    · exact hb hc
  simp only [Decimal.Layout.text, String.toList_ofList] at h
  refine hbody ?_ h
  intro hc
  split at hc
  · exact hmarks (by decide) hc
  · split at hc
    · split at hc
      · simp only [List.mem_append] at hc
        rcases hc with (hc | hc) | hc
        · exact hall hc
        · exact hzeros hc
        · exact hmarks (by decide) hc
      · split at hc
        · simp only [List.mem_append] at hc
          rcases hc with (hc | hc) | hc
          · exact htake hc
          · exact hmarks (by decide) hc
          · exact hdrop hc
        · simp only [List.mem_append] at hc
          rcases hc with (hc | hc) | hc
          · exact hmarks (by decide) hc
          · exact hzeros hc
          · exact hall hc
    · simp only [List.mem_append] at hc
      rcases hc with ((hc | hc) | hc) | hc
      · exact htake hc
      · split at hc
        · cases hc
        · rcases List.mem_cons.1 hc with rfl | hc
          · decide
          · exact hdrop hc
      · split at hc
        · exact hmarks (by decide) hc
        · exact hmarks (by decide) hc
      · exact hall hc

/-- A number is written with parts of numbers. -/
theorem isNumberPart_of_mem_numberText {n : JsonNumber} {c : Char}
    (h : c ∈ (numberText n).toList) : isNumberPart c = true := by
  cases n with
  | double d => exact isNumberPart_of_mem_layout h
  | whole n =>
    cases n with
    | ofNat n => exact isNumberPart_of_mem_repr h
    | negSucc n =>
      have hc : c = '-' ∨ c ∈ (Nat.repr (n + 1)).toList := by
        simpa [numberText, toString, Int.repr] using h
      rcases hc with rfl | hc
      · decide
      · exact isNumberPart_of_mem_repr hc

theorem repr_ne_nil (n : Nat) : (Nat.repr n).toList ≠ [] := by
  simp [Nat.repr, Nat.toDigits_ne_nil]

theorem layout_ne_nil (layout : Decimal.Layout) (negative : Bool) (x : Decimal.Double.Digits) :
    (layout.text negative x).toList ≠ [] := by
  have hbody : ∀ {body : List Char}, body ≠ [] → (if negative then '-' :: body else body) ≠ [] := by
    intro body hb
    split
    · simp
    · exact hb
  simp only [Decimal.Layout.text, String.toList_ofList]
  apply hbody
  split
  · simp
  · split
    · split
      · simp
      · split <;> simp
    · simp

/-- A number is written with at least one character. -/
theorem numberText_ne_nil (n : JsonNumber) : (numberText n).toList ≠ [] := by
  cases n with
  | double d => exact layout_ne_nil numberLayout d.negative d.shortest
  | whole n =>
    cases n with
    | ofNat n => exact repr_ne_nil n
    | negSucc n => simp [numberText, toString, Int.repr]

theorem hexValue?_hexDigit : ∀ n < 16, hexValue? (hexDigit n) = some n := by decide

/-- Reading a character that was written by its number. -/
theorem readUnicode_eq_ok {p q : Cursor} {c d : Char} {cs : List Char} (hd : d.toNat < 0x20)
    (hp : p.rest = '0' :: '0' :: hexDigit (d.toNat / 16) :: hexDigit (d.toNat % 16) :: cs)
    (h : readUnicode p = .ok (c, q)) : c = d ∧ q.rest = cs := by
  have hhigh := hexValue?_hexDigit (d.toNat / 16) (by omega)
  have hlow := hexValue?_hexDigit (d.toNat % 16) (by omega)
  have hzero : hexValue? '0' = some 0 := by decide
  have hvalue : hexValue4? p.rest = some d.toNat := by
    simp only [hp, hexValue4?, hhigh, hlow, hzero, bind, Option.bind, pure]
    congr 1
    omega
  unfold readUnicode at h
  obtain ⟨⟨n, r⟩, hr, h⟩ := bind_eq_ok_iff.1 h
  unfold readHex at hr
  split at hr
  · simp at hr
  · simp only [hvalue, Except.ok.injEq, Prod.mk.injEq] at hr
    obtain ⟨rfl, rfl⟩ := hr
    have hplain : ¬ (0xDC00 ≤ d.toNat ∧ d.toNat ≤ 0xDFFF) := by omega
    have hsmall : d.toNat < 0xD800 := by omega
    simp only [Bool.and_eq_true, decide_eq_true_eq, hplain, if_false, Bool.or_eq_true, hsmall,
      true_or, if_true, pure, Except.pure, Except.ok.injEq, Prod.mk.injEq] at h
    refine ⟨?_, ?_⟩
    · rw [← h.1, Char.ofNat_toNat]
    · rw [← h.2, Cursor.nextN_rest, hp]
      rfl

/-- How a character is written: by a letter, by its number, or as itself. -/
theorem escapeChar_cases (c : Char) :
    (∃ e, escapeChar c = ['\\', e] ∧ e ≠ 'u' ∧ escapeOf? e = some c) ∨
    (c.toNat < 0x20 ∧ escapeChar c =
      ['\\', 'u', '0', '0', hexDigit (c.toNat / 16), hexDigit (c.toNat % 16)]) ∨
    (escapeChar c = [c] ∧ c ≠ '\x22' ∧ c ≠ '\\' ∧ ¬ c.toNat < 0x20) := by
  have hletter : ∀ e, escapeChar c = ['\\', e] → e ≠ 'u' → escapeOf? e = some c →
      ∃ e, escapeChar c = ['\\', e] ∧ e ≠ 'u' ∧ escapeOf? e = some c :=
    fun e h1 h2 h3 => ⟨e, h1, h2, h3⟩
  by_cases hquote : c = '\x22'
  · subst hquote
    exact .inl (hletter '\x22' rfl (by decide) rfl)
  by_cases hslash : c = '\\'
  · subst hslash
    exact .inl (hletter '\\' rfl (by decide) rfl)
  by_cases hb : c = '\x08'
  · subst hb
    exact .inl (hletter 'b' rfl (by decide) rfl)
  by_cases hf : c = '\x0c'
  · subst hf
    exact .inl (hletter 'f' rfl (by decide) rfl)
  by_cases hn : c = '\n'
  · subst hn
    exact .inl (hletter 'n' rfl (by decide) rfl)
  by_cases hr : c = '\r'
  · subst hr
    exact .inl (hletter 'r' rfl (by decide) rfl)
  by_cases ht : c = '\t'
  · subst ht
    exact .inl (hletter 't' rfl (by decide) rfl)
  by_cases hcontrol : c.toNat < 0x20
  · refine .inr (.inl ⟨hcontrol, ?_⟩)
    simp [escapeChar, hquote, hslash, hb, hf, hn, hr, ht, hcontrol]
  · refine .inr (.inr ⟨?_, hquote, hslash, hcontrol⟩)
    simp [escapeChar, hquote, hslash, hb, hf, hn, hr, ht, hcontrol]

/-- A string that was written is read back. -/
theorem readString_eq_ok {fuel : Nat} {done s rest : List Char} {p q : Cursor} {t : String}
    (hp : p.rest = s.flatMap escapeChar ++ '\x22' :: rest)
    (h : readString fuel done p = .ok (t, q)) :
    t = String.ofList (done.reverse ++ s) ∧ q.rest = rest := by
  induction fuel generalizing done s p with
  | zero => simp [readString] at h
  | succ fuel ih =>
    cases s with
    | nil =>
      have hp : p.rest = '\x22' :: rest := hp
      rw [readString, hp] at h
      simp only [Except.ok.injEq, Prod.mk.injEq] at h
      refine ⟨by simp [← h.1], ?_⟩
      rw [← h.2, Cursor.next_rest hp]
    | cons c s =>
      have hrest : ∀ {r : Cursor}, r.rest = s.flatMap escapeChar ++ '\x22' :: rest →
          readString fuel (c :: done) r = .ok (t, q) →
          t = String.ofList (done.reverse ++ c :: s) ∧ q.rest = rest := by
        intro r hr hread
        have := ih hr hread
        simpa using this
      rw [List.flatMap_cons, List.append_assoc] at hp
      rcases escapeChar_cases c with ⟨e, he, hu, hc⟩ | ⟨hcontrol, he⟩ | ⟨he, hquote, hslash, hplain⟩
      · rw [he] at hp
        have hnext : (p.nextN 2).rest = s.flatMap escapeChar ++ '\x22' :: rest := by simp [hp]
        rw [readString, hp] at h
        simp only [List.cons_append, List.nil_append, hc] at h
        exact hrest hnext h
      · rw [he] at hp
        have hnext : (p.nextN 2).rest = '0' :: '0' :: hexDigit (c.toNat / 16) ::
            hexDigit (c.toNat % 16) :: (s.flatMap escapeChar ++ '\x22' :: rest) := by simp [hp]
        rw [readString, hp] at h
        simp only [List.cons_append, List.nil_append] at h
        obtain ⟨⟨d, r⟩, hd, h⟩ := bind_eq_ok_iff.1 h
        obtain ⟨rfl, hr⟩ := readUnicode_eq_ok hcontrol hnext hd
        exact hrest hr h
      · rw [he, List.singleton_append] at hp
        have hnext := Cursor.next_rest hp
        rw [readString, hp] at h
        split at h
        · rename_i heq
          cases heq
        · rename_i heq
          exact absurd (List.cons.inj heq).1 hquote
        · rename_i heq
          exact absurd (List.cons.inj heq).1 hslash
        · rename_i heq
          obtain ⟨rfl, -⟩ := List.cons.inj heq
          simp only [hplain, if_false] at h
          exact hrest hnext h

end Codemod.Json
