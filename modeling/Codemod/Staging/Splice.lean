import Codemod.Text.Bytes
import Codemod.Diff.Ends

/-!
The single replacement between two texts.

The bytes that both texts have in common at the front are counted, and the count is taken back to a
place that is a boundary of both; then those that the rest of both has in common at the end, in the
same way. `Splice.between?` lacks an answer where a count would be taken below zero or a text cut
where it cannot be, which happens for no two texts: `Splice.isSome_between?`.
-/
namespace Codemod

/-- A replacement of `removed` bytes at `offset`. -/
structure Splice where
  offset : Nat
  removed : Nat
  inserted : String
  deriving DecidableEq, Repr

/-- A number less another one, if it is not the smaller of the two. -/
def minus? (a b : Nat) : Option Nat := if b ≤ a then some (a - b) else none

@[simp] theorem minus?_eq_some_iff {a b d : Nat} : minus? a b = some d ↔ b ≤ a ∧ d = a - b := by
  unfold minus?
  split <;> simp [*, eq_comm]

theorem minus?_of_le {a b : Nat} (h : b ≤ a) : minus? a b = some (a - b) := if_pos h

/-- The first number on the way down from `n` that is accepted. There is no way down from 0. -/
def downTo? (accepts : Nat → Option Bool) : Nat → Option Nat
  | 0 => (accepts 0).bind fun ok => if ok then some 0 else none
  | n + 1 => (accepts (n + 1)).bind fun ok => if ok then some (n + 1) else downTo? accepts n

/-- Whatever answers for all numbers on the way, and accepts 0, accepts one of them. -/
theorem exists_downTo? {accepts : Nat → Option Bool} (h0 : accepts 0 = some true) {n : Nat}
    (h : ∀ m ≤ n, ∃ ok, accepts m = some ok) : ∃ k, downTo? accepts n = some k := by
  induction n with
  | zero => exact ⟨0, by rw [downTo?, h0]; rfl⟩
  | succ n ih =>
    obtain ⟨ok, hok⟩ := h (n + 1) (Nat.le_refl _)
    rw [downTo?, hok]
    cases ok with
    | true => exact ⟨n + 1, rfl⟩
    | false => exact ih fun m hm => h m (by omega)

/-- The number found is accepted, and no greater one on the way is. -/
theorem downTo?_spec {accepts : Nat → Option Bool} {n k : Nat} (h : downTo? accepts n = some k) :
    k ≤ n ∧ accepts k = some true ∧ ∀ m, k < m → m ≤ n → accepts m = some false := by
  induction n with
  | zero =>
    obtain ⟨ok, hok, h⟩ := Option.bind_eq_some_iff.1 h
    cases ok with
    | true =>
      obtain rfl := Option.some.inj h
      exact ⟨Nat.le_refl _, hok, fun m hlt hle => by omega⟩
    | false => cases h
  | succ n ih =>
    obtain ⟨ok, hok, h⟩ := Option.bind_eq_some_iff.1 h
    cases ok with
    | true =>
      obtain rfl := Option.some.inj h
      exact ⟨Nat.le_refl _, hok, fun m hlt hle => by omega⟩
    | false =>
      obtain ⟨hle, haccepts, hbelow⟩ := ih h
      refine ⟨by omega, haccepts, fun m hlt hm => ?_⟩
      by_cases hlast : m = n + 1
      · rw [hlast]
        exact hok
      · exact hbelow m hlt (by omega)

namespace Splice

def fromStart? (old new : String) (n : Nat) : Option Bool :=
  some (Text.isBoundary old n && Text.isBoundary new n)

def fromEnd? (old new : String) (n : Nat) : Option Bool := do
  let inOld ← minus? (Text.size old) n
  let inNew ← minus? (Text.size new) n
  return Text.isBoundary old inOld && Text.isBoundary new inNew

/-- The shortest replacement that makes one text of the other: all but what both have in common at
the front, and at the end of what is left then. -/
def between? (old new : String) : Option Splice := do
  let oldBytes := Text.bytes old.toList
  let newBytes := Text.bytes new.toList
  let front ← downTo? (fromStart? old new) (Diff.commonFront oldBytes newBytes)
  let room ← minus? (min (Text.size old) (Text.size new)) front
  let back ← downTo? (fromEnd? old new) (min room (Diff.commonBack oldBytes newBytes))
  let oldStop ← minus? (Text.size old) back
  let removed ← minus? oldStop front
  let newStop ← minus? (Text.size new) back
  let inserted ← Text.slice? new front newStop
  return ⟨front, removed, inserted⟩

variable {old new : String}

theorem fromStart?_eq_true_iff {n : Nat} : fromStart? old new n = some true ↔
    Text.isBoundary old n = true ∧ Text.isBoundary new n = true := by
  simp [fromStart?]

theorem fromEnd?_of_le {n : Nat} (ho : n ≤ Text.size old) (hn : n ≤ Text.size new) :
    fromEnd? old new n = some (Text.isBoundary old (Text.size old - n) &&
      Text.isBoundary new (Text.size new - n)) := by
  rw [fromEnd?, minus?_of_le ho, minus?_of_le hn]
  rfl

theorem fromEnd?_eq_true_iff {n : Nat} : fromEnd? old new n = some true ↔
    n ≤ Text.size old ∧ n ≤ Text.size new ∧ Text.isBoundary old (Text.size old - n) = true ∧
      Text.isBoundary new (Text.size new - n) = true := by
  constructor
  · intro h
    obtain ⟨inOld, ho, h⟩ := Option.bind_eq_some_iff.1 h
    obtain ⟨inNew, hn, h⟩ := Option.bind_eq_some_iff.1 h
    obtain ⟨hole, rfl⟩ := minus?_eq_some_iff.1 ho
    obtain ⟨hnle, rfl⟩ := minus?_eq_some_iff.1 hn
    exact ⟨hole, hnle, Bool.and_eq_true_iff.1 (Option.some.inj h)⟩
  · rintro ⟨ho, hn, hold, hnew⟩
    rw [fromEnd?_of_le ho hn, hold, hnew]
    rfl

/-- The numbers of bytes that a splice keeps at both ends. -/
structure Keeps (old new : String) (front back : Nat) : Prop where
  atFront : downTo? (fromStart? old new)
    (Diff.commonFront (Text.bytes old.toList) (Text.bytes new.toList)) = some front
  atBack : downTo? (fromEnd? old new) (min (min (Text.size old) (Text.size new) - front)
    (Diff.commonBack (Text.bytes old.toList) (Text.bytes new.toList))) = some back

/-- For all texts there are such numbers. -/
theorem exists_keeps (old new : String) : ∃ front back, Keeps old new front back := by
  have hstart : fromStart? old new 0 = some true :=
    fromStart?_eq_true_iff.2 ⟨Text.isBoundary_zero old, Text.isBoundary_zero new⟩
  have hend : fromEnd? old new 0 = some true := fromEnd?_eq_true_iff.2
    ⟨Nat.zero_le _, Nat.zero_le _, Text.isBoundary_size old, Text.isBoundary_size new⟩
  obtain ⟨front, hfront⟩ := exists_downTo? hstart
    (n := Diff.commonFront (Text.bytes old.toList) (Text.bytes new.toList)) fun m _ => ⟨_, rfl⟩
  obtain ⟨back, hback⟩ := exists_downTo? hend
    (n := min (min (Text.size old) (Text.size new) - front)
      (Diff.commonBack (Text.bytes old.toList) (Text.bytes new.toList)))
    fun m hm => ⟨_, fromEnd?_of_le (by omega) (by omega)⟩
  exact ⟨front, back, hfront, hback⟩

/-- The ends that are kept lie apart, between boundaries of both texts. -/
structure Fits (old new : String) (front back : Nat) : Prop where
  old_le : front + back ≤ Text.size old
  new_le : front + back ≤ Text.size new
  old_start : Text.isBoundary old front = true
  new_start : Text.isBoundary new front = true
  old_stop : Text.isBoundary old (Text.size old - back) = true
  new_stop : Text.isBoundary new (Text.size new - back) = true

variable {front back : Nat}

theorem Keeps.fits (h : Keeps old new front back) : Fits old new front back := by
  obtain ⟨-, hfront, -⟩ := downTo?_spec h.atFront
  obtain ⟨hle, hback, -⟩ := downTo?_spec h.atBack
  obtain ⟨hold, hnew⟩ := fromStart?_eq_true_iff.1 hfront
  obtain ⟨ho, hn, hold', hnew'⟩ := fromEnd?_eq_true_iff.1 hback
  have holdle := Text.le_size_of_isBoundary hold
  have hnewle := Text.le_size_of_isBoundary hnew
  exact ⟨by omega, by omega, hold, hnew, hold', hnew'⟩

/-- What the splice comes to when the kept ends are known. -/
theorem Keeps.between?_eq (h : Keeps old new front back) : between? old new =
    some ⟨front, Text.size old - back - front,
      Text.slice new front (Text.size new - back)⟩ := by
  have hfits := h.fits
  have hold := hfits.old_le
  have hnew := hfits.new_le
  have hroom : minus? (min (Text.size old) (Text.size new)) front =
      some (min (Text.size old) (Text.size new) - front) := minus?_of_le (by omega)
  have hslice : Text.slice? new front (Text.size new - back) =
      some (Text.slice new front (Text.size new - back)) := by
    refine if_pos ?_
    rw [hfits.new_start, hfits.new_stop, Bool.and_self, Bool.true_and, decide_eq_true_eq]
    omega
  have holdStop : minus? (Text.size old) back = some (Text.size old - back) :=
    minus?_of_le (by omega)
  have hnewStop : minus? (Text.size new) back = some (Text.size new - back) :=
    minus?_of_le (by omega)
  have hremoved : minus? (Text.size old - back) front = some (Text.size old - back - front) :=
    minus?_of_le (by omega)
  simp only [between?, h.atFront, hroom, h.atBack, holdStop, hremoved, hnewStop, hslice, bind,
    Option.bind, pure]

/-- There is a splice between any two texts. -/
theorem isSome_between? (old new : String) : (between? old new).isSome = true := by
  obtain ⟨front, back, h⟩ := exists_keeps old new
  rw [h.between?_eq]
  rfl

def between (old new : String) : Splice := (between? old new).get (isSome_between? old new)

theorem between?_eq_some_between (old new : String) :
    between? old new = some (between old new) := (Option.some_get _).symm

theorem Keeps.between_eq (h : Keeps old new front back) : between old new =
    ⟨front, Text.size old - back - front, Text.slice new front (Text.size new - back)⟩ :=
  Option.some.inj ((between?_eq_some_between old new).symm.trans h.between?_eq)

end Splice

end Codemod
