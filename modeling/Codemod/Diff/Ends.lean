/-!
What two lists have in common at their ends.
-/
namespace Codemod.Diff

variable {α : Type} [DecidableEq α]

/-- How many items two lists have in common at their front. -/
def commonFront : List α → List α → Nat
  | a :: as, b :: bs => if a = b then commonFront as bs + 1 else 0
  | _, _ => 0

def commonBack (as bs : List α) : Nat := commonFront as.reverse bs.reverse

theorem take_commonFront (as bs : List α) :
    as.take (commonFront as bs) = bs.take (commonFront as bs) := by
  fun_induction commonFront as bs with
  | case1 as b bs ih => simp [ih]
  | case2 => simp
  | case3 => simp

theorem commonFront_le_left (as bs : List α) : commonFront as bs ≤ as.length := by
  fun_induction commonFront as bs with
  | case1 as b bs ih => simp [ih]
  | case2 => simp
  | case3 => simp

theorem commonFront_le_right (as bs : List α) : commonFront as bs ≤ bs.length := by
  fun_induction commonFront as bs with
  | case1 as b bs ih => simp [ih]
  | case2 => simp
  | case3 => simp

/-- As many items as two lists have in common at their front, and no more, are the same there. -/
theorem le_commonFront_iff {as bs : List α} {n : Nat} : n ≤ commonFront as bs ↔
    n ≤ as.length ∧ n ≤ bs.length ∧ as.take n = bs.take n := by
  constructor
  · intro h
    have htake := congrArg (List.take n) (take_commonFront as bs)
    rw [List.take_take, List.take_take, Nat.min_eq_left h] at htake
    exact ⟨Nat.le_trans h (commonFront_le_left as bs),
      Nat.le_trans h (commonFront_le_right as bs), htake⟩
  · rintro ⟨hleft, hright, hsame⟩
    induction as generalizing bs n with
    | nil => exact Nat.le_trans hleft (Nat.zero_le _)
    | cons a as ih =>
      cases n with
      | zero => exact Nat.zero_le _
      | succ n =>
        cases bs with
        | nil => simp at hright
        | cons b bs =>
          simp only [List.take_succ_cons, List.cons.injEq] at hsame
          simp only [List.length_cons, Nat.add_le_add_iff_right] at hleft hright
          rw [commonFront, if_pos hsame.1]
          exact Nat.succ_le_succ (ih hleft hright hsame.2)

/-- The same at the end of two lists. -/
theorem le_commonBack_iff {as bs : List α} {n : Nat} : n ≤ commonBack as bs ↔
    n ≤ as.length ∧ n ≤ bs.length ∧ as.drop (as.length - n) = bs.drop (bs.length - n) := by
  rw [commonBack, le_commonFront_iff, List.length_reverse, List.length_reverse, List.take_reverse,
    List.take_reverse, List.reverse_inj]

/-- The last items, as many as two lists have in common there, are the same. -/
theorem drop_commonBack (as bs : List α) :
    as.drop (as.length - commonBack as bs) = bs.drop (bs.length - commonBack as bs) := by
  have h := congrArg List.reverse (take_commonFront as.reverse bs.reverse)
  simpa [commonBack, List.reverse_take] using h

end Codemod.Diff
