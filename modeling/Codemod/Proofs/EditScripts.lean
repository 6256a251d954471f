import Codemod.Diff.Hunk

/-!
The scripts between two lists.

The search cuts the two lists and puts together what it finds for the parts, and the passes that
follow move changes about. `Rewrites` is what every move keeps: the list before, the list after, and
that no piece of unchanged items is empty.
-/
namespace Codemod.Diff

variable {α : Type}

namespace Script

@[simp] theorem old_nil : old ([] : Script α) = [] := rfl

@[simp] theorem new_nil : new ([] : Script α) = [] := rfl

@[simp] theorem old_cons (piece : Piece α) (rest : Script α) :
    old (piece :: rest) = piece.old ++ old rest := by
  simp [old]

@[simp] theorem new_cons (piece : Piece α) (rest : Script α) :
    new (piece :: rest) = piece.new ++ new rest := by
  simp [new]

@[simp] theorem old_append (a b : Script α) : old (a ++ b) = old a ++ old b := by
  simp [old]

@[simp] theorem new_append (a b : Script α) : new (a ++ b) = new a ++ new b := by
  simp [new]

/-- Nowhere an empty piece of unchanged items. -/
def Solid (script : Script α) : Prop := .keep [] ∉ script

@[simp] theorem solid_nil : Solid ([] : Script α) := by simp [Solid]

@[simp] theorem solid_cons {piece : Piece α} {rest : Script α} :
    Solid (piece :: rest) ↔ piece ≠ .keep [] ∧ Solid rest := by
  simp [Solid, eq_comm]

@[simp] theorem solid_append {a b : Script α} : Solid (a ++ b) ↔ Solid a ∧ Solid b := by
  simp [Solid, not_or]

@[simp] theorem solid_reverse {script : Script α} : Solid script.reverse ↔ Solid script := by
  simp [Solid]

/-- A script for the same two lists, without a new empty piece. -/
structure Rewrites (script script' : Script α) : Prop where
  old : script'.old = script.old
  new : script'.new = script.new
  solid : script.Solid → script'.Solid

theorem Rewrites.refl (script : Script α) : script.Rewrites script := ⟨rfl, rfl, id⟩

theorem Rewrites.trans {a b c : Script α} (h : a.Rewrites b) (h' : b.Rewrites c) :
    a.Rewrites c :=
  ⟨h'.old.trans h.old, h'.new.trans h.new, fun hs => h'.solid (h.solid hs)⟩

end Script

open Script

theorem unlessEmpty_keep (items : List α) : (unlessEmpty (.keep items)).old = items ∧
    (unlessEmpty (.keep items)).new = items ∧ Solid (unlessEmpty (.keep items)) := by
  cases items <;> simp [unlessEmpty, Piece.items, Piece.old, Piece.new]

theorem unlessEmpty_delete (items : List α) : (unlessEmpty (.delete items)).old = items ∧
    (unlessEmpty (.delete items)).new = [] ∧ Solid (unlessEmpty (.delete items)) := by
  cases items <;> simp [unlessEmpty, Piece.items, Piece.old, Piece.new]

theorem unlessEmpty_insert (items : List α) : (unlessEmpty (.insert items)).old = [] ∧
    (unlessEmpty (.insert items)).new = items ∧ Solid (unlessEmpty (.insert items)) := by
  cases items <;> simp [unlessEmpty, Piece.items, Piece.old, Piece.new]

/-- A script that leads from one list to another. -/
structure Leads (as bs : List α) (script : Script α) : Prop where
  old : script.old = as
  new : script.new = bs
  solid : script.Solid

theorem Leads.append {as bs cs ds : List α} {s t : Script α} (h : Leads as bs s)
    (h' : Leads cs ds t) : Leads (as ++ cs) (bs ++ ds) (s ++ t) where
  old := by rw [old_append, h.old, h'.old]
  new := by rw [new_append, h.new, h'.new]
  solid := solid_append.2 ⟨h.solid, h'.solid⟩

theorem leads_keep (items : List α) : Leads items items (unlessEmpty (.keep items)) :=
  ⟨(unlessEmpty_keep items).1, (unlessEmpty_keep items).2.1, (unlessEmpty_keep items).2.2⟩

/-- All that was goes, and all that comes is new. -/
theorem leads_replace (as bs : List α) :
    Leads as bs (unlessEmpty (.delete as) ++ unlessEmpty (.insert bs)) where
  old := by rw [old_append, (unlessEmpty_delete as).1, (unlessEmpty_insert bs).1, List.append_nil]
  new := by
    rw [new_append, (unlessEmpty_delete as).2.1, (unlessEmpty_insert bs).2.1, List.nil_append]
  solid := solid_append.2 ⟨(unlessEmpty_delete as).2.2, (unlessEmpty_insert bs).2.2⟩

section search

variable [DecidableEq α]

/-- What is found for the parts that are left between the common ends of two lists. -/
def innerScript (fuel : Nat) (as bs : List α) : Script α :=
  if as.isEmpty || bs.isEmpty then unlessEmpty (.delete as) ++ unlessEmpty (.insert bs)
  else
    let (x, y) := middle as bs
    shortScript fuel (as.take x) (bs.take y) ++ shortScript fuel (as.drop x) (bs.drop y)

/-- Wherever the lists are cut. -/
theorem leads_innerScript {fuel : Nat}
    (h : ∀ as bs : List α, Leads as bs (shortScript fuel as bs)) (as bs : List α) :
    Leads as bs (innerScript fuel as bs) := by
  unfold innerScript
  split
  · exact leads_replace as bs
  · obtain ⟨x, y⟩ := middle as bs
    simpa using (h (as.take x) (bs.take y)).append (h (as.drop x) (bs.drop y))

/-- The script that is found leads from the one list to the other. -/
theorem leads_shortScript (fuel : Nat) (as bs : List α) : Leads as bs (shortScript fuel as bs) := by
  induction fuel generalizing as bs with
  | zero => exact leads_replace as bs
  | succ fuel ih =>
    let front := commonFront as bs
    let as' := as.drop front
    let bs' := bs.drop front
    let back := commonBack as' bs'
    have hinner := leads_innerScript ih (as'.take (as'.length - back))
      (bs'.take (bs'.length - back))
    have hwhole := ((leads_keep (as.take front)).append hinner).append
      (leads_keep (as'.drop (as'.length - back)))
    have has : as.take front ++ as'.take (as'.length - back) ++
        as'.drop (as'.length - back) = as := by
      rw [List.append_assoc, List.take_append_drop, List.take_append_drop]
    have hbs : as.take front ++ bs'.take (bs'.length - back) ++
        as'.drop (as'.length - back) = bs := by
      rw [take_commonFront, drop_commonBack, List.append_assoc, List.take_append_drop,
        List.take_append_drop]
    rw [has, hbs] at hwhole
    exact hwhole

end search

/-- A piece that takes items away or brings some. -/
def Piece.IsChange (piece : Piece α) : Prop := isDelete piece || isInsert piece

theorem Piece.isChange_cases {piece : Piece α} (h : piece.IsChange) :
    (∃ items, piece = .delete items) ∨ ∃ items, piece = .insert items := by
  cases piece with
  | keep items => cases h
  | delete items => exact .inl ⟨items, rfl⟩
  | insert items => exact .inr ⟨items, rfl⟩

theorem Piece.isChange_of_ne_keep {piece : Piece α} (h : ∀ items, piece ≠ .keep items) :
    piece.IsChange := by
  cases piece with
  | keep items => exact (h items rfl).elim
  | delete => rfl
  | insert => rfl

/-- What is rewritten may stand anywhere. -/
theorem Script.Rewrites.within {a b : Script α} (h : a.Rewrites b) (front back : Script α) :
    (front ++ a ++ back).Rewrites (front ++ b ++ back) where
  old := by simp only [old_append, h.old]
  new := by simp only [new_append, h.new]
  solid := by
    simp only [solid_append]
    exact fun ⟨⟨hf, ha⟩, hb⟩ => ⟨⟨hf, h.solid ha⟩, hb⟩

namespace Focus

theorem rewrites_keepBefore (items : List α) (script : Script α) :
    Rewrites (.keep items :: script) (keepBefore items script) := by
  unfold keepBefore
  split
  · constructor <;> simp_all [Piece.old, Piece.new]
  · exact .refl _

theorem rewrites_keepAfter (items : List α) (script : Script α) :
    Rewrites (script.reverse ++ [.keep items]) (keepAfter items script).reverse := by
  unfold keepAfter
  split
  · constructor <;> simp_all [Piece.old, Piece.new]
  · rw [List.reverse_cons]
    exact .refl _

theorem rewrites_drop : Rewrites ([.keep []] : Script α) [] := by
  constructor <;> simp [Piece.old, Piece.new]

/-- A change moves up past items that equal its last ones. -/
theorem rewrites_up {piece : Piece α} (hc : piece.IsChange) {moved : List α} (hm : moved ≠ [])
    (left rest : List α) : Rewrites [.keep (left ++ moved), withItems piece (rest ++ moved)]
      (unlessEmpty (.keep left) ++ [withItems piece (moved ++ rest), .keep moved]) := by
  obtain ⟨hold, hnew, hsolid⟩ := unlessEmpty_keep left
  obtain ⟨items, rfl⟩ | ⟨items, rfl⟩ := Piece.isChange_cases hc
  · constructor <;> simp [Piece.old, Piece.new, withItems, hold, hnew, hsolid, hm]
  · constructor <;> simp [Piece.old, Piece.new, withItems, hold, hnew, hsolid, hm]

/-- The same with what is around the two pieces. -/
theorem rewrites_slideUp {piece : Piece α} (hc : piece.IsChange) {moved : List α} (hm : moved ≠ [])
    (left rest : List α) (above below : Script α) :
    (script ⟨.keep (left ++ moved) :: above, withItems piece (rest ++ moved), below⟩).Rewrites
      (script ⟨if left.isEmpty then above else .keep left :: above,
        withItems piece (moved ++ rest), keepBefore moved below⟩) := by
  have hleft : (if left.isEmpty then above else .keep left :: above).reverse =
      above.reverse ++ unlessEmpty (.keep left) := by
    cases left <;> simp [unlessEmpty, Piece.items]
  have hmove := (rewrites_up hc hm left rest).within above.reverse below
  have hbelow := (rewrites_keepBefore moved below).within
    (above.reverse ++ unlessEmpty (.keep left) ++ [withItems piece (moved ++ rest)]) []
  simp only [script, hleft, List.append_assoc, List.cons_append, List.nil_append,
    List.append_nil, List.reverse_cons] at hmove hbelow ⊢
  exact hmove.trans hbelow

/-- A change moves down past items that equal its first ones. -/
theorem rewrites_down {piece : Piece α} (hc : piece.IsChange) {moved : List α} (hm : moved ≠ [])
    (rest right : List α) : Rewrites [withItems piece (moved ++ rest), .keep (moved ++ right)]
      ([.keep moved, withItems piece (rest ++ moved)] ++ unlessEmpty (.keep right)) := by
  obtain ⟨hold, hnew, hsolid⟩ := unlessEmpty_keep right
  obtain ⟨items, rfl⟩ | ⟨items, rfl⟩ := Piece.isChange_cases hc
  · constructor <;> simp [Piece.old, Piece.new, withItems, hold, hnew, hsolid, hm]
  · constructor <;> simp [Piece.old, Piece.new, withItems, hold, hnew, hsolid, hm]

/-- The same with what is around the two pieces. -/
theorem rewrites_slideDown {piece : Piece α} (hc : piece.IsChange) {moved : List α}
    (hm : moved ≠ []) (rest right : List α) (above below : Script α) :
    (script ⟨above, withItems piece (moved ++ rest), .keep (moved ++ right) :: below⟩).Rewrites
      (script ⟨keepAfter moved above, withItems piece (rest ++ moved),
        if right.isEmpty then below else .keep right :: below⟩) := by
  have hright : (if right.isEmpty then below else .keep right :: below) =
      unlessEmpty (.keep right) ++ below := by
    cases right <;> simp [unlessEmpty, Piece.items]
  have hmove := (rewrites_down hc hm rest right).within above.reverse below
  have habove := (rewrites_keepAfter moved above).within []
    (withItems piece (rest ++ moved) :: (unlessEmpty (.keep right) ++ below))
  simp only [script, hright, List.append_assoc, List.cons_append, List.nil_append] at hmove habove ⊢
  exact hmove.trans habove

/-- Two changes of the same sort are one. -/
theorem rewrites_join {a b : Piece α} (h : sameSort a b = true) :
    Rewrites [a, b] [withItems a (a.items ++ b.items)] := by
  cases a <;> cases b <;> cases h <;>
    constructor <;> simp [Piece.old, Piece.new, Piece.items, withItems]

/-- Two changes of different sorts trade places. -/
theorem rewrites_swap {a b : Piece α} (ha : a.IsChange) (hb : b.IsChange)
    (h : sameSort a b = false) : Rewrites [a, b] [b, a] := by
  obtain ⟨as, rfl⟩ | ⟨as, rfl⟩ := Piece.isChange_cases ha <;>
    obtain ⟨bs, rfl⟩ | ⟨bs, rfl⟩ := Piece.isChange_cases hb <;> cases h <;>
      constructor <;> simp [Piece.old, Piece.new]

theorem sameSort_comm (a b : Piece α) : sameSort a b = sameSort b a := by
  cases a <;> cases b <;> rfl

/-- Two changes of the same sort hold their items alike. -/
theorem withItems_of_sameSort {a b : Piece α} (h : sameSort a b = true) (items : List α) :
    withItems a items = withItems b items := by
  cases a <;> cases b <;> cases h <;> rfl

theorem isChange_withItems {piece : Piece α} (h : piece.IsChange) (items : List α) :
    (withItems piece items).IsChange := by
  cases piece <;> exact h

theorem withItems_items (piece : Piece α) : withItems piece piece.items = piece := by
  cases piece <;> rfl

/-- What every step keeps, any number of steps keeps. -/
theorem rewrites_steps {step? : Focus α → Option (Focus α)}
    (hstep : ∀ {f g : Focus α}, f.current.IsChange → step? f = some g →
      f.script.Rewrites g.script ∧ g.current.IsChange)
    (fuel : Nat) {f : Focus α} (hc : f.current.IsChange) :
    f.script.Rewrites (steps step? fuel f).script ∧ (steps step? fuel f).current.IsChange := by
  induction fuel generalizing f with
  | zero => exact ⟨.refl _, hc⟩
  | succ fuel ih =>
    rw [steps]
    split
    · exact ⟨.refl _, hc⟩
    · rename_i g hg
      obtain ⟨hfirst, hchange⟩ := hstep hc hg
      obtain ⟨hrest, hlast⟩ := ih hchange
      exact ⟨hfirst.trans hrest, hlast⟩

variable [DecidableEq α]

/-- Two lists cut in front of what they have in common at their end. -/
theorem cut_commonBack (own items : List α) : ∃ rest left moved,
    own.take (own.length - commonBack own items) = rest ∧
      items.take (items.length - commonBack own items) = left ∧
      items.drop (items.length - commonBack own items) = moved ∧
      own = rest ++ moved ∧ items = left ++ moved ∧ moved.length = commonBack own items := by
  refine ⟨_, _, _, rfl, rfl, rfl, ?_, (List.take_append_drop ..).symm, ?_⟩
  · rw [← drop_commonBack, List.take_append_drop]
  · have hle := commonFront_le_right own.reverse items.reverse
    rw [← commonBack, List.length_reverse] at hle
    rw [List.length_drop]
    omega

/-- Two lists cut behind what they have in common at their front. -/
theorem cut_commonFront (own items : List α) : ∃ rest right moved,
    own.drop (commonFront own items) = rest ∧ items.drop (commonFront own items) = right ∧
      items.take (commonFront own items) = moved ∧
      own = moved ++ rest ∧ items = moved ++ right ∧ moved.length = commonFront own items := by
  refine ⟨_, _, _, rfl, rfl, rfl, ?_, (List.take_append_drop ..).symm, ?_⟩
  · rw [← take_commonFront, List.take_append_drop]
  · rw [List.length_take, Nat.min_eq_left (commonFront_le_right own items)]

theorem rewrites_stepUp {f g : Focus α} (hc : f.current.IsChange) (h : f.stepUp? = some g) :
    f.script.Rewrites g.script ∧ g.current.IsChange := by
  obtain ⟨above, current, below⟩ := f
  simp only [stepUp?] at h
  split at h
  · cases h
  · rename_i items above'
    split at h
    · split at h
      · rename_i hn he
        obtain rfl := Option.some.inj h
        obtain rfl := List.isEmpty_iff.1 he
        refine ⟨?_, hc⟩
        simpa [script] using rewrites_drop.within above'.reverse (current :: below)
      · cases h
    · rename_i hn
      obtain rfl := Option.some.inj h
      refine ⟨?_, isChange_withItems hc _⟩
      obtain ⟨rest, left, moved, hrest, hleft, hmoved, hown, hitems, hlength⟩ :=
        cut_commonBack current.items items
      have hne : moved ≠ [] := by
        rintro rfl
        exact hn hlength.symm
      have hslide := rewrites_slideUp hc hne left rest above' below
      rw [← hown, ← hitems, withItems_items] at hslide
      simpa only [hrest, hleft, hmoved] using hslide
  · rename_i piece above' hk
    have hp := Piece.isChange_of_ne_keep hk
    split at h
    · rename_i hs
      obtain rfl := Option.some.inj h
      refine ⟨?_, isChange_withItems hp _⟩
      simpa [script] using (rewrites_join hs).within above'.reverse below
    · rename_i hs
      obtain rfl := Option.some.inj h
      refine ⟨?_, hc⟩
      have hswap := rewrites_swap hp hc (by simpa using hs)
      simpa [script] using hswap.within above'.reverse below

theorem rewrites_stepDown {f g : Focus α} (hc : f.current.IsChange) (h : f.stepDown? = some g) :
    f.script.Rewrites g.script ∧ g.current.IsChange := by
  obtain ⟨above, current, below⟩ := f
  simp only [stepDown?] at h
  split at h
  · cases h
  · rename_i items below'
    split at h
    · split at h
      · rename_i hn he
        obtain rfl := Option.some.inj h
        obtain rfl := List.isEmpty_iff.1 he
        refine ⟨?_, hc⟩
        simpa [script] using rewrites_drop.within (above.reverse ++ [current]) below'
      · cases h
    · rename_i hn
      obtain rfl := Option.some.inj h
      refine ⟨?_, isChange_withItems hc _⟩
      obtain ⟨rest, right, moved, hrest, hright, hmoved, hown, hitems, hlength⟩ :=
        cut_commonFront current.items items
      have hne : moved ≠ [] := by
        rintro rfl
        exact hn hlength.symm
      have hslide := rewrites_slideDown hc hne rest right above below'
      rw [← hown, ← hitems, withItems_items] at hslide
      simpa only [hrest, hright, hmoved] using hslide
  · rename_i piece below' hk
    have hp := Piece.isChange_of_ne_keep hk
    split at h
    · rename_i hs
      obtain rfl := Option.some.inj h
      refine ⟨?_, isChange_withItems hp _⟩
      have hjoin := rewrites_join ((sameSort_comm current piece).trans hs)
      rw [← withItems_of_sameSort hs] at hjoin
      simpa [script] using hjoin.within above.reverse below'
    · rename_i hs
      obtain rfl := Option.some.inj h
      refine ⟨?_, hc⟩
      have hswap := rewrites_swap hc hp (by rw [sameSort_comm]; simpa using hs)
      simpa [script] using hswap.within above.reverse below'

theorem rewrites_settle {f : Focus α} (hc : f.current.IsChange) :
    f.script.Rewrites f.settle.script := by
  obtain ⟨hup, hchange⟩ := rewrites_steps rewrites_stepUp f.script.size hc
  obtain ⟨hdown, -⟩ := rewrites_steps rewrites_stepDown f.script.size hchange
  exact hup.trans hdown

end Focus

variable [DecidableEq α]

theorem rewrites_settleAll (chosen : Piece α → Bool)
    (hchosen : ∀ piece, chosen piece = true → piece.IsChange) (fuel : Nat) (done rest : Script α) :
    Rewrites (done.reverse ++ rest) (settleAll chosen fuel done rest) := by
  induction fuel generalizing done rest with
  | zero => exact .refl _
  | succ fuel ih =>
    cases rest with
    | nil =>
      rw [settleAll, List.append_nil]
      exact .refl _
    | cons piece rest =>
      rw [settleAll]
      split
      · rename_i hp
        have hsettle := @Focus.rewrites_settle _ _ ⟨done, piece, rest⟩ (hchosen piece hp)
        refine hsettle.trans ?_
        simpa [Focus.script] using ih
          ((Focus.settle ⟨done, piece, rest⟩).current :: (Focus.settle ⟨done, piece, rest⟩).above)
          (Focus.settle ⟨done, piece, rest⟩).below
      · simpa using ih (piece :: done) rest

/-- Moving changes about leaves the two lists of a script as they are. -/
theorem rewrites_compact (script : Script α) : script.Rewrites (compact script) := by
  have hdelete := rewrites_settleAll isDelete
    (fun piece h => by simp [Piece.IsChange, h]) ((script.size + 1) * (script.size + 1)) [] script
  have hinsert := rewrites_settleAll isInsert
    (fun piece h => by simp [Piece.IsChange, h]) ((script.size + 1) * (script.size + 1)) []
    (settleAll isDelete ((script.size + 1) * (script.size + 1)) [] script)
  exact hdelete.trans hinsert

/-- The script that the difference of two lists is made of leads from the one to the other. -/
theorem leads_compact (fuel : Nat) (as bs : List α) :
    Leads as bs (compact (shortScript fuel as bs)) := by
  have hfound := leads_shortScript fuel as bs
  have hmoved := rewrites_compact (shortScript fuel as bs)
  exact ⟨hmoved.old.trans hfound.old, hmoved.new.trans hfound.new, hmoved.solid hfound.solid⟩

end Codemod.Diff
