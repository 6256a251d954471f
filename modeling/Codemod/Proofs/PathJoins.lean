import Codemod.Path.Normal
import Codemod.Proofs.PathMaps

/-!
Directories and joined paths, by their components.

A path has a lead, which is the root or `.` or nothing, and a component for every part that is not
idle. The directory of a path has all of its components but the last, and a relative path joined to
a directory adds its own to those. So the normal form of a joined path depends on components only.
-/
namespace Codemod

namespace Text

theorem not_mem_of_mem_split {sep : Char} {cs part : List Char} (h : part ∈ split sep cs) :
    sep ∉ part := by
  induction cs generalizing part with
  | nil => simp_all [split]
  | cons c cs ih =>
    rw [split] at h
    by_cases hc : c = sep
    · rw [if_pos hc] at h
      rcases List.mem_cons.1 h with rfl | h
      · simp
      · exact ih h
    · rw [if_neg hc] at h
      cases hs : split sep cs with
      | nil => exact absurd hs (split_ne_nil sep cs)
      | cons first rest =>
        rw [hs] at h ih
        rcases List.mem_cons.1 h with rfl | h
        · have := ih (List.mem_cons_self ..)
          simp [this, Ne.symm hc]
        · exact ih (List.mem_cons_of_mem _ h)

theorem split_append_cons (sep : Char) (a b : List Char) :
    split sep (a ++ sep :: b) = split sep a ++ split sep b := by
  induction a with
  | nil => simp [split]
  | cons c a ih =>
    by_cases hc : c = sep
    · simp [split, hc, ih]
    · cases hs : split sep a with
      | nil => exact absurd hs (split_ne_nil sep a)
      | cons first rest =>
        rw [hs] at ih
        simp [split, hc, ih, hs]

theorem split_of_not_mem {sep : Char} {cs : List Char} (h : sep ∉ cs) : split sep cs = [cs] := by
  induction cs with
  | nil => rfl
  | cons c cs ih =>
    have hc : c ≠ sep := fun e => h (by simp [e])
    have hcs : sep ∉ cs := fun e => h (by simp [e])
    simp [split, hc, ih hcs]

/-- Parts that were joined are found again. -/
theorem split_join {sep : Char} {parts : List (List Char)} (hne : parts ≠ [])
    (h : ∀ part ∈ parts, sep ∉ part) : split sep (join [sep] parts) = parts := by
  induction parts with
  | nil => exact absurd rfl hne
  | cons part parts ih =>
    have hpart := split_of_not_mem (h part (List.mem_cons_self ..))
    cases parts with
    | nil => simpa [join] using hpart
    | cons next parts =>
      have hrest := ih (by simp) fun p hp => h p (List.mem_cons_of_mem _ hp)
      rw [join, List.append_assoc, List.singleton_append, split_append_cons, hpart, hrest]
      rfl

theorem splitText_joinText {parts : List String} (hne : parts ≠ [])
    (h : ∀ part ∈ parts, '/' ∉ part.toList) : splitText '/' (joinText "/" parts) = parts := by
  have hlists : ∀ part ∈ parts.map String.toList, '/' ∉ part := by simpa using h
  have hsplit := split_join (by simpa using hne) hlists
  have hsep : "/".toList = ['/'] := rfl
  rw [splitText, joinText, String.toList_ofList, hsep, hsplit, List.map_map]
  exact List.map_id'' (fun part => by simp) parts

theorem not_mem_of_mem_splitText {s part : String} (h : part ∈ splitText '/' s) :
    '/' ∉ part.toList := by
  obtain ⟨cs, hcs, rfl⟩ := List.mem_map.1 h
  simpa using not_mem_of_mem_split hcs

theorem splitText_ne_nil (s : String) : splitText '/' s ≠ [] := by
  simp [splitText, split_ne_nil]

end Text

namespace Path

def parts (p : Path) : List String := Text.splitText '/' p.spelling

def named (parts : List String) : List Component :=
  (parts.filter fun part => !isIdle part).map Component.ofPart

def lead (p : Path) : List Component :=
  match p.parts with
  | "" :: _ => if p.spelling = "" then [] else [.root]
  | "." :: _ => [.here]
  | _ => []

@[simp] theorem named_nil : named [] = [] := rfl

@[simp] theorem named_append (a b : List String) : named (a ++ b) = named a ++ named b := by
  simp [named]

theorem named_cons_of_idle {part : String} (h : isIdle part = true) (rest : List String) :
    named (part :: rest) = named rest := by
  simp [named, h]

theorem components_eq (p : Path) : p.components = p.lead ++ named p.parts := by
  unfold components lead
  change (match p.parts with | "" :: rest => _ | "." :: rest => _ | parts => _) = _
  split
  · rename_i rest h
    rw [h]
    by_cases hs : p.spelling = ""
    · have : rest = [] := by
        have hp : p.parts = [""] := by simp [parts, hs, Text.splitText, Text.split]
        rw [hp] at h
        exact (List.cons.inj h).2.symm
      simp [hs, this, named, isIdle]
    · simp [hs, named, isIdle]
  · rename_i rest h
    simp [h, named, isIdle]
  · rfl

def trimmed (parts : List String) : List String := (parts.reverse.dropWhile isIdle).reverse

theorem trimmed_eq_append (parts : List String) :
    ∃ tail, parts = trimmed parts ++ tail ∧ ∀ part ∈ tail, isIdle part = true := by
  refine ⟨(parts.reverse.takeWhile isIdle).reverse, ?_, ?_⟩
  · rw [trimmed, ← List.reverse_append, List.takeWhile_append_dropWhile, List.reverse_reverse]
  · intro part h
    exact List.all_eq_true.1 List.all_takeWhile part (List.mem_reverse.1 h)

theorem named_eq_nil_of_idle {parts : List String} (h : ∀ part ∈ parts, isIdle part = true) :
    named parts = [] := by
  have : parts.filter (fun part => !isIdle part) = [] := by
    simpa [List.filter_eq_nil_iff] using h
  simp [named, this]

@[simp] theorem named_trimmed (parts : List String) : named (trimmed parts) = named parts := by
  obtain ⟨tail, h, hidle⟩ := trimmed_eq_append parts
  have hnamed : named parts = named (trimmed parts ++ tail) := congrArg named h
  rw [hnamed, named_append, named_eq_nil_of_idle hidle, List.append_nil]

theorem mem_of_mem_trimmed {parts : List String} {part : String} (h : part ∈ trimmed parts) :
    part ∈ parts := by
  obtain ⟨tail, ht, _⟩ := trimmed_eq_append parts
  rw [ht]
  exact List.mem_append_left _ h

/-- The last of the parts that are left is a name, which is the last one. -/
theorem named_dropLast_trimmed {parts : List String} (h : trimmed parts ≠ []) :
    named parts ≠ [] ∧ named (trimmed parts).dropLast = (named parts).dropLast := by
  have hlast : isIdle ((trimmed parts).getLast h) = false := by
    have hne : parts.reverse.dropWhile isIdle ≠ [] := by simpa [trimmed] using h
    have := List.head_dropWhile_not isIdle (w := hne)
    simpa [trimmed, List.getLast_reverse] using this
  have hsplit : named parts =
      named (trimmed parts).dropLast ++ [Component.ofPart ((trimmed parts).getLast h)] := by
    have hlist : named [(trimmed parts).getLast h] =
        [Component.ofPart ((trimmed parts).getLast h)] := by simp [named, hlast]
    rw [← named_trimmed parts, ← hlist, ← named_append, List.dropLast_concat_getLast h]
  rw [hsplit]
  simp

theorem parts_slash (s : String) : parts ⟨"/" ++ s⟩ = "" :: Text.splitText '/' s := by
  simp [parts, Text.splitText, Text.split]

theorem named_splitText_joinText {parts : List String} (h : ∀ part ∈ parts, '/' ∉ part.toList) :
    named (Text.splitText '/' (Text.joinText "/" parts)) = named parts := by
  cases parts with
  | nil => rfl
  | cons part rest => rw [Text.splitText_joinText (by simp) h]

def outer (rest : List String) : List String := trimmed (trimmed rest).dropLast

theorem outer_prefix (rest : List String) : outer rest <+: rest := by
  obtain ⟨tail, ht, -⟩ := trimmed_eq_append rest
  obtain ⟨tail', ht', -⟩ := trimmed_eq_append (trimmed rest).dropLast
  have hdrop : outer rest <+: (trimmed rest).dropLast := ⟨tail', ht'.symm⟩
  exact hdrop.trans ((List.dropLast_prefix _).trans ⟨tail, ht.symm⟩)

theorem outer_eq_nil {rest : List String} (h : trimmed rest = []) : named rest = [] := by
  rw [← named_trimmed, h, named_nil]

theorem named_outer {rest : List String} (h : trimmed rest ≠ []) :
    named rest ≠ [] ∧ named (outer rest) = (named rest).dropLast := by
  rw [outer, named_trimmed]
  exact named_dropLast_trimmed h

theorem not_mem_of_mem_outer {p : Path} {front rest : List String} (hp : p.parts = front ++ rest)
    {part : String} (h : part ∈ outer rest) : '/' ∉ part.toList := by
  have hrest : part ∈ rest := mem_of_mem_trimmed (List.dropLast_subset _ (mem_of_mem_trimmed h))
  apply Text.not_mem_of_mem_splitText (s := p.spelling)
  change part ∈ p.parts
  rw [hp]
  exact List.mem_append_right _ hrest

theorem parent_of_root {p : Path} {rest : List String} (h : p.parts = "" :: rest)
    (hs : p.spelling ≠ "") : p.parent =
      if trimmed rest = [] then none else some ⟨"/" ++ Text.joinText "/" (outer rest)⟩ := by
  have h' : Text.splitText '/' p.spelling = "" :: rest := h
  cases ht : trimmed rest <;> rw [trimmed] at ht <;> simp [parent, h', hs, ht, outer, trimmed]

theorem parent_of_here {p : Path} {rest : List String} (h : p.parts = "." :: rest) :
    p.parent = if trimmed rest = [] then some ⟨""⟩
      else some ⟨Text.joinText "/" ("." :: outer rest)⟩ := by
  have h' : Text.splitText '/' p.spelling = "." :: rest := h
  cases ht : trimmed rest <;> rw [trimmed] at ht <;> simp [parent, h', ht, outer, trimmed]

theorem parent_of_name {p : Path} {first : String} {rest : List String}
    (h : p.parts = first :: rest) (hf : isIdle first = false) :
    p.parent = some ⟨Text.joinText "/" (outer (first :: rest))⟩ := by
  have h' : Text.splitText '/' p.spelling = first :: rest := h
  have hne : first ≠ "" ∧ first ≠ "." := by simpa [isIdle] using hf
  have ht : trimmed (first :: rest) ≠ [] := by
    intro ht
    have := outer_eq_nil ht
    simp [named, hf] at this
  obtain ⟨part, kept, ht⟩ := List.exists_cons_of_ne_nil ht
  rw [trimmed, List.reverse_cons] at ht
  simp [parent, h', hne.1, hne.2, ht, outer, trimmed]

@[simp] theorem components_blank : components ⟨""⟩ = [] := rfl

theorem components_slash {parts : List String} (h : ∀ part ∈ parts, '/' ∉ part.toList) :
    components ⟨"/" ++ Text.joinText "/" parts⟩ = .root :: named parts := by
  have hl : lead ⟨"/" ++ Text.joinText "/" parts⟩ = [.root] := by
    simp [lead, parts_slash, String.append_eq_empty_iff]
  rw [components_eq, hl, parts_slash, named_cons_of_idle rfl, named_splitText_joinText h]
  rfl

theorem components_joinText {first : String} {rest : List String}
    (h : ∀ part ∈ first :: rest, '/' ∉ part.toList) (hf : first ≠ "") :
    components ⟨Text.joinText "/" (first :: rest)⟩ =
      if first = "." then .here :: named rest else named (first :: rest) := by
  have hp : parts ⟨Text.joinText "/" (first :: rest)⟩ = first :: rest :=
    Text.splitText_joinText (by simp) h
  rw [components_eq, hp]
  by_cases hd : first = "."
  · subst hd
    rw [named_cons_of_idle rfl, if_pos rfl]
    simp [lead, hp]
  · rw [if_neg hd]
    simp [lead, hp, hf, hd]

/-- A directory has all components of a path but the last. -/
theorem components_directory (p : Path) : p.directory.components = p.components.dropLast := by
  obtain ⟨first, rest, hp⟩ := List.exists_cons_of_ne_nil (Text.splitText_ne_nil p.spelling)
  have hp : p.parts = first :: rest := hp
  have hslash : ∀ part ∈ outer rest, '/' ∉ part.toList :=
    fun part h => not_mem_of_mem_outer (show p.parts = [first] ++ rest from hp) h
  rw [components_eq p, directory]
  by_cases hs : p.spelling = ""
  · obtain rfl : p = ⟨""⟩ := by cases p; simpa using hs
    rfl
  by_cases hroot : first = ""
  · subst hroot
    have hl : p.lead = [.root] := by simp [lead, hp, hs]
    rw [parent_of_root hp hs, hp, named_cons_of_idle rfl, hl]
    by_cases ht : trimmed rest = []
    · simp [ht, outer_eq_nil ht]
    · obtain ⟨hne, hd⟩ := named_outer ht
      rw [if_neg ht, Option.getD_some, components_slash hslash, hd]
      exact (List.dropLast_cons_of_ne_nil hne).symm
  by_cases hdot : first = "."
  · subst hdot
    have hl : p.lead = [.here] := by simp [lead, hp]
    rw [parent_of_here hp, hp, named_cons_of_idle rfl, hl]
    by_cases ht : trimmed rest = []
    · simp [ht, outer_eq_nil ht]
    · obtain ⟨hne, hd⟩ := named_outer ht
      have hall : ∀ part ∈ "." :: outer rest, '/' ∉ part.toList := by simpa using hslash
      rw [if_neg ht, Option.getD_some, components_joinText hall (by decide), if_pos rfl, hd]
      exact (List.dropLast_cons_of_ne_nil hne).symm
  · have hidle : isIdle first = false := by simp [isIdle, hroot, hdot]
    have hl : p.lead = [] := by simp [lead, hp, hroot, hdot]
    have ht : trimmed (first :: rest) ≠ [] := by
      intro ht
      have := outer_eq_nil ht
      simp [named, hidle] at this
    obtain ⟨-, hd⟩ := named_outer ht
    rw [parent_of_name hp hidle, hp, hl, Option.getD_some, List.nil_append, ← hd]
    cases ho : outer (first :: rest) with
    | nil => rfl
    | cons part more =>
      have hfirst : part = first := by
        obtain ⟨tail, ht⟩ := outer_prefix (first :: rest)
        rw [ho] at ht
        exact (List.cons.inj ht).1
      have hall : ∀ p ∈ part :: more, '/' ∉ p.toList :=
        fun q hq => not_mem_of_mem_outer (show p.parts = [] ++ first :: rest from hp) (ho ▸ hq)
      subst hfirst
      rw [components_joinText hall hroot, if_neg hdot]

theorem lead_of_relative {p : Path} (h : p.isAbsolute = false) : p.lead = [] ∨ p.lead = [.here] := by
  unfold lead
  split
  · rename_i rest hp
    by_cases hs : p.spelling = ""
    · simp [hs]
    · obtain ⟨c, cs, hc⟩ : ∃ c cs, p.spelling.toList = c :: cs :=
        List.exists_cons_of_ne_nil (by simpa using hs)
      have hslash : c ≠ '/' := by simpa [isAbsolute, hc] using h
      rw [parts, Text.splitText, hc, Text.split, if_neg hslash] at hp
      split at hp <;> simp at hp
  · exact .inr rfl
  · exact .inl rfl

theorem lead_congr {p q : Path} (hp : p.spelling ≠ "") (hq : q.spelling ≠ "")
    (h : p.parts.head? = q.parts.head?) : p.lead = q.lead := by
  obtain ⟨first, rest, hfirst⟩ := List.exists_cons_of_ne_nil (Text.splitText_ne_nil p.spelling)
  obtain ⟨other, rest', hother⟩ := List.exists_cons_of_ne_nil (Text.splitText_ne_nil q.spelling)
  have hfirst : p.parts = first :: rest := hfirst
  have hother : q.parts = other :: rest' := hother
  have hsame : first = other := by simpa [hfirst, hother] using h
  subst hsame
  by_cases hroot : first = ""
  · simp [lead, hfirst, hother, hroot, hp, hq]
  · by_cases hdot : first = "."
    · simp [lead, hfirst, hother, hdot]
    · simp [lead, hfirst, hother, hroot, hdot]

/-- A separator between two texts puts their parts one after another. -/
theorem splitText_append (a b : String) :
    Text.splitText '/' (a ++ "/" ++ b) = Text.splitText '/' a ++ Text.splitText '/' b := by
  simp [Text.splitText, Text.split_append_cons]

/-- A relative path joined to another one adds its own components. -/
theorem components_join {base inner : Path} (h : inner.isAbsolute = false)
    (hb : base.spelling ≠ "") :
    (base.join inner).components = base.components ++ named inner.parts := by
  have hhead : ∀ {a b : List String}, a ≠ [] → (a ++ b).head? = a.head? := by
    intro a b ha
    obtain ⟨x, xs, rfl⟩ := List.exists_cons_of_ne_nil ha
    rfl
  have hjoin : ∀ {s : String}, s ≠ "" →
      (∃ front, front ≠ [] ∧ front.head? = base.parts.head? ∧ named front = named base.parts ∧
        Text.splitText '/' s = front ++ inner.parts) →
      components ⟨s⟩ = base.components ++ named inner.parts := by
    intro s hs hfront
    obtain ⟨front, hne, hf, hn, hsplit⟩ := hfront
    have hp : parts ⟨s⟩ = front ++ inner.parts := hsplit
    have hl : lead ⟨s⟩ = base.lead := by
      apply lead_congr hs hb
      rw [hp, hhead hne, hf]
    rw [components_eq, components_eq, hl, hp, named_append, hn, List.append_assoc]
  rw [join, h, if_neg hb]
  by_cases hend : base.spelling.toList.getLast? = some '/'
  · obtain ⟨front, hfront⟩ := List.getLast?_eq_some_iff.1 hend
    have hspell : base.spelling = String.ofList front ++ "/" ++ "" := by
      rw [← String.toList_inj, hfront]
      simp
    have hparts : base.parts = Text.splitText '/' (String.ofList front) ++ [""] := by
      rw [parts, hspell, splitText_append]
      rfl
    rw [if_neg (by simp), if_pos hend]
    apply hjoin
    · simp [hb]
    · refine ⟨Text.splitText '/' (String.ofList front), Text.splitText_ne_nil _, ?_, ?_, ?_⟩
      · rw [hparts, hhead (Text.splitText_ne_nil _)]
      · rw [hparts, named_append]
        simp [named, isIdle]
      · rw [hspell, String.append_empty, splitText_append]
        rfl
  · rw [if_neg (by simp), if_neg hend]
    apply hjoin
    · simp
    · exact ⟨base.parts, Text.splitText_ne_nil _, rfl, rfl, splitText_append ..⟩

theorem foldl_pushNormal_here (kept parts : List Component) :
    (Component.here :: parts).foldl pushNormal kept = parts.foldl pushNormal kept := rfl

/-- The normal form of a relative path joined to another one, by the components of both. -/
theorem collapse_join {base inner : Path} (h : inner.isAbsolute = false) :
    collapse (base.join inner).components = collapse (base.components ++ inner.components) := by
  by_cases hb : base.spelling = ""
  · obtain rfl : base = ⟨""⟩ := by cases base; simpa using hb
    simp [join, h]
  · have hc := components_eq inner
    rw [components_join h hb, hc]
    rcases lead_of_relative h with hl | hl
    · rw [hl, List.nil_append]
    · simp only [hl, collapse, List.foldl_append, List.singleton_append, foldl_pushNormal_here]

/-- How the base of a joined path is spelled makes no difference to the normal form. -/
theorem normalize_join_congr {p q inner : Path} (h : p.components = q.components)
    (hi : inner.isAbsolute = false) : normalize (p.join inner) = normalize (q.join inner) := by
  rw [normalize, normalize, collapse_join hi, collapse_join hi, h]

theorem directory_congr {p q : Path} (h : p.same q = true) :
    p.directory.components = q.directory.components := by
  rw [components_directory, components_directory, same_iff.1 h]

end Path

end Codemod
