import Codemod.Chain.PatchStep
import Codemod.Proofs.NormalPaths
import Codemod.Proofs.Specifiers

/-!
Where the specifier of a file leads.

A specifier is the way from the directory of one file to another file, without the extension at its
end: as many steps up as there are components to leave, and then the components to enter. Followed
from that directory it comes to the file, except in the cases of `Astray`: nothing leads from a
relative path to an absolute one or back, no step leads out of a `..`, a way that only leads up has
no extension to lose, and a name may be no name any more without its extension.
-/
namespace Codemod

namespace Text

/-- What joined parts begin with besides the last one. -/
theorem exists_lead_joinText (front : List String) :
    ∃ lead, (lead = "" ∨ lead.toList.getLast? = some '/') ∧
      ∀ last, joinText "/" (front ++ [last]) = lead ++ last := by
  induction front with
  | nil => exact ⟨"", .inl rfl, fun last => by simp [joinText, join]⟩
  | cons part front ih =>
    obtain ⟨lead, hlead, hjoin⟩ := ih
    refine ⟨part ++ "/" ++ lead, .inr ?_, ?_⟩
    · rcases hlead with rfl | hlead
      · simp
      · rw [String.toList_append, List.getLast?_append, hlead]
        rfl
    · intro last
      obtain ⟨next, rest, hrest⟩ := List.exists_cons_of_ne_nil
        (show front ++ [last] ≠ [] by simp)
      have hcons : joinText "/" (part :: next :: rest) =
          part ++ "/" ++ joinText "/" (next :: rest) := by
        simp [joinText, join, ← String.toList_inj]
      rw [List.cons_append, hrest, hcons, ← hrest, hjoin, String.append_assoc, String.append_assoc,
        String.append_assoc]

end Text

theorem dropTail?_behind {ext front last : String} (hext : '/' ∉ ext.toList)
    (h : front = "" ∨ front.toList.getLast? = some '/') :
    Text.dropTail? ext (front ++ last) = (Text.dropTail? ext last).map (front ++ ·) := by
  apply Option.ext
  intro t
  rw [Text.dropTail?_eq_some_iff, Option.map_eq_some_iff]
  constructor
  · intro he
    have hlist : front.toList ++ last.toList = t.toList ++ ext.toList := by
      simpa using congrArg String.toList he
    rcases List.append_eq_append_iff.1 hlist with ⟨inner, ht, hl⟩ | ⟨inner, hf, he⟩
    · refine ⟨String.ofList inner, ?_, ?_⟩
      · rw [Text.dropTail?_eq_some_iff, ← String.toList_inj]
        simpa using hl
      · rw [← String.toList_inj]
        simpa using ht.symm
    · -- An extension that reaches into the front has the separator in it.
      have hnil : inner = [] := by
        rcases List.eq_nil_or_concat inner with hn | ⟨more, c, hc⟩
        · exact hn
        · have hlast : front.toList.getLast? = some c := by simp [hf, hc]
          rcases h with h | h
          · simp [h] at hlast
          · obtain rfl : '/' = c := Option.some.inj (h.symm.trans hlast)
            exact absurd (by simp [he, hc]) hext
      rw [hnil, List.append_nil] at hf
      rw [hnil, List.nil_append] at he
      refine ⟨"", ?_, ?_⟩
      · rw [Text.dropTail?_eq_some_iff, ← String.toList_inj]
        simpa using he.symm
      · rw [← String.toList_inj]
        simpa using hf
  · rintro ⟨inner, hinner, rfl⟩
    rw [Text.dropTail?_eq_some_iff.1 hinner, String.append_assoc]

/-- An extension is one of the last part. -/
theorem stripSourceExtension_behind {front : String} (last : String)
    (h : front = "" ∨ front.toList.getLast? = some '/') :
    stripSourceExtension (front ++ last) = front ++ stripSourceExtension last := by
  have hexts : ∀ ext ∈ sourceExtensions, '/' ∉ ext.toList := by decide
  exact stripSourceExtension_map (front ++ ·) fun ext hext => dropTail?_behind (hexts ext hext) h

/-- Two lists without what they have in common at their front go on differently. -/
theorem dropCommon_spec {α : Type} [BEq α] [LawfulBEq α] (as bs : List α) :
    ∃ common, as = common ++ (dropCommon as bs).1 ∧ bs = common ++ (dropCommon as bs).2 ∧
      ∀ a b, (dropCommon as bs).1.head? = some a → (dropCommon as bs).2.head? = some b → a ≠ b := by
  fun_induction dropCommon as bs with
  | case1 a as b bs h ih =>
    obtain rfl := eq_of_beq h
    obtain ⟨common, ha, hb, hd⟩ := ih
    exact ⟨a :: common, congrArg (a :: ·) ha, congrArg (a :: ·) hb, hd⟩
  | case2 a as b bs h =>
    refine ⟨[], rfl, rfl, ?_⟩
    intro x y hx hy
    obtain rfl : a = x := by simpa using hx
    obtain rfl : b = y := by simpa using hy
    intro he
    exact h (by simp [he])
  | case3 as bs h =>
    refine ⟨[], rfl, rfl, ?_⟩
    intro x y hx hy
    cases as with
    | nil => simp at hx
    | cons a as =>
      cases bs with
      | nil => simp at hy
      | cons b bs => exact (h a as b bs rfl rfl).elim

namespace Path

/-- The components to leave and those to enter on the way from a file to another one. -/
def way (origin target : Path) : List Component × List Component :=
  dropCommon (normalize origin.directory).components (normalize target).components

def wayText (origin target : Path) : String :=
  stripSourceExtension (Text.joinText "/"
    ((way origin target).1.map (fun _ => "..") ++ (way origin target).2.map Component.text))

def moduleOf (file : Path) : Path := ⟨stripSourceExtension (normalize file).spelling⟩

/-- A specifier is a way that begins with `./` or `../`. -/
theorem specifierTo_eq (origin target : Path) : specifierTo origin target =
    if (Text.dropLead? "../".toList (wayText origin target).toList).isSome then
      wayText origin target
    else "./" ++ wayText origin target := by
  rw [specifierTo, wayText, way]

theorem specifierTo_cases (origin target : Path) :
    (∃ rest, wayText origin target = "../" ++ rest ∧ specifierTo origin target = "../" ++ rest) ∨
      specifierTo origin target = "./" ++ wayText origin target := by
  rw [specifierTo_eq]
  split
  · rename_i h
    obtain ⟨rest, hrest⟩ := Option.isSome_iff_exists.1 h
    rw [Text.dropLead?_eq_some_iff] at hrest
    have htext : wayText origin target = "../" ++ String.ofList rest := by
      rw [← String.toList_inj, hrest]
      simp
    exact .inl ⟨String.ofList rest, htext, htext⟩
  · exact .inr rfl

/-- What comes of a path that begins with `.` or `..`, by the parts that follow. -/
theorem components_specifier (origin target : Path) :
    (⟨specifierTo origin target⟩ : Path).components =
        named (Text.splitText '/' (wayText origin target)) ∨
      (⟨specifierTo origin target⟩ : Path).components =
        .here :: named (Text.splitText '/' (wayText origin target)) := by
  rcases specifierTo_cases origin target with ⟨rest, hway, hs⟩ | hs
  · left
    have hspell : "../" ++ rest = ".." ++ "/" ++ rest := rfl
    have hparts : parts ⟨"../" ++ rest⟩ = ".." :: Text.splitText '/' rest := by
      rw [parts, hspell, splitText_append]
      rfl
    have hlead : lead ⟨"../" ++ rest⟩ = [] := by simp [lead, hparts]
    rw [hs, hway, components_eq, hlead, List.nil_append, parts]
  · right
    rw [hs]
    generalize wayText origin target = text
    have hspell : "./" ++ text = "." ++ "/" ++ text := rfl
    have hparts : parts ⟨"./" ++ text⟩ = "." :: Text.splitText '/' text := by
      rw [parts, hspell, splitText_append]
      rfl
    have hlead : lead ⟨"./" ++ text⟩ = [.here] := by simp [lead, hparts]
    rw [components_eq, hlead, hparts, named_cons_of_idle rfl, List.singleton_append]

theorem isAbsolute_specifierTo (origin target : Path) :
    (⟨specifierTo origin target⟩ : Path).isAbsolute = false := by
  rcases specifierTo_cases origin target with ⟨rest, _, hs⟩ | hs
  · rw [hs]
    simp [isAbsolute]
  · rw [hs]
    simp [isAbsolute]

/-- The place that a specifier leads to: the way is followed from the directory. -/
theorem components_reached (origin target : Path) :
    (normalize (origin.directory.join ⟨specifierTo origin target⟩)).components =
      ((named (Text.splitText '/' (wayText origin target))).foldl pushNormal
        (normalize origin.directory).components.reverse).reverse := by
  have hstart : (normalize origin.directory).components.reverse =
      origin.directory.components.foldl pushNormal [] := by
    rw [components_normalize, collapse, List.reverse_reverse]
  rw [components_normalize, collapse_join (isAbsolute_specifierTo origin target), collapse,
    List.foldl_append, ← hstart]
  rcases components_specifier origin target with h | h
  · rw [h]
  · rw [h, foldl_pushNormal_here]

theorem collapse_joinText {first : String} {rest : List String}
    (h : ∀ part ∈ first :: rest, '/' ∉ part.toList) (hf : first ≠ "" ∨ rest = []) :
    collapse (components ⟨Text.joinText "/" (first :: rest)⟩) =
      collapse (named (first :: rest)) := by
  by_cases hblank : first = ""
  · obtain rfl : rest = [] := hf.resolve_left (fun hne => hne hblank)
    rw [hblank]
    rfl
  · rw [components_joinText h hblank]
    by_cases hdot : first = "."
    · rw [if_pos hdot, hdot, named_cons_of_idle rfl]
      rfl
    · rw [if_neg hdot]

/-- A normal form is spelled with its last name at the end, and with another text there it has the
components of that text. -/
theorem exists_lead_ofComponents {front : List Component} {last : Component}
    (h : Kept (front ++ [last]).reverse) (hl : last.IsPlain) :
    ∃ lead, (lead = "" ∨ lead.toList.getLast? = some '/') ∧
      (ofComponents (front ++ [last])).spelling = lead ++ last.text ∧
      ∀ x, '/' ∉ x.toList → collapse (components ⟨lead ++ x⟩) = collapse (front ++ named [x]) := by
  rcases h.isPlain with hall | ⟨rest, hrest, hall⟩
  · have hfront : ∀ c ∈ front, c.IsPlain := fun c hc => hall c (List.mem_append_left _ hc)
    obtain ⟨lead, hlead, hjoin⟩ := Text.exists_lead_joinText (front.map Component.text)
    have hnamed : ∀ x, named (front.map Component.text ++ [x]) = front ++ named [x] := by
      intro x
      rw [named_append, named_map_text hfront]
    have hparts : ∀ x, '/' ∉ x.toList →
        ∀ part ∈ front.map Component.text ++ [x], '/' ∉ part.toList := by
      intro x hx part hpart
      rcases List.mem_append.1 hpart with hpart | hpart
      · exact whole_of_mem_map_text hfront part hpart
      · rwa [List.mem_singleton.1 hpart]
    refine ⟨lead, hlead, ?_, ?_⟩
    · rw [← hjoin]
      cases front with
      | nil =>
        cases last with
        | root => exact hl.elim
        | _ => rfl
      | cons c front =>
        have hc := hfront c (List.mem_cons_self ..)
        cases c with
        | root => exact hc.elim
        | _ => simp [ofComponents]
    · intro x hx
      have hx' := hparts x hx
      rw [← hjoin, ← hnamed]
      cases front with
      | nil => exact collapse_joinText hx' (.inr rfl)
      | cons c front =>
        have hidle := not_idle_of_isPlain (hfront c (List.mem_cons_self ..))
        have hne : c.text ≠ "" ∧ c.text ≠ "." := by simpa [isIdle] using hidle
        exact collapse_joinText hx' (.inl hne.1)
  · cases front with
    | nil =>
      obtain rfl : last = .root := (List.cons.inj hrest).1
      exact hl.elim
    | cons c front =>
      obtain ⟨rfl, rfl⟩ := List.cons.inj hrest
      have hfront : ∀ c ∈ front, c.IsPlain := fun c hc => hall c (List.mem_append_left _ hc)
      obtain ⟨lead, hlead, hjoin⟩ := Text.exists_lead_joinText (front.map Component.text)
      refine ⟨"/" ++ lead, .inr ?_, ?_, ?_⟩
      · rcases hlead with rfl | hlead
        · rfl
        · rw [String.toList_append, List.getLast?_append, hlead]
          rfl
      · rw [String.append_assoc, ← hjoin]
        simp [ofComponents]
      · intro x hx
        have hparts : ∀ part ∈ front.map Component.text ++ [x], '/' ∉ part.toList := by
          intro part hpart
          rcases List.mem_append.1 hpart with hpart | hpart
          · exact whole_of_mem_map_text hfront part hpart
          · rwa [List.mem_singleton.1 hpart]
        rw [String.append_assoc, ← hjoin, components_slash hparts, named_append,
          named_map_text hfront]
        rfl

theorem whole_stripSourceExtension {s : String} (h : '/' ∉ s.toList) :
    '/' ∉ (stripSourceExtension s).toList := by
  obtain ⟨tail, -, ht⟩ := stripSourceExtension_append s
  intro hmem
  apply h
  rw [ht, String.toList_append]
  exact List.mem_append_left _ hmem

theorem normalize_eq_ofComponents (p : Path) :
    normalize p = ofComponents (normalize p).components := by
  rw [components_normalize]
  rfl

/-- A name without its extension does not stand for the root. -/
theorem root_not_mem_stripped {c : Component} (h : c.IsPlain) :
    .root ∉ named [stripSourceExtension c.text] := fun hroot =>
  isPlain_of_mem_named (by simpa using whole_stripSourceExtension (whole_of_isPlain h)) hroot

/-- Without its extension a file is where it was, with its last name cut. -/
theorem collapse_moduleOf {file : Path} {front : List Component} {last : Component}
    (h : (normalize file).components = front ++ [last]) (hl : last.IsPlain) :
    collapse (moduleOf file).components =
      collapse (front ++ named [stripSourceExtension last.text]) := by
  have hkept := kept_normalize file
  rw [h] at hkept
  obtain ⟨lead, hlead, hspell, hcollapse⟩ := exists_lead_ofComponents hkept hl
  rw [moduleOf, normalize_eq_ofComponents, h, hspell, stripSourceExtension_behind _ hlead]
  exact hcollapse _ (whole_stripSourceExtension (whole_of_isPlain hl))

/-- A file whose last name has no extension stays what it is. -/
theorem moduleOf_eq_normalize {file : Path} {front : List Component} {last : Component}
    (h : (normalize file).components = front ++ [last]) (hl : last.IsPlain)
    (hs : stripSourceExtension last.text = last.text) : moduleOf file = normalize file := by
  have hkept := kept_normalize file
  rw [h] at hkept
  obtain ⟨lead, hlead, hspell, -⟩ := exists_lead_ofComponents hkept hl
  have hfile : (normalize file).spelling = lead ++ last.text := by
    rw [normalize_eq_ofComponents, h, hspell]
  rw [moduleOf, hfile, stripSourceExtension_behind _ hlead, hs, ← hfile]

variable {origin target : Path}

/-- A way between two files leaves what they have in common. -/
theorem exists_common (origin target : Path) : ∃ common,
    (normalize origin.directory).components = common ++ (way origin target).1 ∧
      (normalize target).components = common ++ (way origin target).2 ∧
      ∀ a b, (way origin target).1.head? = some a → (way origin target).2.head? = some b → a ≠ b :=
  dropCommon_spec _ _

theorem root_mem_iff (p : Path) :
    .root ∈ (normalize p).components ↔ p.isAbsolute = true := by
  rw [mem_root_components, isAbsolute_normalize]

/-- Between two absolute or two relative paths a way does not touch the root. -/
theorem isPlain_of_way (h : origin.directory.isAbsolute = target.isAbsolute) :
    (∀ c ∈ (way origin target).1, c.IsPlain) ∧ ∀ c ∈ (way origin target).2, c.IsPlain := by
  obtain ⟨common, ho, ht, hd⟩ := exists_common origin target
  have hroot : .root ∈ (normalize origin.directory).components ↔
      .root ∈ (normalize target).components := by
    rw [root_mem_iff, root_mem_iff, h]
  have hnot : ∀ {cs : List Component}, (∀ c ∈ cs, c.IsPlain) → .root ∉ cs := fun hall hmem =>
    hall _ hmem
  rcases (kept_normalize origin.directory).isPlain with hleft | ⟨left, hleft, hpl⟩
  · rcases (kept_normalize target).isPlain with hright | ⟨right, hright, _⟩
    · rw [ho] at hleft
      rw [ht] at hright
      exact ⟨fun c hc => hleft c (List.mem_append_right _ hc),
        fun c hc => hright c (List.mem_append_right _ hc)⟩
    · exact absurd (hroot.2 (by simp [hright])) (hnot hleft)
  · rcases (kept_normalize target).isPlain with hright | ⟨right, hright, hpr⟩
    · exact absurd (hroot.1 (by simp [hleft])) (hnot hright)
    · rw [hleft] at ho
      rw [hright] at ht
      cases common with
      | nil => exact absurd rfl (hd .root .root (by rw [← List.nil_append (way _ _).1, ← ho]; rfl)
          (by rw [← List.nil_append (way _ _).2, ← ht]; rfl))
      | cons c common =>
        obtain ⟨-, rfl⟩ := List.cons.inj ho
        obtain ⟨-, rfl⟩ := List.cons.inj ht
        exact ⟨fun c hc => hpl c (List.mem_append_right _ hc),
          fun c hc => hpr c (List.mem_append_right _ hc)⟩

/-- As many steps up as there are names take the names away. -/
theorem foldl_up {names kept : List Component} (h : ∀ c ∈ names, c.IsPlain) (hu : .up ∉ names) :
    (List.replicate names.length Component.up).foldl pushNormal (names ++ kept) = kept := by
  induction names with
  | nil => rfl
  | cons c names ih =>
    obtain ⟨hc, hrest⟩ := List.forall_mem_cons.1 h
    simp only [List.mem_cons, not_or] at hu
    cases c with
    | up => exact absurd rfl hu.1
    | name s => exact ih hrest hu.2
    | _ => exact hc.elim

theorem map_up_eq (cs : List Component) :
    cs.map (fun _ => "..") = (List.replicate cs.length Component.up).map Component.text := by
  rw [List.map_replicate, List.map_const']
  rfl

theorem strip_up : stripSourceExtension ".." = ".." := by decide

/-- What the way text of a way that enters something says. -/
theorem named_wayText_enter (h : origin.directory.isAbsolute = target.isAbsolute)
    {front : List Component} {last : Component} (hw : (way origin target).2 = front ++ [last]) :
    named (Text.splitText '/' (wayText origin target)) =
      List.replicate (way origin target).1.length .up ++ front ++
        named [stripSourceExtension last.text] := by
  obtain ⟨-, hdown⟩ := isPlain_of_way h
  rw [hw] at hdown
  have hplain : ∀ c ∈ List.replicate (way origin target).1.length .up ++ front, c.IsPlain := by
    intro c hc
    rcases List.mem_append.1 hc with hc | hc
    · rw [List.eq_of_mem_replicate hc]
      trivial
    · exact hdown c (List.mem_append_left _ hc)
  have hlast : last.IsPlain := hdown last (by simp)
  obtain ⟨lead, hlead, hjoin⟩ := Text.exists_lead_joinText
    ((List.replicate (way origin target).1.length Component.up ++ front).map Component.text)
  have htext : wayText origin target = Text.joinText "/"
      ((List.replicate (way origin target).1.length Component.up ++ front).map Component.text ++
        [stripSourceExtension last.text]) := by
    rw [hjoin, ← stripSourceExtension_behind _ hlead, ← hjoin, wayText, hw, map_up_eq]
    simp
  rw [htext, named_splitText_joinText, named_append, named_map_text hplain]
  intro part hpart
  rcases List.mem_append.1 hpart with hpart | hpart
  · exact whole_of_mem_map_text hplain part hpart
  · rw [List.mem_singleton.1 hpart]
    exact whole_stripSourceExtension (whole_of_isPlain hlast)

/-- A way that only leads up has no extension. -/
theorem named_wayText_up (hw : (way origin target).2 = []) :
    named (Text.splitText '/' (wayText origin target)) =
      List.replicate (way origin target).1.length .up := by
  have hplain : ∀ c ∈ List.replicate (way origin target).1.length Component.up, c.IsPlain := by
    intro c hc
    rw [List.eq_of_mem_replicate hc]
    trivial
  have htext : wayText origin target = Text.joinText "/"
      ((List.replicate (way origin target).1.length Component.up).map Component.text) := by
    rw [wayText, hw, map_up_eq, List.map_nil, List.append_nil]
    cases (way origin target).1.length with
    | zero => decide
    | succ n =>
      obtain ⟨lead, hlead, hjoin⟩ := Text.exists_lead_joinText
        ((List.replicate n Component.up).map Component.text)
      have hup : (List.replicate (n + 1) Component.up).map Component.text =
          (List.replicate n Component.up).map Component.text ++ [".."] := by
        rw [List.replicate_succ', List.map_append]
        rfl
      rw [hup, hjoin, stripSourceExtension_behind _ hlead, strip_up]
  rw [htext, named_splitText_joinText (whole_of_mem_map_text hplain), named_map_text hplain]

/-- What is kept of the common front of a way. -/
theorem foldl_common {common up : List Component}
    (h : (normalize origin.directory).components = common ++ up) :
    Kept common.reverse ∧ common.foldl pushNormal [] = common.reverse := by
  have hkept : Kept common.reverse := by
    have hall := kept_normalize origin.directory
    rw [h, List.reverse_append] at hall
    exact hall.of_append
  exact ⟨hkept, by rw [foldl_pushNormal_of_kept (by simpa using hkept), List.append_nil]⟩

/-- A file is its own module, if it is the root or nothing, or it ends with a plain component. -/
theorem moduleOf_cases (file : Path) : moduleOf file = normalize file ∨
    ∃ front last, (normalize file).components = front ++ [last] ∧ last.IsPlain := by
  rcases List.eq_nil_or_concat (normalize file).components with h | ⟨front, last, h⟩
  · left
    rw [moduleOf, normalize_eq_ofComponents, h]
    decide
  · rw [List.concat_eq_append] at h
    rcases (kept_normalize file).isPlain with hall | ⟨rest, hrest, hall⟩
    · exact .inr ⟨front, last, h, hall last (by simp [h])⟩
    · cases front with
      | nil =>
        left
        rw [h] at hrest
        obtain ⟨rfl, rfl⟩ := List.cons.inj hrest
        rw [moduleOf, normalize_eq_ofComponents, h]
        decide
      | cons c front =>
        have hlist := h.symm.trans hrest
        obtain ⟨-, rfl⟩ := List.cons.inj hlist
        exact .inr ⟨c :: front, last, h, hall last (by simp)⟩

/-- The parts of a way behind its steps up, which lead from the common front to the module. -/
theorem exists_tail (h : origin.directory.isAbsolute = target.isAbsolute)
    {common : List Component} (hc : (normalize target).components = common ++ (way origin target).2)
    (hs : (way origin target).2 ≠ [] ∨ moduleOf target = normalize target) :
    ∃ tail, named (Text.splitText '/' (wayText origin target)) =
        List.replicate (way origin target).1.length .up ++ tail ∧
      collapse (moduleOf target).components = collapse (common ++ tail) ∧ .root ∉ tail := by
  rcases List.eq_nil_or_concat (way origin target).2 with hw | ⟨front, last, hw⟩
  · have hsame := hs.resolve_left (fun hne => hne hw)
    refine ⟨[], ?_, ?_, by simp⟩
    · rw [named_wayText_up hw, List.append_nil]
    · rw [hsame, hc, hw]
  · rw [List.concat_eq_append] at hw
    have hdown := (isPlain_of_way h).2
    have hlast : last.IsPlain := hdown last (by simp [hw])
    rw [hw, ← List.append_assoc] at hc
    refine ⟨front ++ named [stripSourceExtension last.text], ?_, ?_, ?_⟩
    · rw [named_wayText_enter h hw, List.append_assoc]
    · rw [collapse_moduleOf hc hlast, List.append_assoc]
    · intro hroot
      rcases List.mem_append.1 hroot with hroot | hroot
      · exact hdown .root (by simp [hw, hroot])
      · exact root_not_mem_stripped hlast hroot

/-- The steps up of a way come to the common front, if it leaves no `..`. -/
theorem leave (h : origin.directory.isAbsolute = target.isAbsolute)
    (hu : .up ∉ (way origin target).1) {common : List Component}
    (ho : (normalize origin.directory).components = common ++ (way origin target).1) :
    (List.replicate (way origin target).1.length Component.up).foldl pushNormal
      (normalize origin.directory).components.reverse = common.reverse := by
  have hup := (isPlain_of_way h).1
  rw [ho, List.reverse_append, ← List.length_reverse]
  exact foldl_up (fun c hc => hup c (List.mem_reverse.1 hc)) (fun hc => hu (List.mem_reverse.1 hc))

/-- A way that leaves no `..` comes to the module. -/
theorem components_reached_eq (h : origin.directory.isAbsolute = target.isAbsolute)
    (hu : .up ∉ (way origin target).1)
    (hs : (way origin target).2 ≠ [] ∨ moduleOf target = normalize target) :
    (normalize (origin.directory.join ⟨specifierTo origin target⟩)).components =
      collapse (moduleOf target).components := by
  obtain ⟨common, ho, ht, -⟩ := exists_common origin target
  obtain ⟨tail, hway, hmodule, -⟩ := exists_tail h ht hs
  rw [components_reached, hway, hmodule, collapse, List.foldl_append, List.foldl_append,
    leave h hu ho, (foldl_common ho).2]

/-- A way that only leaves names comes to a directory above. -/
theorem components_reached_up (h : origin.directory.isAbsolute = target.isAbsolute)
    (hu : .up ∉ (way origin target).1) (hw : (way origin target).2 = []) :
    (normalize (origin.directory.join ⟨specifierTo origin target⟩)).components =
      (normalize target).components := by
  obtain ⟨common, ho, ht, -⟩ := exists_common origin target
  rw [components_reached, named_wayText_up hw, leave h hu ho, List.reverse_reverse, ht, hw,
    List.append_nil]

/-- In a normal form nothing but `..` is in front of a `..`. -/
theorem forall_up_of_kept {front rest : List Component} (h : Kept (front ++ rest).reverse)
    (hu : .up ∈ rest) : ∀ c ∈ front, c = .up := by
  obtain ⟨before, after, rfl⟩ := List.append_of_mem hu
  have hwhole : Kept (after.reverse ++ Component.up :: (before.reverse ++ front.reverse)) := by
    simpa using h
  cases hwhole.of_append with
  | up hall =>
    intro c hc
    exact hall c (by simp [hc])

/-- A step up for every component outweighs a list with a `..` in it. -/
theorem level_add_length_pos {cs : List Component} (hu : .up ∈ cs) :
    0 < level cs + cs.length := by
  have hnonneg : ∀ cs : List Component, 0 ≤ level cs + cs.length := by
    intro cs
    induction cs with
    | nil => simp [level]
    | cons c cs ih => cases c <;> simp [level] <;> omega
  obtain ⟨before, after, rfl⟩ := List.append_of_mem hu
  have hbefore := hnonneg before
  have hafter := hnonneg after
  simp only [level_append, level, List.length_append, List.length_cons, Int.natCast_add,
    Int.natCast_one]
  omega

theorem level_replicate_up (n : Nat) : level (List.replicate n .up) = n := by
  induction n with
  | zero => rfl
  | succ n ih => rw [List.replicate_succ, level, ih, Int.natCast_add, Int.natCast_one]

/-- The cases in which a specifier does not lead to its file. -/
inductive Astray (origin target : Path) : Prop
  /-- Nothing leads from a relative path to an absolute one, or back. -/
  | apart : origin.directory.isAbsolute ≠ target.isAbsolute → Astray origin target
  /-- A step up does not leave a `..`. -/
  | climb : .up ∈ (way origin target).1 → Astray origin target
  /-- The file is above the directory, and nothing on the way has its extension. -/
  | above : (way origin target).2 = [] → moduleOf target ≠ normalize target → Astray origin target
  /-- Without its extension the name of the file is no name. -/
  | unnamed : (normalize (moduleOf target)).same (moduleOf target) ≠ true → Astray origin target

/-- A specifier leads to the place where its file is, without the extension. -/
def LeadsTo (origin : Path) (specifier : String) (target : Path) : Prop :=
  (normalize (origin.directory.join ⟨specifier⟩)).same (moduleOf target) = true

theorem leadsTo_iff (origin : Path) (specifier : String) (target : Path) :
    LeadsTo origin specifier target ↔
      (normalize (origin.directory.join ⟨specifier⟩)).components = (moduleOf target).components := by
  simp [LeadsTo, same]

/-- A name cut short is not pushed onto the components as the whole name. -/
theorem pushed_ne {kept : List Component} {s x : String} (h : x ≠ s) :
    (named [x]).foldl pushNormal kept ≠ .name s :: kept := by
  cases hx : isIdle x with
  | true =>
    rw [named_cons_of_idle hx]
    intro he
    simpa using congrArg List.length he
  | false =>
    have hnamed : named [x] = [.ofPart x] := by simp [named, hx]
    rw [hnamed, List.foldl_cons, List.foldl_nil, Component.ofPart]
    split
    · intro he
      have hlen := congrArg List.length he
      cases kept with
      | nil => simp [pushNormal] at he
      | cons c kept => cases c <;> simp [pushNormal] at he hlen; omega
    · intro he
      simp [pushNormal, h] at he

/-- A file that is not spelled as its module is not where its module is. -/
theorem moduleOf_components_ne {target : Path} (h : moduleOf target ≠ normalize target) :
    (moduleOf target).components ≠ (normalize target).components := by
  intro he
  have hkept := kept_normalize target
  have hcollapse : collapse (moduleOf target).components = (normalize target).components := by
    rw [he, collapse_of_kept hkept]
  rcases moduleOf_cases target with hm | ⟨front, last, ht, hl⟩
  · exact h hm
  · rw [collapse_moduleOf ht hl, ht] at hcollapse
    rw [ht] at hkept
    have hs : stripSourceExtension last.text ≠ last.text :=
      fun hs => h (moduleOf_eq_normalize ht hl hs)
    cases last with
    | up => exact hs strip_up
    | name s =>
      have hall : Kept ([Component.name s] ++ front.reverse) := by simpa using hkept
      have hfront : Kept (front.reverse ++ []) := by simpa using hall.of_append
      have hpush := congrArg List.reverse hcollapse
      rw [collapse, List.reverse_reverse, List.foldl_append, foldl_pushNormal_of_kept hfront] at hpush
      rw [List.append_nil, List.reverse_append] at hpush
      exact pushed_ne hs hpush
    | _ => exact hl.elim

/-- A module is under the root just as its file is. -/
theorem mem_root_moduleOf (target : Path) :
    .root ∈ (moduleOf target).components ↔ target.isAbsolute = true := by
  rw [← root_mem_iff]
  rcases moduleOf_cases target with hm | ⟨front, last, ht, hl⟩
  · rw [hm]
  · have hlast : Component.root ≠ last := by
      rintro rfl
      exact hl.elim
    rw [← mem_root_collapse, collapse_moduleOf ht hl, mem_root_collapse, ht]
    simp [root_not_mem_stripped hl, hlast]

/-- Nothing leads from a relative path to an absolute one, or back. -/
theorem not_leadsTo_of_apart (h : origin.directory.isAbsolute ≠ target.isAbsolute) :
    ¬ LeadsTo origin (specifierTo origin target) target := by
  rw [leadsTo_iff]
  intro he
  apply h
  have hnamed : Component.root ∉ named (Text.splitText '/' (wayText origin target)) := fun hroot =>
    isPlain_of_mem_named (fun _ => Text.not_mem_of_mem_splitText) hroot
  rw [Bool.eq_iff_iff, ← mem_root_moduleOf target, ← he, components_reached, List.mem_reverse,
    mem_root_foldl, List.mem_reverse, root_mem_iff]
  simp [hnamed]

/-- What is left of a path without a root has the level of its components. -/
theorem level_collapse {cs : List Component} (h : .root ∉ cs) : level (collapse cs) = level cs := by
  rw [collapse, level_reverse, level_foldl (by simp) h, level, Int.zero_add]

/-- The steps up that a way has for `..` lead further up. -/
theorem not_leadsTo_of_climb (h : origin.directory.isAbsolute = target.isAbsolute)
    (hu : .up ∈ (way origin target).1) :
    ¬ LeadsTo origin (specifierTo origin target) target := by
  rw [leadsTo_iff]
  intro he
  obtain ⟨common, ho, ht, -⟩ := exists_common origin target
  have hkept := kept_normalize origin.directory
  rw [ho] at hkept
  have hallUp := forall_up_of_kept hkept hu
  have hrelative : .root ∉ (normalize origin.directory).components := by
    rw [ho]
    intro hroot
    rcases List.mem_append.1 hroot with hroot | hroot
    · exact absurd (hallUp _ hroot) nofun
    · exact (isPlain_of_way h).1 _ hroot
  have hmodule : (way origin target).2 ≠ [] ∨ moduleOf target = normalize target := by
    by_cases hw : (way origin target).2 = []
    · right
      rw [hw, List.append_nil] at ht
      rcases List.eq_nil_or_concat common with hn | ⟨front, last, hc⟩
      · rw [moduleOf, normalize_eq_ofComponents, ht, hn]
        decide
      · rw [List.concat_eq_append] at hc
        obtain rfl := hallUp last (by simp [hc])
        exact moduleOf_eq_normalize (ht.trans hc) trivial strip_up
    · exact .inl hw
  obtain ⟨tail, hway, hcollapse, htail⟩ := exists_tail h ht hmodule
  have hcommon : Component.root ∉ common ++ tail := by
    intro hroot
    rcases List.mem_append.1 hroot with hroot | hroot
    · exact absurd (hallUp _ hroot) nofun
    · exact htail hroot
  have hsteps : Component.root ∉ List.replicate (way origin target).1.length .up ++ tail := by
    intro hroot
    rcases List.mem_append.1 hroot with hroot | hroot
    · exact absurd (List.eq_of_mem_replicate hroot) nofun
    · exact htail hroot
  have hreached : level (moduleOf target).components =
      level common + level (way origin target).1 + (way origin target).1.length + level tail := by
    rw [← he, components_reached, hway, level_reverse,
      level_foldl (by simpa using hrelative) hsteps, level_reverse, ho, level_append, level_append,
      level_replicate_up, Int.add_assoc, Int.add_assoc, Int.add_assoc]
  have hplace : level (moduleOf target).components = level common + level tail := by
    have hnormal : collapse (moduleOf target).components = (moduleOf target).components := by
      rw [← he]
      exact collapse_of_kept (kept_normalize _)
    rw [← hnormal, hcollapse, level_collapse hcommon, level_append]
  have hpos := level_add_length_pos hu
  omega

/-- A specifier leads to its file, except in the cases of `Astray`. -/
theorem leadsTo_specifierTo_iff (origin target : Path) :
    LeadsTo origin (specifierTo origin target) target ↔ ¬ Astray origin target := by
  by_cases h : origin.directory.isAbsolute = target.isAbsolute
  · by_cases hu : .up ∈ (way origin target).1
    · exact iff_of_false (not_leadsTo_of_climb h hu) fun hn => hn (.climb hu)
    · by_cases hs : (way origin target).2 ≠ [] ∨ moduleOf target = normalize target
      · rw [leadsTo_iff, components_reached_eq h hu hs]
        constructor
        · intro he ha
          cases ha with
          | apart hne => exact hne h
          | climb hup => exact hu hup
          | above hw hne => exact hs.elim (fun hn => hn hw) hne
          | unnamed hne => exact hne (by simpa [same] using he)
        · intro ha
          apply Classical.byContradiction
          intro hne
          exact ha (.unnamed (by simpa [same] using hne))
      · obtain ⟨hdown, hne⟩ := not_or.1 hs
        have hw := Classical.not_not.1 hdown
        refine iff_of_false ?_ fun hn => hn (.above hw hne)
        rw [leadsTo_iff, components_reached_up h hu hw]
        exact (moduleOf_components_ne hne).symm
  · exact iff_of_false (not_leadsTo_of_apart h) fun hn => hn (.apart h)

/-- A specifier begins with `./` or `../`. -/
theorem specifierTo_relative (origin target : Path) : ∃ rest,
    specifierTo origin target = "./" ++ rest ∨ specifierTo origin target = "../" ++ rest := by
  rcases specifierTo_cases origin target with ⟨rest, -, h⟩ | h
  · exact ⟨rest, .inr h⟩
  · exact ⟨wayText origin target, .inl h⟩

end Path

/-- An import of a file, as it is resolved: the specifier is relative, and it leads from the target
to the place of the file, except in the cases of `Astray`. -/
theorem ChangeSpec.resolve_importFrom_leadsTo {project : Project} {tree : Tree} {target : Path}
    {identifier : String} {given : Option Path} {change : Change}
    (h : (ChangeSpec.importFrom identifier given).resolve project tree target = .ok change) :
    ∃ file specifier, given = some file ∧ tree.holds project file = true ∧
      change = .insertImport identifier specifier ∧
      (∃ rest, specifier = "./" ++ rest ∨ specifier = "../" ++ rest) ∧
      (Path.LeadsTo target specifier file ↔ ¬ Path.Astray target file) := by
  cases given with
  | none => simp [ChangeSpec.resolve] at h
  | some file =>
    simp only [ChangeSpec.resolve] at h
    split at h
    · rename_i hholds
      refine ⟨file, specifierTo target file, rfl, hholds, (Except.ok.inj h).symm,
        Path.specifierTo_relative target file, Path.leadsTo_specifierTo_iff target file⟩
    · simp at h

def environmentProject : Project where
  view := View.ofTexts ⟨[(⟨"src/environments/environment.ts"⟩, "export const environment = {};\n")]⟩
  reader := fun _ _ => none

theorem ChangeSpec.resolve_importFrom_leadsTo_environment :
    (ChangeSpec.importFrom "environment" (some ⟨"src/environments/environment.ts"⟩)).resolve
        environmentProject Tree.empty ⟨"src/app/app.module.ts"⟩ =
      .ok (.insertImport "environment" "../environments/environment") ∧
    Path.LeadsTo ⟨"src/app/app.module.ts"⟩ "../environments/environment"
      ⟨"src/environments/environment.ts"⟩ := by
  have h : (ChangeSpec.importFrom "environment" (some ⟨"src/environments/environment.ts"⟩)).resolve
      environmentProject Tree.empty ⟨"src/app/app.module.ts"⟩ =
        .ok (.insertImport "environment" "../environments/environment") := by
    have hholds : Tree.empty.holds environmentProject ⟨"src/environments/environment.ts"⟩ = true := by
      decide +kernel
    have hspecifier : specifierTo ⟨"src/app/app.module.ts"⟩ ⟨"src/environments/environment.ts"⟩ =
        "../environments/environment" := by
      decide +kernel
    rw [ChangeSpec.resolve, if_pos hholds, hspecifier]
  obtain ⟨file, specifier, hfile, -, hchange, -, hleads⟩ :=
    ChangeSpec.resolve_importFrom_leadsTo h
  obtain rfl : ⟨"src/environments/environment.ts"⟩ = file := Option.some.inj hfile
  obtain ⟨-, rfl⟩ := Change.insertImport.inj hchange
  refine ⟨h, hleads.2 fun ha => ?_⟩
  cases ha with
  | apart hne => exact hne (by decide +kernel)
  | climb hu => exact absurd hu (by decide +kernel)
  | above hw => exact absurd hw (by decide +kernel)
  | unnamed hne => exact hne (by decide +kernel)

end Codemod
