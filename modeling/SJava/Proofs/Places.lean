import SJava.MemoryFiles
import SJava.Proofs.Cutting

/-!
# Places

The place that a path leads to is its normal form, in which no step leads upwards any more. What a
step upwards takes back is the last step of what stands before it, so that the beginning of a path
can be brought into normal form first (`Path.normalize_append`). A path is printed and read again
without change (`Path.ofText_text`), which brings this law to texts, where joining two of them joins
their steps (`Path.ofText_entry`). Files in memory are kept by place: a path finds the last file
that was put at its place (`MemoryFiles.source_ofList_iff`), in whatever order the files come as
long as those at one place have one text (`MemoryFiles.lookup_eq_of_perm`).
-/

namespace SJava

namespace Path

/-! ## Normal forms -/

section

variable {path base rest : Path} {name : String}

theorem foldl_walk (level : Step.up ∉ path) : path.foldl walk base = base ++ path := by
  induction path generalizing base with
  | nil => exact (List.append_nil base).symm
  | cons step path ih =>
      obtain ⟨here, later⟩ := not_or.mp (mt List.mem_cons.mpr level)
      have walked : walk base step = base ++ [step] := by
        cases step with
        | up => contradiction
        | root | name => rfl
      rw [List.foldl_cons, walked, ih later, List.append_assoc, List.singleton_append]

theorem foldl_walk_sublist : (path.foldl walk base).Sublist (base ++ path) := by
  induction path generalizing base with
  | nil => rw [List.append_nil, List.foldl_nil]
  | cons step path ih =>
      have walked : (walk base step).Sublist (base ++ [step]) := by
        cases step with
        | up => exact (List.dropLast_sublist base).trans (List.sublist_append_left _ _)
        | root | name => exact List.Sublist.refl _
      rw [List.foldl_cons]
      refine ih.trans ?_
      rw [List.append_cons]
      exact walked.append_right path

theorem up_notMem_foldl_walk (level : Step.up ∉ base) : Step.up ∉ path.foldl walk base := by
  induction path generalizing base with
  | nil => exact level
  | cons step path ih =>
      apply ih
      cases step with
      | up => exact fun member => level ((List.dropLast_sublist base).subset member)
      | root | name => simpa [walk] using level

theorem up_notMem_normalize : Step.up ∉ normalize path := up_notMem_foldl_walk List.not_mem_nil

theorem normalize_sublist : (normalize path).Sublist path := foldl_walk_sublist

theorem normalize_of_level (level : Step.up ∉ path) : normalize path = path := foldl_walk level

/-- The beginning of a path can be brought into normal form first. -/
theorem normalize_append : normalize (path ++ rest) = normalize (normalize path ++ rest) := by
  have again : normalize (normalize path) = normalize path :=
    normalize_of_level up_notMem_normalize
  calc normalize (path ++ rest)
      _ = rest.foldl walk (normalize path) := List.foldl_append
      _ = rest.foldl walk (normalize (normalize path)) := by rw [again]
      _ = normalize (normalize path ++ rest) := List.foldl_append.symm

theorem normalize_detour : normalize (path ++ (.name name :: .up :: rest)) =
    normalize (path ++ rest) := by
  have back : (normalize path ++ [Step.name name]).dropLast = normalize path :=
    List.dropLast_concat
  calc normalize (path ++ (.name name :: .up :: rest))
      _ = rest.foldl walk (normalize path ++ [Step.name name]).dropLast := List.foldl_append
      _ = rest.foldl walk (normalize path) := by rw [back]
      _ = normalize (path ++ rest) := List.foldl_append.symm

end

/-! ## Texts of paths -/

/-- The name of a file or directory: neither empty nor one of the two that stand for steps, and
without slashes. -/
structure Ordinary (name : String) : Prop where
  notEmpty : name ≠ ""
  notHere : name ≠ "."
  notUp : name ≠ ".."
  slashless : '/' ∉ name.toList

/-- A path as texts lead to it: it starts at the root or nowhere, and its names are ordinary. -/
structure Formed (path : Path) : Prop where
  names : ∀ name, Step.name name ∈ path → Ordinary name
  rootFirst : Step.root ∉ path.tail

section

variable {path : Path} {step : Step} {text part name : String}

theorem step?_of_ordinary (ordinary : Ordinary name) : step? name = some (.name name) := by
  simp [step?, ordinary.notEmpty, ordinary.notHere, ordinary.notUp]

theorem step?_eq_name (read : step? part = some (.name name)) :
    part = name ∧ part ≠ "" ∧ part ≠ "." ∧ part ≠ ".." := by
  unfold step? at read
  split at read
  · cases read
  · split at read
    · cases read
    · cases read
      simp_all

theorem step?_ne_root : step? part ≠ some .root := by
  unfold step?
  split
  · exact nofun
  · split <;> exact nofun

theorem parts_eq_cut : parts text = cut '/' text := rfl

theorem startsWith_slash : text.startsWith "/" = true ↔ ['/'] <+: text.toList :=
  String.startsWith_string_iff

theorem formed_ofText : Formed (ofText text) := by
  have named (name : String) (member : Step.name name ∈ (parts text).filterMap step?) :
      Ordinary name := by
    obtain ⟨part, cut, read⟩ := List.mem_filterMap.mp member
    obtain ⟨rfl, notEmpty, notHere, notUp⟩ := step?_eq_name read
    exact ⟨notEmpty, notHere, notUp, lacks_of_mem_cut cut⟩
  have rootless : Step.root ∉ (parts text).filterMap step? := by
    intro member
    obtain ⟨part, -, read⟩ := List.mem_filterMap.mp member
    exact step?_ne_root read
  unfold ofText
  split
  · refine ⟨fun name member => ?_, rootless⟩
    rcases List.mem_cons.mp member with same | member
    · cases same
    · exact named name member
  · exact ⟨named, fun member => rootless (List.mem_of_mem_tail member)⟩

theorem Formed.sublist {shorter : Path} (formed : path.Formed) (sublist : shorter.Sublist path) :
    shorter.Formed :=
  ⟨fun name member => formed.names name (sublist.subset member),
    fun member => formed.rootFirst (sublist.tail.subset member)⟩

theorem parts_slash (front back : String) :
    parts (front ++ "/" ++ back) = parts front ++ parts back := by
  simp only [parts_eq_cut]
  exact cut_append (by simp)

theorem filterMap_parts_slash (front back : String) :
    (parts (front ++ "/" ++ back)).filterMap step? =
      (parts front).filterMap step? ++ (parts back).filterMap step? := by
  rw [parts_slash, List.filterMap_append]

/-- A step that a part of a path can stand for. -/
def Writable : Step → Prop
  | .root => False
  | .up => True
  | .name name => Ordinary name

theorem step?_stepText (writable : Writable step) : step? (stepText step) = some step := by
  cases step with
  | root => cases writable
  | up => rfl
  | name name => exact step?_of_ordinary writable

theorem slash_notMem_stepText (writable : Writable step) : '/' ∉ (stepText step).toList := by
  cases step with
  | root => cases writable
  | up => decide
  | name name => exact Ordinary.slashless writable

theorem parts_intercalate (writable : ∀ step ∈ path, Writable step) (ne : path ≠ []) :
    parts ("/".intercalate (path.map stepText)) = path.map stepText := by
  refine cut_intercalate rfl (fun piece member => ?_) (by simpa using ne)
  obtain ⟨step, inside, rfl⟩ := List.mem_map.mp member
  exact slash_notMem_stepText (writable step inside)

theorem filterMap_parts_intercalate (writable : ∀ step ∈ path, Writable step) :
    (parts ("/".intercalate (path.map stepText))).filterMap step? = path := by
  by_cases empty : path = []
  · rw [empty]
    decide
  · rw [parts_intercalate writable empty, List.filterMap_map]
    calc path.filterMap (step? ∘ stepText)
        _ = path.filterMap some := List.filterMap_congr fun step inside =>
          step?_stepText (writable step inside)
        _ = path := List.filterMap_some

theorem not_startsWith_intercalate (writable : ∀ step ∈ path, Writable step) :
    ("/".intercalate (path.map stepText)).startsWith "/" = false := by
  rw [← Bool.not_eq_true]
  intro begins
  obtain ⟨rest, chars⟩ := startsWith_slash.mp begins
  have shape : "/".intercalate (path.map stepText) = "" ++ "/" ++ .ofList rest := by
    rw [← String.toList_inj, ← chars]
    simp
  have split : parts ("/".intercalate (path.map stepText)) = "" :: parts (.ofList rest) := by
    rw [shape, parts_slash]
    rfl
  by_cases empty : path = []
  · rw [empty] at chars
    simp at chars
  · rw [parts_intercalate writable empty] at split
    obtain ⟨step, inside, written⟩ : ∃ step ∈ path, stepText step = "" := by
      rw [← List.mem_map, split]
      exact List.mem_cons_self
    have read := step?_stepText (writable step inside)
    rw [written] at read
    cases read

theorem Formed.writable (formed : path.Formed) (rootless : Step.root ∉ path) :
    ∀ step ∈ path, Writable step := by
  intro step member
  cases step with
  | root => exact absurd member rootless
  | up => trivial
  | name name => exact formed.names name member

/-- A path is printed and read again without change. -/
theorem ofText_text (formed : path.Formed) : ofText path.text = path := by
  by_cases absolute : path.head? = some .root
  · obtain ⟨rest, rfl⟩ : ∃ rest, path = .root :: rest := List.head?_eq_some_iff.mp absolute
    have writable : ∀ step ∈ rest, Writable step := fun step member =>
      (formed.sublist (List.sublist_cons_self _ _)).writable formed.rootFirst step member
    have written : text (.root :: rest) = "" ++ "/" ++ "/".intercalate (rest.map stepText) := by
      simp [text]
    rw [ofText, written, filterMap_parts_slash, filterMap_parts_intercalate writable,
      if_pos (by rw [startsWith_slash]; simp)]
    rfl
  · -- Only the first step can be the root, and it is none.
    have rootless : Step.root ∉ path := by
      cases path with
      | nil => exact List.not_mem_nil
      | cons first rest =>
          rw [List.mem_cons, not_or]
          exact ⟨fun same => absolute (by rw [← same]; rfl), formed.rootFirst⟩
    have writable := formed.writable rootless
    have written : path.text = "/".intercalate (path.map stepText) := by
      unfold text
      split
      · simp at absolute
      · rfl
    rw [ofText, written, filterMap_parts_intercalate writable,
      not_startsWith_intercalate writable]
    rfl

end

/-! ## Joining -/

/-- The normal form of a path, as a text. -/
def normalText (text : String) : String := (ofText text).normalize.text

section

variable {text front back name : String}

theorem ofText_normalText : ofText (normalText text) = (ofText text).normalize :=
  ofText_text (formed_ofText.sublist normalize_sublist)

theorem normalText_eq_iff :
    normalText front = normalText back ↔ (ofText front).normalize = (ofText back).normalize := by
  constructor
  · intro same
    rw [← ofText_normalText, same, ofText_normalText]
  · intro same
    rw [normalText, same, normalText]

theorem endsWith_slash : text.endsWith "/" = true ↔ ['/'] <:+ text.toList := by
  rw [String.endsWith_eq_endsWith_toSlice, String.Slice.endsWith_string_iff]
  simp

theorem startsWith_append (ne : front ≠ "") :
    (front ++ back).startsWith "/" = front.startsWith "/" := by
  rw [Bool.eq_iff_iff, startsWith_slash, startsWith_slash, String.toList_append]
  cases chars : front.toList with
  | nil => exact absurd (String.toList_eq_nil_iff.mp chars) ne
  | cons c cs => simp

theorem ofText_of_relative (relative : text.startsWith "/" = false) :
    ofText text = (parts text).filterMap step? := by
  rw [ofText, relative]
  rfl

theorem ofText_append (ne : front ≠ "")
    (steps : (parts (front ++ text)).filterMap step? =
      (parts front).filterMap step? ++ (parts back).filterMap step?)
    (relative : back.startsWith "/" = false) :
    ofText (front ++ text) = ofText front ++ ofText back := by
  rw [ofText_of_relative relative, ofText, ofText, startsWith_append ne, steps]
  split <;> rfl

/-- Joining paths joins their steps. -/
theorem ofText_entry (relative : back.startsWith "/" = false) :
    ofText (entry front back) = ofText front ++ ofText back := by
  rw [entry]
  by_cases empty : front = ""
  · rw [empty]
    simp [show ofText "" = [] by decide]
  · split
    · rename_i closed
      have closed : front.endsWith "/" = true := by simpa [empty] using closed
      obtain ⟨chars, shape⟩ := endsWith_slash.mp closed
      have written : front = .ofList chars ++ "/" ++ "" := by
        rw [← String.toList_inj, ← shape]
        simp
      have joined : front ++ back = .ofList chars ++ "/" ++ back := by
        rw [← String.toList_inj, String.toList_append, ← shape]
        simp
      refine ofText_append empty ?_ relative
      rw [joined, written, filterMap_parts_slash, filterMap_parts_slash,
        show (parts "").filterMap step? = [] by decide, List.append_nil]
    · rw [String.append_assoc]
      refine ofText_append empty ?_ relative
      rw [← String.append_assoc, filterMap_parts_slash]

theorem ofText_of_ordinary (ordinary : Ordinary name) : ofText name = [.name name] := by
  have formed : Formed [.name name] := by
    refine ⟨fun other member => ?_, List.not_mem_nil⟩
    cases List.mem_singleton.mp member
    exact ordinary
  have written : text [.name name] = name := by simp [text, stepText]
  have read := ofText_text formed
  rwa [written] at read

theorem Ordinary.relative (ordinary : Ordinary name) : name.startsWith "/" = false := by
  rw [← Bool.not_eq_true, startsWith_slash]
  exact fun begins => ordinary.slashless (begins.subset List.mem_cons_self)

theorem normalText_normalText : normalText (normalText text) = normalText text := by
  rw [normalText_eq_iff, ofText_normalText]
  exact normalize_of_level up_notMem_normalize

theorem normalText_entry (relative : back.startsWith "/" = false) :
    normalText (entry front back) = normalText (entry (normalText front) back) := by
  rw [normalText_eq_iff, ofText_entry relative, ofText_entry relative, ofText_normalText]
  exact normalize_append

theorem normalText_detour (ordinary : Ordinary name) (relative : back.startsWith "/" = false) :
    normalText (entry (entry (entry front name) "..") back) = normalText (entry front back) := by
  have upwards : ofText ".." = [.up] := by decide +kernel
  have upRelative : "..".startsWith "/" = false := by decide +kernel
  rw [normalText_eq_iff, ofText_entry relative, ofText_entry upRelative,
    ofText_entry ordinary.relative, ofText_entry relative, upwards, ofText_of_ordinary ordinary,
    List.append_assoc, List.append_assoc, List.singleton_append, List.singleton_append]
  exact normalize_detour

end

end Path

/-! ## Files in memory -/

namespace MemoryFiles

variable {files : MemoryFiles} {texts listed order : List (String × String)} {path text : String}
  {source : Source}

/-- Where a file comes to lie, with its text. -/
def placed (file : String × String) : Path × String := ((Path.ofText file.1).normalize, file.2)

theorem entries_foldl : (texts.foldl (fun files (path, text) => files.insert path text)
    files).entries = (texts.map placed).reverse ++ files.entries := by
  induction texts generalizing files with
  | nil => rfl
  | cons file texts ih =>
      rw [List.foldl_cons, ih, List.map_cons, List.reverse_cons, List.append_assoc]
      rfl

theorem entries_ofList : (ofList texts).entries = (texts.map placed).reverse := by
  rw [ofList, entries_foldl]
  exact List.append_nil _

theorem entries_ofMap : (ofMap listed).entries = (listed.map placed).reverse := rfl

theorem lookup_eq_some_iff_mem {entries : List (Path × String)} {place : Path}
    (single : ∀ text other, (place, text) ∈ entries → (place, other) ∈ entries → text = other) :
    entries.lookup place = some text ↔ (place, text) ∈ entries := by
  constructor
  · intro found
    obtain ⟨before, after, rfl, -⟩ := List.lookup_eq_some_iff.mp found
    exact List.mem_append_right before List.mem_cons_self
  · intro member
    cases found : entries.lookup place with
    | none =>
        have absent := List.lookup_eq_none_iff.mp found (place, text) member
        simp at absent
    | some other =>
        obtain ⟨before, after, rfl, -⟩ := List.lookup_eq_some_iff.mp found
        rw [single other text (List.mem_append_right before List.mem_cons_self) member]

/-- A path finds the last file that was put at its place. -/
theorem source_ofList_iff : (ofList texts).source path = .ok source ↔
    ∃ before file after, texts = before ++ file :: after ∧
      Path.normalText file.1 = Path.normalText path ∧
      (∀ later ∈ after, Path.normalText later.1 ≠ Path.normalText path) ∧
      source = .ofBytes file.2.toUTF8 := by
  simp only [ne_eq, Path.normalText_eq_iff]
  rw [MemoryFiles.source, entries_ofList]
  constructor
  · intro found
    split at found
    · rename_i text known
      cases found
      obtain ⟨after, before, split, others⟩ := List.lookup_eq_some_iff.mp known
      -- The entries stand with the last file in front.
      have order := congrArg List.reverse split
      rw [List.reverse_reverse, List.reverse_append, List.reverse_cons, List.append_assoc,
        List.singleton_append] at order
      obtain ⟨front, back, rfl, -, shape⟩ := List.map_eq_append_iff.mp order
      obtain ⟨file, later, rfl, here, rest⟩ := List.map_eq_cons_iff.mp shape
      obtain ⟨place, rfl⟩ := Prod.mk.inj here
      refine ⟨front, file, later, rfl, place, fun other member same => ?_, rfl⟩
      have inside : placed other ∈ after := by
        rw [← List.mem_reverse, ← rest]
        exact List.mem_map_of_mem member
      have different := others (placed other) inside
      simp [placed, same] at different
    · cases found
  · rintro ⟨before, file, after, rfl, here, others, rfl⟩
    have known : ((before ++ file :: after).map placed).reverse.lookup
        (Path.ofText path).normalize = some file.2 := by
      rw [List.lookup_eq_some_iff]
      refine ⟨(after.map placed).reverse, (before.map placed).reverse, ?_, ?_⟩
      · simp [placed, here]
      · intro entry member
        obtain ⟨later, inside, rfl⟩ := List.mem_map.mp (List.mem_reverse.mp member)
        exact bne_iff_ne.mpr fun same => others later inside same.symm
    rw [known]

theorem exists_source_iff : (∃ source, (ofList texts).source path = .ok source) ↔
    ∃ file ∈ texts, Path.normalText file.1 = Path.normalText path := by
  simp only [Path.normalText_eq_iff]
  rw [MemoryFiles.source, entries_ofList]
  constructor
  · rintro ⟨source, found⟩
    split at found
    · rename_i text known
      obtain ⟨after, before, split, -⟩ := List.lookup_eq_some_iff.mp known
      have member : ((Path.ofText path).normalize, text) ∈ texts.map placed := by
        rw [← List.mem_reverse, split]
        exact List.mem_append_right after List.mem_cons_self
      obtain ⟨file, inside, same⟩ := List.mem_map.mp member
      exact ⟨file, inside, (Prod.mk.inj same).1⟩
    · cases found
  · rintro ⟨file, member, here⟩
    split
    · exact ⟨_, rfl⟩
    · rename_i unknown
      have absent := List.lookup_eq_none_iff.mp unknown (placed file)
        (List.mem_reverse.mpr (List.mem_map_of_mem member))
      exact absurd here.symm (bne_iff_ne.mp absent)

/-- In whatever order files are put in memory, and by whichever way, each place has the same text,
provided that those at one place have one text. -/
theorem lookup_eq_of_perm (perm : listed.Perm order)
    (single : ∀ file ∈ listed, ∀ other ∈ listed, file.2 ≠ other.2 →
      Path.normalText file.1 ≠ Path.normalText other.1) (place : Path) :
    (ofMap listed).entries.lookup place = (ofList order).entries.lookup place := by
  have alone (text other : String) (first : (place, text) ∈ listed.map placed)
      (second : (place, other) ∈ listed.map placed) : text = other := by
    obtain ⟨file, inside, same⟩ := List.mem_map.mp first
    obtain ⟨twin, insideToo, sameToo⟩ := List.mem_map.mp second
    obtain ⟨here, rfl⟩ := Prod.mk.inj same
    obtain ⟨hereToo, rfl⟩ := Prod.mk.inj sameToo
    by_contra different
    exact single file inside twin insideToo different
      (Path.normalText_eq_iff.mpr (here.trans hereToo.symm))
  have moved (text : String) : (place, text) ∈ listed.map placed ↔
      (place, text) ∈ order.map placed := (perm.map placed).mem_iff
  apply Option.ext
  intro text
  rw [entries_ofMap, entries_ofList, lookup_eq_some_iff_mem, lookup_eq_some_iff_mem,
    List.mem_reverse, List.mem_reverse, moved]
  · simp only [List.mem_reverse, ← moved]
    exact alone
  · simp only [List.mem_reverse]
    exact alone

theorem source_eq_of_lookup {other : MemoryFiles}
    (same : ∀ place, files.entries.lookup place = other.entries.lookup place) :
    files.source path = other.source path := by
  rw [MemoryFiles.source, MemoryFiles.source, same]

end MemoryFiles

/-- Normal forms are settled, and the beginning of a path and a detour into a directory and back can
be resolved first. A path opens a file in memory exactly if one was put at its normal form, and the
last of these is the one that it serves. Files of a map lie as if they had been put one by one, in
any order, unless two with different texts come to lie at one place. -/
theorem places_resolve :
    (∀ path, Path.normalText (Path.normalText path) = Path.normalText path) ∧
    (∀ path rest, rest.startsWith "/" = false →
      Path.normalText (Path.entry path rest) =
        Path.normalText (Path.entry (Path.normalText path) rest)) ∧
    (∀ path name rest, Path.Ordinary name → rest.startsWith "/" = false →
      Path.normalText (Path.entry (Path.entry (Path.entry path name) "..") rest) =
        Path.normalText (Path.entry path rest)) ∧
    (∀ texts path, ((∃ source, (MemoryFiles.ofList texts).source path = .ok source) ↔
      ∃ file ∈ texts, Path.normalText file.1 = Path.normalText path)) ∧
    (∀ texts path source, ((MemoryFiles.ofList texts).source path = .ok source ↔
      ∃ before file after, texts = before ++ file :: after ∧
        Path.normalText file.1 = Path.normalText path ∧
        (∀ later ∈ after, Path.normalText later.1 ≠ Path.normalText path) ∧
        source = .ofBytes file.2.toUTF8)) ∧
    ∀ listed order : List (String × String), listed.Perm order →
      (∀ file ∈ listed, ∀ other ∈ listed, file.2 ≠ other.2 →
        Path.normalText file.1 ≠ Path.normalText other.1) →
      (∀ place, (MemoryFiles.ofMap listed).entries.lookup place =
        (MemoryFiles.ofList order).entries.lookup place) ∧
      ∀ path, (MemoryFiles.ofMap listed).source path = (MemoryFiles.ofList order).source path := by
  refine ⟨fun _ => Path.normalText_normalText, fun _ _ => Path.normalText_entry,
    fun _ _ _ => Path.normalText_detour, fun _ _ => MemoryFiles.exists_source_iff,
    fun _ _ _ => MemoryFiles.source_ofList_iff, fun listed order perm single => ?_⟩
  have same := MemoryFiles.lookup_eq_of_perm perm single
  exact ⟨same, fun path => MemoryFiles.source_eq_of_lookup same⟩

/-- The first path climbs over the root. The second file takes the place of the first one, which is
written in another way, and two of the three files of the map lie at one place. -/
theorem places_resolve_aliases :
    Path.normalText (Path.entry (Path.entry (Path.entry "/../src" "lib") "..") "./a") = "src/a" ∧
      (MemoryFiles.ofList [("src/a", "int a;"), ("/../src//./a", "int b;")]).source "src/x/../a" =
        .ok (.ofBytes "int b;".toUTF8) ∧
      ∀ path, (MemoryFiles.ofMap [("a", "int a;"), ("b/../a", "int a;"), ("b", "")]).source path =
        (MemoryFiles.ofList [("b", ""), ("b/../a", "int a;"), ("a", "int a;")]).source path := by
  obtain ⟨-, front, detour, -, opens, order⟩ := places_resolve
  refine ⟨?_, ?_, ?_⟩
  · have ordinary : Path.Ordinary "lib" := ⟨by decide, by decide, by decide, by decide⟩
    have relative : "./a".startsWith "/" = false := by decide +kernel
    rw [detour _ _ _ ordinary relative, front _ _ relative]
    decide +kernel
  · have same : Path.normalText "/../src//./a" = Path.normalText "src/x/../a" := by
      decide +kernel
    exact (opens _ _ _).mpr ⟨[("src/a", "int a;")], _, [], rfl, same, nofun, rfl⟩
  · exact (order _ _ (by decide) (by decide +kernel)).2

end SJava
