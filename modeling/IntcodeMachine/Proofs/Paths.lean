import Mathlib.Data.String.Basic
import IntcodeMachine.Storage

/-!
The shortest spelling of a path finds the same file. A program is looked up as
its path was given, and opened as the path is kept; the components that are
dropped in between are those which a walk through the tree passes over. The
spelling only loses characters, so it stays within the limits of a path. Only a
file has to be found again: a directory may be spelled with a slash at its end,
which is lost.
-/

namespace IntcodeMachine

/-- The pieces of a split hold no separator. -/
theorem notMem_of_mem_splitOn {α : Type} [BEq α] [LawfulBEq α] {separator : α}
    {symbols piece : List α} (h : piece ∈ symbols.splitOn separator) :
    separator ∉ piece := by
  induction symbols generalizing piece with
  | nil =>
      have hpiece : piece = [] := by simpa using h
      simp [hpiece]
  | cons s symbols ih =>
      rw [List.splitOn_cons_eq_if_modifyHead] at h
      split at h
      · rcases List.mem_cons.mp h with rfl | hlater
        · exact List.not_mem_nil
        · exact ih hlater
      · next hs =>
          cases hsplit : symbols.splitOn separator with
          | nil => exact absurd hsplit (List.splitOn_ne_nil _ _)
          | cons first later =>
              rw [hsplit] at h ih
              rcases List.mem_cons.mp h with rfl | hlater
              · intro hmem
                rcases List.mem_cons.mp hmem with rfl | hfirst
                · exact hs (beq_self_eq_true _)
                · exact ih (List.mem_cons_self ..) hfirst
              · exact ih (List.mem_cons_of_mem _ hlater)

/-- To leave out pieces leaves out symbols. -/
theorem intercalate_sublist {α : Type} (separator : List α)
    {fewer pieces : List (List α)} (h : fewer.Sublist pieces) :
    (separator.intercalate fewer).Sublist (separator.intercalate pieces) := by
  induction h with
  | slnil => exact .slnil
  | @cons fewer pieces piece hrest ih =>
      cases pieces with
      | nil =>
          rw [List.sublist_nil.mp hrest]
          exact List.nil_sublist _
      | cons next later =>
          rw [List.intercalate_cons_cons]
          exact ih.trans (List.sublist_append_right ..)
  | @cons_cons fewer pieces piece hrest ih =>
      cases fewer with
      | nil =>
          cases pieces with
          | nil => exact .refl _
          | cons next later =>
              rw [List.intercalate_cons_cons, List.intercalate_singleton]
              exact (List.sublist_append_left ..).trans
                (List.sublist_append_left ..)
      | cons kept _ =>
          cases pieces with
          | nil => cases hrest
          | cons next later =>
              rw [List.intercalate_cons_cons, List.intercalate_cons_cons]
              exact (List.Sublist.refl _).append ih

section Components

variable {path : String} {parts : List String}

theorem pathComponents_ne_nil (path : String) : pathComponents path ≠ [] := by
  simp [pathComponents, List.splitOn_ne_nil]

theorem map_toList_pathComponents (path : String) :
    (pathComponents path).map String.toList = path.toList.splitOn '/' := by
  simp [pathComponents, Function.comp_def]

theorem slash_notMem_of_mem_pathComponents {part : String}
    (h : part ∈ pathComponents path) : '/' ∉ part.toList := by
  have hpiece : part.toList ∈ path.toList.splitOn '/' := by
    rw [← map_toList_pathComponents]
    exact List.mem_map_of_mem h
  exact notMem_of_mem_splitOn hpiece

theorem toList_eq_intercalate (path : String) :
    path.toList =
      ['/'].intercalate ((pathComponents path).map String.toList) := by
  rw [map_toList_pathComponents, List.intercalate_splitOn]

theorem pathComponents_intercalate (hne : parts ≠ [])
    (hparts : ∀ part ∈ parts, '/' ∉ part.toList) :
    pathComponents ("/".intercalate parts) = parts := by
  have hsplit : (['/'].intercalate (parts.map String.toList)).splitOn '/' =
      parts.map String.toList := by
    apply List.splitOn_intercalate
    · intro piece hpiece
      obtain ⟨part, hpart, rfl⟩ := List.mem_map.mp hpiece
      exact hparts part hpart
    · simpa using hne
  have hslash : ("/" : String).toList = ['/'] := rfl
  rw [pathComponents, String.toList_intercalate, hslash, hsplit]
  simp [Function.comp_def]

theorem pathComponents_of_slash {rest : List Char}
    (h : path.toList = '/' :: rest) :
    pathComponents path = "" :: pathComponents (String.ofList rest) := by
  simp [pathComponents, h, List.splitOn_cons_eq_if_modifyHead]

end Components

namespace Path

variable {path root relative : String} {parts : List String}

theorem rootOf_cases (path : String) :
    rootOf path = "" ∨
    (rootOf path = "/" ∧ ∃ rest, path.toList = '/' :: rest) ∨
    rootOf path = "//" ∧ ∃ rest, path.toList = '/' :: '/' :: rest := by
  unfold rootOf
  cases hpath : path.toList with
  | nil => simp
  | cons c rest =>
      by_cases hc : c = '/'
      · subst hc
        cases rest with
        | nil => simp
        | cons d rest =>
            by_cases hd : d = '/'
            · subst hd
              split <;> simp
            · simp [hd]
      · simp [hc]

/-- The components that a root is spelled with. -/
def rootComponents (root : String) : List String :=
  if root = "" then [] else if root = "//" then ["", ""] else [""]

theorem eq_empty_of_mem_rootComponents {part : String}
    (h : part ∈ rootComponents root) : part = "" := by
  unfold rootComponents at h
  split at h
  · cases h
  · split at h <;> simpa using h

/-- A path starts with the components of its root. -/
theorem exists_components_eq (path : String) :
    ∃ rest, pathComponents path = rootComponents (rootOf path) ++ rest := by
  rcases rootOf_cases path with hroot | ⟨hroot, rest, hpath⟩ |
    ⟨hroot, rest, hpath⟩
  · rw [hroot]
    exact ⟨_, rfl⟩
  · rw [hroot, pathComponents_of_slash hpath]
    exact ⟨_, rfl⟩
  · have hrest : (String.ofList ('/' :: rest)).toList = '/' :: rest :=
      String.toList_ofList
    rw [hroot, pathComponents_of_slash hpath, pathComponents_of_slash hrest]
    exact ⟨_, rfl⟩

/-- What stands after a root does not change it. -/
theorem rootOf_append (hrelative : relative.toList.head? ≠ some '/') :
    rootOf (rootOf path ++ relative) = rootOf path := by
  have hstop : relative.toList.takeWhile (· = '/') = [] := by
    cases hlist : relative.toList with
    | nil => rfl
    | cons c rest =>
        have hc : c ≠ '/' := by simpa [hlist] using hrelative
        rw [List.takeWhile_cons_of_neg (by simpa using hc)]
  rcases rootOf_cases path with hroot | ⟨hroot, _⟩ | ⟨hroot, _⟩
  all_goals
    rw [hroot]
    simp [rootOf, hstop]

theorem slash_append_intercalate (hne : parts ≠ []) :
    "/" ++ "/".intercalate parts = "/".intercalate ("" :: parts) := by
  obtain ⟨part, later, rfl⟩ := List.exists_cons_of_ne_nil hne
  apply String.toList_inj.mp
  simp [String.toList_intercalate]

/-- A root and components after it are spelled as one row of components. -/
theorem rootOf_append_intercalate (path : String) (hne : parts ≠ []) :
    rootOf path ++ "/".intercalate parts =
      "/".intercalate (rootComponents (rootOf path) ++ parts) := by
  rcases rootOf_cases path with hroot | ⟨hroot, _⟩ | ⟨hroot, _⟩
  · rw [hroot]
    exact String.empty_append
  · rw [hroot]
    exact slash_append_intercalate hne
  · have hslash := slash_append_intercalate (List.cons_ne_nil "" parts)
    rw [← slash_append_intercalate hne, ← String.append_assoc] at hslash
    rw [hroot]
    exact hslash

/-- The components of a path in its shortest spelling are some of its own. -/
theorem components_sublist (path : String) :
    (rootComponents (rootOf path) ++ (ofString path).parts).Sublist
      (pathComponents path) := by
  obtain ⟨rest, hrest⟩ := exists_components_eq path
  have hdropped : (rootComponents (rootOf path)).filter
      (fun part => part ≠ "" ∧ part ≠ ".") = [] := by
    rw [List.filter_eq_nil_iff]
    intro part hpart
    simp [eq_empty_of_mem_rootComponents hpart]
  rw [ofString, hrest, List.filter_append, hdropped, List.nil_append]
  exact (List.filter_sublist ..).append_left _

theorem ne_empty_of_mem_parts {part : String}
    (h : part ∈ (ofString path).parts) : part ≠ "" := by
  have hkept := List.of_mem_filter h
  simp only [decide_eq_true_eq] at hkept
  exact hkept.1

section Shortest

variable (hne : (ofString path).parts ≠ [])

include hne

theorem text_ofString :
    (ofString path).text =
      rootOf path ++ "/".intercalate (ofString path).parts := by
  rw [text, if_neg (fun h => hne h.2)]
  rfl

theorem text_eq_intercalate :
    (ofString path).text = "/".intercalate
      (rootComponents (rootOf path) ++ (ofString path).parts) := by
  rw [text_ofString hne, rootOf_append_intercalate path hne]

theorem pathComponents_text :
    pathComponents (ofString path).text =
      rootComponents (rootOf path) ++ (ofString path).parts := by
  rw [text_eq_intercalate hne]
  apply pathComponents_intercalate
  · simp [hne]
  · intro part hpart
    exact slash_notMem_of_mem_pathComponents
      ((components_sublist path).subset hpart)

/-- The shortest spelling only loses characters. -/
theorem toList_text_sublist :
    (ofString path).text.toList.Sublist path.toList := by
  rw [text_eq_intercalate hne, toList_eq_intercalate path,
    String.toList_intercalate]
  exact intercalate_sublist _ ((components_sublist path).map _)

theorem rootOf_text : rootOf (ofString path).text = rootOf path := by
  rw [text_ofString hne]
  apply rootOf_append
  obtain ⟨part, later, hparts⟩ := List.exists_cons_of_ne_nil hne
  have hpart : part ∈ (ofString path).parts := by simp [hparts]
  have hslash : '/' ∉ part.toList :=
    slash_notMem_of_mem_pathComponents (List.mem_of_mem_filter hpart)
  have hsome : part.toList ≠ [] := by
    simpa using ne_empty_of_mem_parts hpart
  obtain ⟨c, rest, hc⟩ := List.exists_cons_of_ne_nil hsome
  have hhead : (['/'].intercalate
      ((part :: later).map String.toList)).head? = some c := by
    cases later <;> simp [hc]
  rw [hparts, String.toList_intercalate]
  intro hfirst
  have heq : c = '/' := Option.some.inj (hhead.symm.trans hfirst)
  rw [hc, heq] at hslash
  exact hslash (List.mem_cons_self ..)

end Shortest

end Path

namespace Tree

variable {tree : Tree} {path : String} {parts place : List String}
  {content : List UInt8}

/-- A file is found by a path whose components lead to it. -/
theorem lookup_eq_file_iff : tree.lookup path = .file content ↔
    '\x00' ∉ path.toList ∧ path.utf8ByteSize ≤ longestPath ∧ path ≠ "" ∧
      tree.walk (tree.start (Path.rootOf path)) (pathComponents path) =
        .file content := by
  unfold lookup
  rw [String.contains_char_eq]
  by_cases hnull : '\x00' ∈ path.toList
  · simp [hnull]
  by_cases hlong : longestPath < path.utf8ByteSize
  · simp [hnull, hlong, Nat.not_le.mpr hlong]
  by_cases hempty : path = ""
  · simp [hempty]
  simp [hnull, hlong, hempty, Nat.not_lt.mp hlong]

/-- Only from a directory a walk goes on to a file. -/
theorem node?_of_walk_cons {part : String} {rest : List String}
    (h : tree.walk place (part :: rest) = .file content) :
    tree.node? place = some .directory := by
  rw [walk] at h
  cases hnode : tree.node? place with
  | none => simp [hnode] at h
  | some node =>
      cases node with
      | file => simp [hnode] at h
      | directory => rfl

theorem walk_nil_of_directory (h : tree.node? place = some .directory) :
    tree.walk place [] = .directory := by
  rw [walk, h]

theorem walk_cons_of_directory {part : String} {rest : List String}
    (h : tree.node? place = some .directory) :
    tree.walk place (part :: rest) =
      if part = "" ∨ part = "." then tree.walk place rest
      else if part = ".." then tree.walk place.dropLast rest
      else if longestName < part.utf8ByteSize then .tooLong
      else tree.walk (place ++ [part]) rest := by
  rw [walk, h]

/-- Components that stand for the place itself are passed over. -/
theorem walk_filter (h : tree.walk place parts = .file content) :
    tree.walk place (parts.filter fun part => part ≠ "" ∧ part ≠ ".") =
      .file content := by
  induction parts generalizing place with
  | nil => exact h
  | cons part rest ih =>
      have hnode := node?_of_walk_cons h
      rw [walk_cons_of_directory hnode] at h
      by_cases hsame : part = "" ∨ part = "."
      · rw [if_pos hsame] at h
        have hdropped := or_iff_not_imp_left.mp hsame
        rw [List.filter_cons_of_neg (by simpa using hdropped)]
        exact ih h
      · rw [if_neg hsame] at h
        rw [List.filter_cons_of_pos (by simpa using hsame),
          walk_cons_of_directory hnode, if_neg hsame]
        by_cases hup : part = ".."
        · rw [if_pos hup] at h ⊢
          exact ih h
        · rw [if_neg hup] at h ⊢
          split at h
          · cases h
          · next hname =>
              rw [if_neg hname]
              exact ih h

/-- Empty components at a directory lead nowhere else. -/
theorem walk_append_of_directory (h : tree.node? place = some .directory)
    {blank : List String} (hblank : ∀ part ∈ blank, part = "")
    (parts : List String) :
    tree.walk place (blank ++ parts) = tree.walk place parts := by
  induction blank with
  | nil => rfl
  | cons part rest ih =>
      have hpart : part = "" := hblank part (List.mem_cons_self ..)
      rw [List.cons_append, walk_cons_of_directory h, if_pos (Or.inl hpart)]
      exact ih fun part hmem => hblank part (List.mem_cons_of_mem _ hmem)

/-- A file that is found at a path is found at its shortest spelling. -/
theorem lookup_text_ofString (h : tree.lookup path = .file content) :
    tree.lookup (Path.ofString path).text = .file content := by
  obtain ⟨hnull, hsize, _, hwalk⟩ := lookup_eq_file_iff.mp h
  have hnode : tree.node? (tree.start (Path.rootOf path)) =
      some .directory := by
    obtain ⟨part, rest, hparts⟩ :=
      List.exists_cons_of_ne_nil (pathComponents_ne_nil path)
    rw [hparts] at hwalk
    exact node?_of_walk_cons hwalk
  have hkept : tree.walk (tree.start (Path.rootOf path))
      (Path.ofString path).parts = .file content := walk_filter hwalk
  have hne : (Path.ofString path).parts ≠ [] := by
    intro hnil
    rw [hnil, walk_nil_of_directory hnode] at hkept
    cases hkept
  have hfewer := Path.toList_text_sublist hne
  rw [lookup_eq_file_iff, Path.rootOf_text hne, Path.pathComponents_text hne]
  refine ⟨fun hmem => hnull (hfewer.subset hmem), ?_, ?_, ?_⟩
  · have hbytes := String.utf8Len_le_of_sublist hfewer
    rw [← String.utf8ByteSize_ofList, ← String.utf8ByteSize_ofList,
      String.ofList_toList, String.ofList_toList] at hbytes
    exact hbytes.trans hsize
  · intro hempty
    obtain ⟨part, hpart⟩ := List.exists_mem_of_ne_nil _ hne
    have hmem : part ∈ pathComponents "" := by
      rw [← hempty, Path.pathComponents_text hne]
      exact List.mem_append_right _ hpart
    have hblank : part = "" := by simpa [pathComponents] using hmem
    exact Path.ne_empty_of_mem_parts hpart hblank
  · rw [walk_append_of_directory hnode fun part =>
      Path.eq_empty_of_mem_rootComponents]
    exact hkept

end Tree

end IntcodeMachine
