/-
The names on a path are what it was written from.

A path is taken apart at its slashes, and the empty names that two slashes leave between them
do not count.  So the names of a path have no slash in them and are not empty, and such names,
written with slashes between them, are read back.  That is how the path of a directory on the
way, which `ancestors` writes anew, comes to lead along the names of the path itself.
-/
import Mathlib.Data.String.Basic
import EditHistory.Files

namespace EditHistory

variable {names : List String} {path dir : String}

/-! ### Taking a path apart -/

section

open String

/-- What comes before `l ++ m ++ r` is taken apart, with the name begun in `m`. -/
theorem splitOnAux_slash (l m r : List Char) (found : List String) :
    splitOnAux (ofList (l ++ m ++ r)) "/" ⟨utf8Len l⟩ ⟨utf8Len l + utf8Len m⟩ 0 found
      = found.reverse ++ (List.splitOnPPrepend (· == '/') r m.reverse).map ofList := by
  induction r generalizing l m found with
  | nil =>
      have hend : Pos.Raw.atEnd (ofList (l ++ m ++ [])) ⟨utf8Len l + utf8Len m⟩ = true := by
        rw [atEnd_iff, rawEndPos_ofList, List.append_nil, utf8Len_append]
        exact Nat.le_refl _
      rw [splitOnAux, if_pos hend, extract_of_valid]
      simp
  | cons c r ih =>
      have hend : ¬Pos.Raw.atEnd (ofList (l ++ m ++ c :: r)) ⟨utf8Len l + utf8Len m⟩ = true := by
        have hc := c.utf8Size_pos
        rw [atEnd_iff, rawEndPos_ofList, utf8Len_append, utf8Len_append, Pos.Raw.mk_le_mk,
          utf8Len_cons]
        omega
      have hget := get_of_valid (l ++ m) (c :: r)
      have hnext := next_of_valid (l ++ m) c r
      rw [utf8Len_append] at hget hnext
      rw [splitOnAux, if_neg hend, hget]
      -- the separator is one character, so a match of it ends at once
      change (if (c == '/') = true then
          splitOnAux _ "/" (Pos.Raw.next _ _) (Pos.Raw.next _ _) 0 (_ :: found)
        else splitOnAux _ "/" _ (Pos.Raw.next _ ⟨utf8Len l + utf8Len m⟩) 0 found) = _
      rw [hnext]
      by_cases hc : (c == '/') = true
      · obtain rfl : c = '/' := eq_of_beq hc
        have hback : Pos.Raw.unoffsetBy ⟨utf8Len l + utf8Len m + '/'.utf8Size⟩
            (Pos.Raw.next "/" 0) = ⟨utf8Len l + utf8Len m⟩ := rfl
        have hrest := ih (l ++ m ++ ['/']) [] (ofList m :: found)
        rw [if_pos hc, hback, extract_of_valid, List.splitOnPPrepend_cons_pos (by exact hc)]
        simpa [utf8Len_append, Nat.add_assoc] using hrest
      · have hrest := ih l (m ++ [c]) found
        rw [if_neg hc, List.splitOnPPrepend_cons_neg (by simpa using hc)]
        simpa [utf8Len_append, Nat.add_assoc] using hrest

theorem splitOn_slash (s : String) : s.splitOn "/" = (s.toList.splitOn '/').map ofList := by
  have hall := splitOnAux_slash [] [] s.toList []
  simpa [splitOn, List.splitOn_eq_splitOnP] using hall

end

/-- No part has the separator in it. -/
theorem not_mem_of_mem_splitOn {a : Char} {cs part : List Char} (h : part ∈ cs.splitOn a) :
    a ∉ part := by
  induction cs generalizing part with
  | nil =>
      obtain rfl : part = [] := by simpa using h
      exact List.not_mem_nil
  | cons c cs ih =>
      rw [List.splitOn_cons_eq_if_modifyHead] at h
      split at h
      · rcases List.mem_cons.mp h with rfl | h
        · exact List.not_mem_nil
        · exact ih h
      · rename_i hc
        cases hrest : cs.splitOn a with
        | nil => exact absurd hrest (List.splitOn_ne_nil a cs)
        | cons first rest =>
            rw [hrest] at h ih
            rcases List.mem_cons.mp h with rfl | h
            · have hne : a ≠ c := fun hac => hc (beq_iff_eq.mpr hac.symm)
              exact List.not_mem_cons_of_ne_of_not_mem hne (ih List.mem_cons_self)
            · exact ih (List.mem_cons_of_mem _ h)

/-- A name that can stand on a path. -/
structure IsName (name : String) : Prop where
  ne_empty : name ≠ ""
  slash_not_mem : '/' ∉ name.toList

instance (name : String) : Decidable (IsName name) :=
  decidable_of_iff (name ≠ "" ∧ '/' ∉ name.toList) ⟨fun h => ⟨h.1, h.2⟩, fun h => ⟨h.1, h.2⟩⟩

theorem isName_of_mem_pathNames {name : String} (h : name ∈ pathNames path) : IsName name := by
  obtain ⟨hname, hne⟩ := List.mem_filter.mp h
  rw [splitOn_slash] at hname
  obtain ⟨part, hpart, rfl⟩ := List.mem_map.mp hname
  refine ⟨by simpa using hne, ?_⟩
  rw [String.toList_ofList]
  exact not_mem_of_mem_splitOn hpart

/-! ### Putting a path together -/

/-- The path along some names, from the root or from the current directory. -/
def pathAlong (rooted : Bool) (names : List String) : String :=
  (if rooted then "/" else "") ++ String.intercalate "/" names

theorem splitOn_intercalate_slash (hnames : ∀ name ∈ names, IsName name) (hne : names ≠ []) :
    (String.intercalate "/" names).toList.splitOn '/' = names.map String.toList := by
  rw [String.toList_intercalate]
  refine List.splitOn_intercalate '/' ?_ (by simpa using hne)
  rintro _ hmem
  obtain ⟨name, hname, rfl⟩ := List.mem_map.mp hmem
  exact (hnames name hname).slash_not_mem

/-- At its slashes it comes apart into the names, after nothing if it starts at the root. -/
theorem splitOn_pathAlong (rooted : Bool) (hnames : ∀ name ∈ names, IsName name)
    (hne : names ≠ []) : (pathAlong rooted names).toList.splitOn '/'
      = (if rooted then [[]] else []) ++ names.map String.toList := by
  rw [← splitOn_intercalate_slash hnames hne, pathAlong, String.toList_append]
  cases rooted with
  | true => exact List.splitOn_append_cons_self [] _
  | false => rfl

theorem pathNames_pathAlong (rooted : Bool) (hnames : ∀ name ∈ names, IsName name)
    (hne : names ≠ []) : pathNames (pathAlong rooted names) = names := by
  have hall : (names.filter fun name => !name.isEmpty) = names :=
    List.filter_eq_self.mpr fun name hname => by simpa using (hnames name hname).ne_empty
  have hnames' : (names.map String.toList).map String.ofList = names := by simp
  rw [pathNames, splitOn_slash, splitOn_pathAlong rooted hnames hne, List.map_append,
    List.filter_append, hnames', hall]
  cases rooted <;> rfl

theorem isEmpty_pathAlong (rooted : Bool) (hnames : ∀ name ∈ names, IsName name)
    (hne : names ≠ []) : (pathAlong rooted names).isEmpty = false := by
  refine Bool.eq_false_iff.mpr fun hempty => hne ?_
  have hnone : pathNames "" = [] := by
    rw [pathNames, splitOn_slash]
    decide
  rw [← pathNames_pathAlong rooted hnames hne, String.isEmpty_iff.mp hempty, hnone]

/-- None of the names is empty, so no slash stands at either end of them. -/
theorem nil_not_mem_parts (hnames : ∀ name ∈ names, IsName name) :
    [] ∉ names.map String.toList := by
  intro hmem
  obtain ⟨name, hname, hempty⟩ := List.mem_map.mp hmem
  exact (hnames name hname).ne_empty (String.toList_eq_nil_iff.mp hempty)

theorem startsWith_pathAlong (rooted : Bool) (hnames : ∀ name ∈ names, IsName name)
    (hne : names ≠ []) : (pathAlong rooted names).startsWith "/" = rooted := by
  cases rooted with
  | true => exact String.startsWith_string_iff.mpr ⟨_, (String.toList_append ..).symm⟩
  | false =>
      refine String.startsWith_string_eq_false_iff.mpr ?_
      rintro ⟨rest, hrest⟩
      have hparts := splitOn_pathAlong false hnames hne
      have hsplit : ("/".toList ++ rest).splitOn '/' = [] ++ [[]] ++ rest.splitOn '/' :=
        List.splitOn_append_cons_self [] rest
      rw [← hrest, hsplit] at hparts
      exact nil_not_mem_parts hnames (List.mem_of_mem_head? (congrArg List.head? hparts).symm)

theorem endsWith_pathAlong (rooted : Bool) (hnames : ∀ name ∈ names, IsName name)
    (hne : names ≠ []) : (pathAlong rooted names).endsWith "/" = false := by
  rw [String.endsWith_eq_endsWith_toSlice, String.Slice.endsWith_string_eq_false_iff,
    String.copy_toSlice]
  rintro ⟨front, hfront⟩
  have hparts := splitOn_pathAlong rooted hnames hne
  have hsplit : (front ++ "/".toList).splitOn '/' = front.splitOn '/' ++ [[]] :=
    List.splitOn_append_cons_self front []
  rw [← hfront, hsplit] at hparts
  have hlast := congrArg List.getLast? hparts
  rw [List.getLast?_concat, List.getLast?_append_of_ne_nil _ (by simpa using hne)] at hlast
  exact nil_not_mem_parts hnames (List.mem_of_getLast? hlast.symm)

/-! ### The directories on the way -/

/-- A directory on the way is the path along some of the names, and there is a name after them. -/
theorem mem_ancestors (h : dir ∈ ancestors path) : ∃ names next rest,
    (pathNames path).filter (· ≠ ".") = names ++ next :: rest ∧ names ≠ [] ∧
      (∀ name ∈ names, IsName name) ∧ dir = pathAlong (path.startsWith "/") names := by
  obtain ⟨count, hcount, rfl⟩ := List.mem_map.mp h
  obtain ⟨hpos, hlt⟩ := List.mem_range'_1.mp hcount
  have hlt' : count < ((pathNames path).filter (· ≠ ".")).length := by omega
  have hsplit := (List.take_append_drop count ((pathNames path).filter (· ≠ "."))).symm
  rw [List.drop_eq_getElem_cons hlt'] at hsplit
  refine ⟨_, _, _, hsplit, fun hnil => ?_, fun name hname => ?_, rfl⟩
  · have hlength := congrArg List.length hnil
    rw [List.length_take, List.length_nil] at hlength
    omega
  · exact isName_of_mem_pathNames (List.mem_of_mem_filter (List.mem_of_mem_take hname))

end EditHistory
