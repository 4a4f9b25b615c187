import Mathlib.Data.List.DropRight
import Mathlib.Tactic.SplitIfs
import SetCover.Text.Blank

/-!
# Segments between commas

A `Segment` is what may stand between two commas: a name without comma, or nothing, with blanks on
either side.  Every text is written from segments, and reading the text gives the names that stand
in them, in their order, whatever the blanks are.
-/

namespace SetCover.Text

/-- A name with blanks around it.  The name may be missing. -/
structure Segment where
  left : List Char
  name : List Char
  right : List Char
  isBlank_left : ∀ c ∈ left, isBlank c = true
  isBlank_right : ∀ c ∈ right, isBlank c = true
  isBlank_head : ∀ c ∈ name.head?, isBlank c = false
  isBlank_getLast : ∀ c ∈ name.getLast?, isBlank c = false
  comma_notMem : ',' ∉ name

namespace Segment

/-- The characters of a segment, blanks and name. -/
def text (x : Segment) : List Char := x.left ++ x.name ++ x.right

/-- The text that segments make, with commas between them. -/
def written (xs : List Segment) : String := String.ofList ([','].intercalate (xs.map text))

/-- The names that stand in segments. -/
def names (xs : List Segment) : List String :=
  ((xs.map name).filter (!·.isEmpty)).map String.ofList

theorem isBlank_comma : isBlank ',' = false := by decide

theorem comma_notMem_text (x : Segment) : ',' ∉ x.text := by
  simp only [text, List.mem_append, not_or]
  refine ⟨⟨fun h => ?_, x.comma_notMem⟩, fun h => ?_⟩
  · exact Bool.false_ne_true (isBlank_comma.symm.trans (x.isBlank_left _ h))
  · exact Bool.false_ne_true (isBlank_comma.symm.trans (x.isBlank_right _ h))

/-! ### Reading -/

theorem dropWhile_isBlank_append {s t : List Char} (hs : ∀ c ∈ s, isBlank c = true)
    (ht : ∀ c ∈ t.head?, isBlank c = false) : (s ++ t).dropWhile isBlank = t := by
  rw [List.dropWhile_append_of_pos hs]
  cases t with
  | nil => rfl
  | cons c t => exact List.dropWhile_cons_of_neg (by simp [ht c rfl])

/-- Trimming a segment leaves its name. -/
theorem trim_text (x : Segment) : trim x.text = x.name := by
  by_cases hname : x.name = []
  · have hblank : x.text.dropWhile isBlank = [] := by
      rw [List.dropWhile_eq_nil_iff, text, hname, List.append_nil]
      intro c hc
      exact (List.mem_append.1 hc).elim (x.isBlank_left c) (x.isBlank_right c)
    rw [trim, hblank, hname]
    rfl
  · have hleft : x.text.dropWhile isBlank = x.name ++ x.right := by
      rw [text, List.append_assoc]
      refine dropWhile_isBlank_append x.isBlank_left ?_
      rw [List.head?_append_of_ne_nil _ hname]
      exact x.isBlank_head
    have hright : (x.name ++ x.right).reverse.dropWhile isBlank = x.name.reverse := by
      rw [List.reverse_append]
      refine dropWhile_isBlank_append (fun c hc => x.isBlank_right c (List.mem_reverse.1 hc)) ?_
      rw [List.head?_reverse]
      exact x.isBlank_getLast
    rw [trim, hleft, hright, List.reverse_reverse]

/-- Reading what segments make gives the names that stand in them. -/
theorem segments_written (xs : List Segment) : segments (written xs) = names xs := by
  have hsplit : (written xs).toList.splitOn ',' = if xs = [] then [[]] else xs.map text := by
    rw [written, String.toList_ofList]
    split_ifs with hxs
    · rw [hxs]
      rfl
    · refine List.splitOn_intercalate _ ?_ (by simpa using hxs)
      simp only [List.mem_map, forall_exists_index, and_imp, forall_apply_eq_imp_iff₂]
      exact fun x _ => x.comma_notMem_text
  rw [segments, hsplit, names]
  split_ifs with hxs
  · rw [hxs]
    rfl
  · rw [List.map_map]
    congr 3
    funext x
    exact x.trim_text

/-! ### Writing -/

/-- A text without comma as a segment. -/
def ofText (s : List Char) (hs : ',' ∉ s) : Segment where
  left := s.takeWhile isBlank
  name := (s.dropWhile isBlank).rdropWhile isBlank
  right := (s.dropWhile isBlank).rtakeWhile isBlank
  isBlank_left := fun _ => List.mem_takeWhile_imp
  isBlank_right := fun _ => List.mem_rtakeWhile_imp
  isBlank_head := by
    intro c hc
    obtain ⟨t, ht⟩ := List.rdropWhile_prefix isBlank (s.dropWhile isBlank)
    have hhead := List.head?_dropWhile_not isBlank s
    rw [← ht, List.head?_append, Option.mem_def.1 hc] at hhead
    exact hhead
  isBlank_getLast := by
    intro c hc
    obtain ⟨hne, rfl⟩ := List.mem_getLast?_eq_getLast hc
    exact Bool.eq_false_iff.2 (List.rdropWhile_last_not isBlank _ hne)
  comma_notMem := fun h => hs
    ((List.dropWhile_subset _) ((List.rdropWhile_prefix _ _).subset h))

theorem text_ofText (s : List Char) (hs : ',' ∉ s) : (ofText s hs).text = s := by
  rw [text, ofText, List.append_assoc, List.rdropWhile_append_rtakeWhile,
    List.takeWhile_append_dropWhile]

/-- A character in front of a text begins its first segment, or ends an empty one before it. -/
theorem exists_cons (c : Char) (xs : List Segment) (hxs : xs ≠ []) :
    ∃ ys : List Segment, ys ≠ [] ∧
      [','].intercalate (ys.map text) = c :: [','].intercalate (xs.map text) := by
  obtain ⟨x, xs, rfl⟩ := List.exists_cons_of_ne_nil hxs
  by_cases hc : c = ','
  · refine ⟨ofText [] (by simp) :: x :: xs, by simp, ?_⟩
    rw [List.map_cons, text_ofText, hc, List.map_cons, List.intercalate_cons_cons]
    rfl
  · have hmem : ',' ∉ c :: x.text := by
      rw [List.mem_cons, not_or]
      exact ⟨Ne.symm hc, x.comma_notMem_text⟩
    refine ⟨ofText (c :: x.text) hmem :: xs, by simp, ?_⟩
    rw [List.map_cons, text_ofText, List.map_cons]
    cases xs with
    | nil => rfl
    | cons y xs => simp only [List.map_cons, List.intercalate_cons_cons, List.cons_append]

/-- Every text is made of segments. -/
theorem exists_written (s : String) : ∃ xs, written xs = s := by
  have hchars : ∀ cs : List Char, ∃ xs : List Segment, xs ≠ [] ∧
      [','].intercalate (xs.map text) = cs := by
    intro cs
    induction cs with
    | nil => exact ⟨[ofText [] (by simp)], by simp, rfl⟩
    | cons c cs ih =>
        obtain ⟨xs, hxs, rfl⟩ := ih
        exact exists_cons c xs hxs
  obtain ⟨xs, -, hxs⟩ := hchars s.toList
  exact ⟨xs, by rw [written, hxs, String.ofList_toList]⟩

end Segment

end SetCover.Text
