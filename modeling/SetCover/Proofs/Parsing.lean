import Mathlib.Data.Set.List
import SetCover.Options
import SetCover.Proofs.Results
import SetCover.Proofs.Text.Segment

/-!
# Reading options

Options are read from the names of an algorithm and of a selector and from a text with the names of
lower bounds.  They are read if and only if every name is known and there is a lower bound; the
lower bounds then come in the order of the text, as often as they stand there.  Otherwise the first
unknown lower bound is reported, then that there is none, then an unknown algorithm and last an
unknown selector.
-/

namespace SetCover

/-! ### Names -/

/-- To read a name gives what it stands for, and any other text is unknown. -/
structure Reads {κ : Type} (name : κ → String) (unknown : String → ConfigurationError)
    (parse : String → Except ConfigurationError κ) : Prop where
  eq_ok_iff : ∀ s k, parse s = .ok k ↔ s = name k
  eq_error_iff : ∀ s e, parse s = .error e ↔ s ∉ Set.range name ∧ e = unknown s

theorem Reads.of {κ : Type} {name : κ → String} {unknown : String → ConfigurationError}
    {parse : String → Except ConfigurationError κ} (hok : ∀ s k, parse s = .ok k ↔ s = name k)
    (herror : ∀ s e, parse s = .error e → e = unknown s) : Reads name unknown parse where
  eq_ok_iff := hok
  eq_error_iff := by
    intro s e
    constructor
    · intro h
      refine ⟨?_, herror s e h⟩
      rintro ⟨k, rfl⟩
      rw [(hok _ k).2 rfl] at h
      exact nomatch h
    · rintro ⟨hs, rfl⟩
      cases h : parse s with
      | ok k => exact absurd ⟨k, ((hok s k).1 h).symm⟩ hs
      | error e => rw [herror s e h]

theorem Algorithm.reads : Reads Algorithm.name .unknownAlgorithm Algorithm.parse := by
  refine .of (fun _ _ => parse_eq_ok_iff) fun s e h => ?_
  unfold parse at h
  split at h <;> cases h
  rfl

theorem BoundKind.reads : Reads BoundKind.name .unknownLowerBound BoundKind.parse := by
  refine .of (fun _ _ => parse_eq_ok_iff) fun s e h => ?_
  unfold parse at h
  split at h <;> cases h
  rfl

theorem SelectionRule.reads : Reads SelectionRule.name .unknownSelector SelectionRule.parse := by
  refine .of (fun _ _ => parse_eq_ok_iff) fun s e h => ?_
  unfold parse at h
  split at h <;> cases h
  rfl

namespace Reads

variable {κ : Type} {name : κ → String} {unknown : String → ConfigurationError}
variable {parse : String → Except ConfigurationError κ} {s : String} {ss : List String}
variable {ks : List κ} {e : ConfigurationError}

theorem exists_eq_ok_iff (h : Reads name unknown parse) :
    (∃ k, parse s = .ok k) ↔ s ∈ Set.range name := by
  simp only [h.eq_ok_iff, Set.mem_range, eq_comm]

/-- A list of names stands for a list of things, in the same order. -/
theorem mapM_eq_ok_iff (h : Reads name unknown parse) :
    ss.mapM parse = .ok ks ↔ ss = ks.map name := by
  rw [SetCover.mapM_eq_ok_iff]
  induction ss generalizing ks with
  | nil => cases ks <;> simp
  | cons s ss ih => cases ks <;> simp [h.eq_ok_iff, ih]

/-- The first text that is not a name is reported. -/
theorem mapM_eq_error_iff (h : Reads name unknown parse) :
    ss.mapM parse = .error e ↔ ∃ before bad behind, ss = before ++ bad :: behind ∧
      (∀ s ∈ before, s ∈ Set.range name) ∧ bad ∉ Set.range name ∧ e = unknown bad := by
  simp only [SetCover.mapM_eq_error_iff, h.exists_eq_ok_iff, h.eq_error_iff]

end Reads

/-! ### Options -/

namespace Options

open Text.Segment

variable {a l s : String} {o : Options} {kinds : List BoundKind} {xs : List Text.Segment}
variable {e : ConfigurationError}

theorem parseLowerBounds_written_eq_ok_iff : parseLowerBounds (written xs) = .ok kinds ↔
    kinds ≠ [] ∧ names xs = kinds.map BoundKind.name := by
  rw [parseLowerBounds, segments_written, ← BoundKind.reads.mapM_eq_ok_iff]
  cases (names xs).mapM BoundKind.parse with
  | error e => simp [bind, Except.bind]
  | ok ks =>
      cases ks with
      | nil =>
          change Except.error _ = Except.ok kinds ↔ kinds ≠ [] ∧ Except.ok [] = Except.ok kinds
          simp
      | cons k ks =>
          change Except.ok (k :: ks) = Except.ok kinds ↔ kinds ≠ [] ∧ Except.ok (k :: ks) = _
          refine ⟨fun h => ⟨?_, h⟩, And.right⟩
          cases h
          exact List.cons_ne_nil k ks

theorem parseLowerBounds_written_eq_error_iff : parseLowerBounds (written xs) = .error e ↔
    (∃ before bad behind, names xs = before ++ bad :: behind ∧
      (∀ n ∈ before, n ∈ Set.range BoundKind.name) ∧ bad ∉ Set.range BoundKind.name ∧
      e = .unknownLowerBound bad) ∨
    names xs = [] ∧ e = .emptyLowerBoundList := by
  have hempty : names xs = [] ↔ (names xs).mapM BoundKind.parse = .ok [] := by
    rw [BoundKind.reads.mapM_eq_ok_iff, List.map_nil]
  rw [parseLowerBounds, segments_written, ← BoundKind.reads.mapM_eq_error_iff, hempty]
  cases (names xs).mapM BoundKind.parse with
  | error e' => simp [bind, Except.bind]
  | ok ks =>
      cases ks with
      | nil =>
          change Except.error _ = Except.error e ↔ _
          simp [eq_comm]
      | cons k ks =>
          change Except.ok _ = Except.error e ↔ _
          simp

/-- Some lower bounds are read if there is a name and all names are known. -/
theorem exists_parseLowerBounds_written : (∃ kinds, parseLowerBounds (written xs) = .ok kinds) ↔
    names xs ≠ [] ∧ ∀ n ∈ names xs, n ∈ Set.range BoundKind.name := by
  have hrange : (∀ n ∈ names xs, n ∈ Set.range BoundKind.name) ↔
      names xs ∈ Set.range (List.map BoundKind.name) := by
    rw [Set.range_list_map, Set.mem_ofPred_eq]
  rw [hrange]
  simp only [parseLowerBounds_written_eq_ok_iff, Set.mem_range]
  constructor
  · rintro ⟨kinds, hne, hnames⟩
    exact ⟨by simpa [hnames] using hne, kinds, hnames.symm⟩
  · rintro ⟨hne, kinds, hnames⟩
    exact ⟨kinds, by simpa [← hnames] using hne, hnames.symm⟩

theorem parse_eq_ok_iff : parse a l s = .ok o ↔ ∃ kinds algorithm selector,
    parseLowerBounds l = .ok kinds ∧ Algorithm.parse a = .ok algorithm ∧
      SelectionRule.parse s = .ok selector ∧
      o = { algorithm, lowerBounds := kinds, selector } := by
  rw [parse]
  cases parseLowerBounds l <;> cases Algorithm.parse a <;> cases SelectionRule.parse s <;>
    simp [bind, Except.bind, pure, Except.pure, eq_comm]

theorem parse_eq_error_iff : parse a l s = .error e ↔ parseLowerBounds l = .error e ∨
    (∃ kinds, parseLowerBounds l = .ok kinds) ∧ (Algorithm.parse a = .error e ∨
      (∃ algorithm, Algorithm.parse a = .ok algorithm) ∧ SelectionRule.parse s = .error e) := by
  rw [parse]
  cases parseLowerBounds l <;> cases Algorithm.parse a <;> cases SelectionRule.parse s <;>
    simp [bind, Except.bind, pure, Except.pure]

/-- Every text is made of segments, so the rest speaks of all texts.  Options are read if and only if
the names that stand in the segments are names of lower bounds, at least one, and the other two
names are known.  Otherwise the first failure is reported, with the lower bounds looked at first.
So the names of lower bounds, with any blanks and empty segments between them, are read again. -/
theorem parse_written :
    (∀ l, ∃ xs, written xs = l) ∧
    (∀ a s xs o, parse a (written xs) s = .ok o ↔ ∃ kinds algorithm selector, kinds ≠ [] ∧
      names xs = kinds.map BoundKind.name ∧ a = algorithm.name ∧ s = selector.name ∧
      o = { algorithm, lowerBounds := kinds, selector }) ∧
    (∀ a s xs e, parse a (written xs) s = .error e ↔
      (∃ before bad behind, names xs = before ++ bad :: behind ∧
        (∀ n ∈ before, n ∈ Set.range BoundKind.name) ∧ bad ∉ Set.range BoundKind.name ∧
        e = .unknownLowerBound bad) ∨
      names xs = [] ∧ e = .emptyLowerBoundList ∨
      (names xs ≠ [] ∧ ∀ n ∈ names xs, n ∈ Set.range BoundKind.name) ∧
        (a ∉ Set.range Algorithm.name ∧ e = .unknownAlgorithm a ∨
          a ∈ Set.range Algorithm.name ∧ s ∉ Set.range SelectionRule.name ∧
          e = .unknownSelector s)) ∧
    ∀ kinds xs (algorithm : Algorithm) (selector : SelectionRule), kinds ≠ [] →
      names xs = kinds.map BoundKind.name →
      parse algorithm.name (written xs) selector.name =
        .ok { algorithm, lowerBounds := kinds, selector } := by
  have hok : ∀ a s xs o, parse a (written xs) s = .ok o ↔ ∃ kinds algorithm selector, kinds ≠ [] ∧
      names xs = kinds.map BoundKind.name ∧ a = algorithm.name ∧ s = selector.name ∧
      o = { algorithm, lowerBounds := kinds, selector } := by
    intro a s xs o
    simp only [parse_eq_ok_iff, parseLowerBounds_written_eq_ok_iff, Algorithm.parse_eq_ok_iff,
      SelectionRule.parse_eq_ok_iff, and_assoc]
  refine ⟨exists_written, hok, fun a s xs e => ?_, ?_⟩
  · rw [parse_eq_error_iff, parseLowerBounds_written_eq_error_iff, exists_parseLowerBounds_written,
      Algorithm.reads.eq_error_iff, Algorithm.reads.exists_eq_ok_iff,
      SelectionRule.reads.eq_error_iff, or_assoc]
  · intro kinds xs algorithm selector hne hnames
    exact (hok _ _ _ _).2 ⟨kinds, algorithm, selector, hne, hnames, rfl, rfl, rfl⟩

/-- Blanks and an empty segment stand between three lower bounds, one of them twice.  A lower bound
that is unknown is reported without its blanks, and before an unknown algorithm. -/
theorem parse_written_with_blanks :
    parse "greedy" " mis-heap,,split\t ,mis-heap" "cs" =
      .ok { algorithm := .greedy, lowerBounds := [.misHeap, .split, .misHeap], selector := .cs } ∧
    parse "fast" "split, lp ,xy" "cs" = .error (.unknownLowerBound "lp") := by
  obtain ⟨hwritten, -, herror, hround⟩ := parse_written
  constructor
  · obtain ⟨xs, hxs⟩ := hwritten " mis-heap,,split\t ,mis-heap"
    have hnames : names xs = [BoundKind.misHeap, .split, .misHeap].map BoundKind.name := by
      rw [← segments_written, hxs]
      decide
    rw [← hxs]
    exact hround _ xs .greedy .cs (by decide) hnames
  · obtain ⟨xs, hxs⟩ := hwritten "split, lp ,xy"
    have hnames : names xs = ["split"] ++ "lp" :: ["xy"] := by
      rw [← segments_written, hxs]
      decide
    rw [← hxs]
    refine (herror _ _ xs _).2 (Or.inl ⟨_, _, _, hnames, ?_, ?_, rfl⟩)
    · simp only [List.mem_singleton, forall_eq]
      exact ⟨.split, rfl⟩
    · rintro ⟨b, hb⟩
      cases b <;> exact absurd hb (by decide)

end Options

end SetCover
