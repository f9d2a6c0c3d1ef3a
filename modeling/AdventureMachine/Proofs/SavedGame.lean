import AdventureMachine.Shell.Path
import Mathlib.Data.List.TakeWhile

/-! Where a saved game lives. A name without a directory part is looked up in the folder for saved
games, and a name with one is used as it stands. The exception is a part directly below a single
dot: its directory is written like that of a bare name, so it is looked up in the folder as well. -/
namespace AdventureMachine.Path

/-- The last part of a path stands below `front`. Separators at the end of the path do not count. -/
structure Below (path : String) (front part : List Char) : Prop where
  nonempty : part ≠ []
  whole : separator ∉ part
  shape : ∃ count, path.toList = front ++ separator :: (part ++ List.replicate count separator)

/-- A path has a directory part when it starts at the root or its last part stands below something. -/
def HasDirectory (path : String) : Prop :=
  [separator] <+: path.toList ∨ ∃ front part, Below path front part

/-- The last part of a path stands directly below a single dot. -/
def BelowDot (path : String) : Prop := ∃ part, Below path ['.'] part

theorem Below.separator_mem {path : String} {front part : List Char}
    (below : Below path front part) : separator ∈ path.toList := by
  obtain ⟨count, shape⟩ := below.shape
  rw [shape]
  exact List.mem_append_right _ List.mem_cons_self

theorem not_hasDirectory {path : String} (clean : separator ∉ path.toList) :
    ¬ HasDirectory path := by
  rintro (⟨rest, start⟩ | ⟨front, part, below⟩)
  · exact clean (start ▸ List.mem_cons_self)
  · exact clean below.separator_mem

section Directory

/-- What a path has in front of its last part, the end first. -/
def ahead (chars : List Char) : List Char :=
  (chars.reverse.dropWhile isSeparator).dropWhile (!isSeparator ·)

theorem directory_of_cons {path : String} {first : Char} {rest : List Char}
    (shape : path.toList = first :: rest) :
    directory path =
      match ahead rest with
      | [] => if isSeparator first then "/" else "."
      | _ :: front =>
        if isSeparator first && front.isEmpty then "//" else .ofList (first :: front.reverse) := by
  rw [directory, shape]
  rfl

variable {part : List Char} (whole : separator ∉ part)

include whole

theorem not_isSeparator : ∀ c ∈ part.reverse, (!isSeparator c) = true := by
  intro c member
  have other : c ≠ separator := fun same => whole (same ▸ List.mem_reverse.mp member)
  simp [isSeparator, other]

theorem ahead_bare (count : Nat) : ahead (part ++ List.replicate count separator) = [] := by
  have clean := not_isSeparator whole
  rw [ahead, List.reverse_append, List.reverse_replicate,
    List.dropWhile_append_of_pos (by simp [isSeparator])]
  exact List.dropWhile_eq_nil_iff.mpr fun c member =>
    clean c ((List.dropWhile_sublist _).subset member)

theorem ahead_below (front : List Char) (count : Nat) (nonempty : part ≠ []) :
    ahead (front ++ separator :: (part ++ List.replicate count separator)) =
      separator :: front.reverse := by
  have clean := not_isSeparator whole
  obtain ⟨last, rest, same⟩ := List.exists_cons_of_ne_nil (mt List.reverse_eq_nil_iff.mp nonempty)
  have stop : ¬ isSeparator last = true := by
    simpa using clean last (same ▸ List.mem_cons_self)
  rw [ahead, List.reverse_append, List.reverse_cons, List.reverse_append, List.reverse_replicate,
    List.append_assoc, List.append_assoc, List.dropWhile_append_of_pos (by simp [isSeparator]), same,
    List.cons_append, List.dropWhile_cons_of_neg stop, ← List.cons_append, ← same,
    List.dropWhile_append_of_pos clean]
  rfl

/-- A path of one part has a single dot for its directory. -/
theorem directory_bare {path : String} {count : Nat}
    (shape : path.toList = part ++ List.replicate count separator)
    (relative : ¬ [separator] <+: path.toList) : directory path = "." := by
  cases part with
  | nil =>
    cases count with
    | zero => rw [directory, shape]; rfl
    | succ count => exact absurd ⟨_, shape.symm⟩ relative
  | cons first others =>
    have other : first ≠ separator := fun same => whole (same ▸ List.mem_cons_self)
    have rest : separator ∉ others := fun member => whole (List.mem_cons_of_mem _ member)
    rw [List.cons_append] at shape
    rw [directory_of_cons shape, ahead_bare rest]
    simp [isSeparator, other]

end Directory

/-- The directory of a path is a single dot exactly when its last part stands below one. -/
theorem Below.directory_eq_dot_iff {path : String} {front part : List Char}
    (below : Below path front part) : directory path = "." ↔ front = ['.'] := by
  obtain ⟨nonempty, whole, count, shape⟩ := below
  cases front with
  | nil =>
    rw [directory_of_cons shape, ahead_bare whole]
    simp [isSeparator]
  | cons first others =>
    rw [List.cons_append] at shape
    rw [directory_of_cons shape, ahead_below whole others count nonempty]
    by_cases root : first = separator ∧ others = []
    · simp [isSeparator, root]
      decide
    · have kept : (isSeparator first && others.reverse.isEmpty) = false := by
        simpa [isSeparator] using root
      simp only [kept, Bool.false_eq_true, ↓reduceIte, List.reverse_reverse]
      exact String.ofList_inj

/-- Every path is a single part, or has its last part below something, or is made of separators. -/
theorem shapes (chars : List Char) :
    (∃ part count, separator ∉ part ∧ chars = part ++ List.replicate count separator) ∨
      ∃ front part count, part ≠ [] ∧ separator ∉ part ∧
        chars = front ++ separator :: (part ++ List.replicate count separator) := by
  induction chars with
  | nil => exact .inl ⟨[], 0, List.not_mem_nil, rfl⟩
  | cons c rest ih =>
    rcases ih with ⟨part, count, whole, rfl⟩ | ⟨front, part, count, nonempty, whole, rfl⟩
    · by_cases same : c = separator
      · subst same
        cases part with
        | nil => exact .inl ⟨[], count + 1, whole, rfl⟩
        | cons first others => exact .inr ⟨[], _, count, List.cons_ne_nil _ _, whole, rfl⟩
      · refine .inl ⟨c :: part, count, ?_, rfl⟩
        simpa [Ne.symm same] using whole
    · exact .inr ⟨c :: front, part, count, nonempty, whole, rfl⟩

theorem directory_rooted {path : String} (rooted : [separator] <+: path.toList) :
    directory path ≠ "." := by
  obtain ⟨rest, shape⟩ := rooted
  rw [directory_of_cons shape.symm]
  split
  · exact (by decide : "/" ≠ ".")
  · split
    · exact (by decide : "//" ≠ ".")
    · intro same
      have first := congrArg (fun path => path.toList.head?) same
      rw [String.toList_ofList] at first
      exact absurd (Option.some.inj first) (by decide)

/-- The directory of a path is a single dot when it has no directory part or when its last part
stands below a single dot, and only then. -/
theorem directory_eq_dot_iff (path : String) :
    directory path = "." ↔ ¬ HasDirectory path ∨ BelowDot path := by
  constructor
  · intro dot
    by_cases some : HasDirectory path
    · rcases some with rooted | ⟨front, part, below⟩
      · exact absurd dot (directory_rooted rooted)
      · obtain rfl := below.directory_eq_dot_iff.mp dot
        exact .inr ⟨part, below⟩
    · exact .inl some
  · rintro (none | ⟨part, below⟩)
    · rcases shapes path.toList with ⟨part, count, whole, shape⟩ |
        ⟨front, part, count, nonempty, whole, shape⟩
      · exact directory_bare whole shape fun rooted => none (.inl rooted)
      · exact absurd (.inr ⟨front, part, nonempty, whole, count, shape⟩) none
    · exact below.directory_eq_dot_iff.mpr rfl

section Simplified

/-- A part that is kept when a path is simplified. -/
structure Proper (part : List Char) : Prop where
  nonempty : part ≠ []
  ne_dot : part ≠ ['.']
  whole : separator ∉ part

theorem proper_parent : Proper parent := ⟨by decide, by decide, by decide⟩

theorem proper_enter {absolute : Bool} {parts : List (List Char)} {part : List Char}
    (proper : ∀ kept ∈ parts, Proper kept) (whole : separator ∉ part) :
    ∀ kept ∈ enter absolute parts part, Proper kept := by
  unfold enter
  split
  · exact proper
  · rename_i kept
    simp only [Bool.or_eq_true, List.isEmpty_iff, decide_eq_true_eq, not_or] at kept
    split
    · split
      · rename_i last front
        split
        · exact List.forall_mem_cons.mpr ⟨proper_parent, proper⟩
        · exact (List.forall_mem_cons.mp proper).2
      · split
        · exact proper
        · exact List.forall_mem_singleton.mpr proper_parent
    · exact List.forall_mem_cons.mpr ⟨⟨kept.1, kept.2, whole⟩, proper⟩

theorem separator_not_mem_pieces (path : List Char) : ∀ piece ∈ pieces path, separator ∉ piece := by
  induction path with
  | nil => simp [pieces]
  | cons c rest ih =>
    obtain ⟨first, others, cut⟩ := List.exists_cons_of_ne_nil (List.splitOnP_ne_nil isSeparator rest)
    rw [pieces, List.splitOnP_cons_eq_if_modifyHead]
    rw [pieces, cut] at ih
    split
    · rw [cut]
      exact List.forall_mem_cons.mpr ⟨List.not_mem_nil, ih⟩
    · rename_i other
      obtain ⟨clean, more⟩ := List.forall_mem_cons.mp ih
      have different : separator ≠ c := fun same => other (by simp [isSeparator, same])
      rw [cut]
      exact List.forall_mem_cons.mpr ⟨by simp [different, clean], more⟩

theorem proper_parts {absolute : Bool} (pieces : List (List Char)) {parts : List (List Char)}
    (whole : ∀ piece ∈ pieces, separator ∉ piece) (proper : ∀ kept ∈ parts, Proper kept) :
    ∀ kept ∈ pieces.foldl (enter absolute) parts, Proper kept := by
  induction pieces generalizing parts with
  | nil => exact proper
  | cons piece rest ih =>
    obtain ⟨here, others⟩ := List.forall_mem_cons.mp whole
    exact ih others (proper_enter proper here)

theorem Proper.append_ne {part : List Char} (proper : Proper part) (behind rest : List Char) :
    part ++ behind ≠ '.' :: separator :: rest := by
  obtain ⟨nonempty, other, whole⟩ := proper
  intro same
  match part with
  | [] => exact nonempty rfl
  | [_] => exact other (by rw [(List.cons.inj same).1])
  | _ :: second :: others =>
    have found : second = separator := (List.cons.inj (List.cons.inj same).2).1
    exact whole (by simp [found])

theorem intercalate_ne {parts : List (List Char)} (proper : ∀ part ∈ parts, Proper part)
    (behind rest : List Char) :
    [separator].intercalate parts = [] ∨
      [separator].intercalate parts ++ behind ≠ '.' :: separator :: rest := by
  cases parts with
  | nil => exact .inl rfl
  | cons part others =>
    right
    have first := (List.forall_mem_cons.mp proper).1
    cases others with
    | nil =>
      rw [List.intercalate_singleton]
      exact first.append_ne behind rest
    | cons next more =>
      rw [List.intercalate_cons_cons, List.append_assoc, List.append_assoc]
      exact first.append_ne _ rest

/-- A simplified path does not start with a single dot that something stands below. -/
theorem normalize_ne (path : String) (c : Char) (rest : List Char) :
    (normalize path).toList ≠ '.' :: separator :: c :: rest := by
  unfold normalize
  simp only
  generalize (path.toList.head?.map isSeparator).getD false = absolute
  generalize (path.toList.getLast?.map isSeparator).getD false = trailing
  have proper : ∀ part ∈ ((pieces path.toList).foldl (enter absolute) []).reverse, Proper part := by
    intro part member
    exact proper_parts _ (separator_not_mem_pieces _) (List.forall_mem_nil _) part
      (List.mem_reverse.mp member)
  rcases intercalate_ne proper (if trailing then [separator] else []) (c :: rest) with empty | other
  · rw [empty]
    cases absolute <;> cases trailing <;> simp
  · split
    · cases absolute <;> cases trailing <;> simp
    · rw [String.toList_ofList]
      cases absolute with
      | true => exact fun same => absurd (List.cons.inj same).1 (by decide)
      | false => exact other

end Simplified

theorem exists_join_eq {name : String} (nonempty : name ≠ "") (folder : String) :
    ∃ path, join folder name = normalize path := by
  have some : name.isEmpty = false := by
    rwa [← Bool.not_eq_true, String.isEmpty_iff]
  rw [join, some]
  cases folder.isEmpty with
  | true => exact ⟨_, rfl⟩
  | false => exact ⟨_, rfl⟩

/-- A name below a single dot is changed by the folder it is looked up in. -/
theorem BelowDot.join_ne {name : String} (dotted : BelowDot name) (folder : String) :
    join folder name ≠ name := by
  obtain ⟨part, nonempty, whole, count, shape⟩ := dotted
  obtain ⟨c, rest, rfl⟩ := List.exists_cons_of_ne_nil nonempty
  have some : name ≠ "" := by
    rintro rfl
    exact absurd shape (by simp)
  obtain ⟨path, same⟩ := exists_join_eq some folder
  intro unchanged
  apply normalize_ne path c (rest ++ List.replicate count separator)
  rw [← same, unchanged, shape]
  rfl

/-- A name with a directory part is used as it stands, unless its last part stands below a single
dot; a name without one is looked up in the folder for saved games. A part below a single dot is
looked up there as well, and is never found where the name says. -/
theorem saved_game_resolved (name folder : String) :
    (HasDirectory name → ¬ BelowDot name → ofSnapshot name folder = name) ∧
      (¬ HasDirectory name → ofSnapshot name folder = join folder name) ∧
      (BelowDot name → HasDirectory name ∧ ofSnapshot name folder = join folder name ∧
        ofSnapshot name folder ≠ name) := by
  have decides := directory_eq_dot_iff name
  refine ⟨?_, ?_, ?_⟩
  · intro some other
    rw [ofSnapshot, if_neg (by rw [decides]; simp [some, other])]
  · intro none
    rw [ofSnapshot, if_pos (decides.mpr (.inl none))]
  · intro dotted
    obtain ⟨part, below⟩ := dotted
    rw [ofSnapshot, if_pos (decides.mpr (.inr ⟨part, below⟩))]
    exact ⟨.inr ⟨_, part, below⟩, rfl, BelowDot.join_ne ⟨part, below⟩ folder⟩

theorem below_dot_start : Below "./start.snap" ['.'] "start.snap".toList :=
  ⟨by decide, by decide, 0, by decide⟩

/-- A name in the working folder is looked up in the folder for saved games. -/
theorem dotted_name_moved :
    HasDirectory "./start.snap" ∧ ofSnapshot "./start.snap" "snapshots" ≠ "./start.snap" ∧
      ofSnapshot "./start.snap" "snapshots" = "snapshots/start.snap" :=
  ⟨.inr ⟨_, _, below_dot_start⟩, by decide, by decide⟩

theorem saved_game_resolved_start :
    (HasDirectory "../start.snap" ∧ ¬ BelowDot "../start.snap" ∧
        ofSnapshot "../start.snap" "snapshots" = "../start.snap") ∧
      (¬ HasDirectory "start.snap" ∧
        ofSnapshot "start.snap" "snapshots" = join "snapshots" "start.snap") ∧
      BelowDot "./start.snap" ∧ ofSnapshot "./start.snap" "snapshots" ≠ "./start.snap" := by
  have above : HasDirectory "../start.snap" :=
    .inr ⟨['.', '.'], "start.snap".toList, by decide, by decide, 0, by decide⟩
  have notDotted : ¬ BelowDot "../start.snap" := by
    rintro ⟨part, _, _, count, shape⟩
    have second : some '.' = some separator := congrArg (·[1]?) shape
    exact absurd second (by decide)
  have bare : ¬ HasDirectory "start.snap" := not_hasDirectory (by decide)
  have dotted : BelowDot "./start.snap" := ⟨_, below_dot_start⟩
  exact ⟨⟨above, notDotted, (saved_game_resolved _ _).1 above notDotted⟩,
    ⟨bare, (saved_game_resolved _ _).2.1 bare⟩,
    dotted, ((saved_game_resolved _ _).2.2 dotted).2.2⟩

end AdventureMachine.Path
