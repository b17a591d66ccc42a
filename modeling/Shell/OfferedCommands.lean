import Shell.Builtins
import Shell.FirstWord

/-! # What completes and what runs

Completion goes through `PATH` with `strtok`, `opendir` and `stat`, and the search for a
command with `path_split` and `access`. -/
namespace Shell.OfferedCommands
open Shell.CTypes Shell.FirstWord Shell.Lib Shell.Path Shell.Stringbuilder

/-- The names in a directory; none where it does not open. -/
def listing (w : World) (dir : Str) : List Str := (w.opendir dir).getD []

/-- The two ways to look at the files of `PATH` agree: its directories can be listed, and
what the owner may execute is what the shell may. Their paths have room in `full_path`. -/
structure Agrees (w : World) (isExecutableFile : Str → Bool) : Prop where
  same : ∀ dir ∈ allParts w.path, dir ≠ [] → ∀ name, chr '/' ∉ name →
    (isExecutableFile (dir ++ str "/" ++ name) = true ↔
      name ∈ listing w dir ∧ w.stat (dir ++ str "/" ++ name) = true)
  short : ∀ dir ∈ allParts w.path, dir ≠ [] → ∀ name ∈ listing w dir,
    (dir ++ str "/" ++ name).length < PATH_MAX

/-- `execute_pipeline` runs a builtin of that name, or the child finds a program. -/
def Runs (garbage : Cells) (isExecutableFile : Str → Bool) (path : Option Str) (name : Str) : Prop :=
  (Builtins.findBuiltin name).isSome = true ∨
    ∃ file, pathFindCommand garbage isExecutableFile path name = some (some file)

/-- The last builtin, and what an empty component of `PATH` gives. -/
def Missed (isExecutableFile : Str → Bool) (path : Option Str) (name : Str) : Prop :=
  name = str "type" ∨ ([] ∈ allParts path ∧ isExecutableFile (str "./" ++ name) = true)

/-! ## The builtins -/

theorem names_builtins : Builtins.builtins.map Builtins.BuiltinCmd.name = NullLookups.builtins := rfl

theorem findBuiltin_isSome_iff (name : Str) : (Builtins.findBuiltin name).isSome = true ↔
    name ∈ NullLookups.builtins.dropLast ∨ name = str "type" := by
  have hmem : (Builtins.findBuiltin name).isSome = true ↔ name ∈ NullLookups.builtins := by
    rw [← names_builtins, List.mem_map, Option.isSome_iff_exists]
    constructor
    · rintro ⟨cmd, hcmd⟩
      exact ⟨cmd, (Builtins.findBuiltin_eq_some_iff name cmd).mp hcmd⟩
    · rintro ⟨cmd, hcmd⟩
      exact ⟨cmd, (Builtins.findBuiltin_eq_some_iff name cmd).mpr hcmd⟩
  rw [hmem]
  conv_lhs => rw [builtins_eq]
  rw [List.mem_append, List.mem_singleton]

theorem mem_builtinsPending_iff (text name : Str) :
    name ∈ builtinsPending text 0 ↔ text <+: name ∧ name ∈ NullLookups.builtins.dropLast := by
  rw [builtinsPending, List.drop_zero, List.mem_filter, List.isPrefixOf_iff_prefix, and_comm]

/-! ## The directories -/

variable {w : World} {isExecutableFile : Str → Bool} {text name : Str}

theorem pathGetDirs_eq (path : Option Str) : pathGetDirs path = allParts path := by
  cases path with
  | none => rfl
  | some value => exact pathSplit_eq value

/-- The search finds a name where one of the parts holds it. -/
theorem pathFindCommand_isSome_iff (garbage : Cells) {path : Option Str}
    (hpath : ∀ value ∈ path, NulFree value) (hnul : NulFree name) (hslash : chr '/' ∉ name) :
    (∃ file, pathFindCommand garbage isExecutableFile path name = some (some file)) ↔
      ∃ dir ∈ allParts path,
        isExecutableFile ((if dir = [] then str "." else dir) ++ str "/" ++ name) = true := by
  have hdirs : ∀ d ∈ allParts path, NulFree d := by
    cases path with
    | none => exact fun d hd => absurd hd List.not_mem_nil
    | some value => exact nulFree_parts (hpath value rfl)
  simp only [pathFindCommand, if_neg (fun h => hslash (hasPathComponents_iff.mp h)),
    pathGetDirs_eq, searchComponents_eq garbage hnul hdirs, Option.some_inj]
  rw [← Option.isSome_iff_exists, List.find?_isSome]
  simp only [List.mem_map, exists_exists_and_eq_and]

theorem mem_pathStart_iff (hagrees : Agrees w isExecutableFile) (hslash : chr '/' ∉ name) :
    name ∈ pathStart w text ↔ text <+: name ∧ ∃ dir ∈ allParts w.path, dir ≠ [] ∧
      isExecutableFile (dir ++ str "/" ++ name) = true := by
  rw [pathStart_eq, List.mem_flatMap]
  constructor
  · rintro ⟨dir, hdir, hname⟩
    by_cases hne : dir = []
    · rw [if_pos hne] at hname
      cases hname
    · rw [if_neg hne, dirMatches, List.mem_filter, Bool.and_eq_true,
        List.isPrefixOf_iff_prefix] at hname
      obtain ⟨hlisted, hstarts, hstat⟩ := hname
      rw [fullPath, List.take_of_length_le (Nat.le_sub_one_of_lt (hagrees.short dir hdir hne name hlisted))]
        at hstat
      exact ⟨hstarts, dir, hdir, hne, (hagrees.same dir hdir hne name hslash).mpr ⟨hlisted, hstat⟩⟩
  · rintro ⟨hstarts, dir, hdir, hne, hexec⟩
    obtain ⟨hlisted, hstat⟩ := (hagrees.same dir hdir hne name hslash).mp hexec
    refine ⟨dir, hdir, ?_⟩
    rw [if_neg hne, dirMatches, List.mem_filter, Bool.and_eq_true, List.isPrefixOf_iff_prefix,
      fullPath, List.take_of_length_le (Nat.le_sub_one_of_lt (hagrees.short dir hdir hne name hlisted))]
    exact ⟨hlisted, hstarts, hstat⟩

/-! ## Both -/

/-- **TAB offers what runs.** For the first word of a line, whatever an earlier round has left
in the variables, the names that are offered are those that start with the text and run,
apart from the last builtin and from what only an empty component of `PATH` gives. -/
theorem offered_iff (garbage : Cells) (hagrees : Agrees w isExecutableFile)
    (hpath : ∀ value ∈ w.path, NulFree value) {s : Statics} {names : List Str}
    (hround : Generator.Delivers (firstWordGenerator w text true)
      (firstWordGenerator w text false s) names) (hnul : NulFree name) (hslash : chr '/' ∉ name) :
    text <+: name ∧ Runs garbage isExecutableFile w.path name ↔
      name ∈ names ∨ text <+: name ∧ Missed isExecutableFile w.path name := by
  obtain rfl := hround.unique (firstWordGenerator_delivers w text s)
  rw [List.mem_append, mem_builtinsPending_iff, mem_pathStart_iff hagrees hslash, Runs, Missed,
    findBuiltin_isSome_iff, pathFindCommand_isSome_iff garbage hpath hnul hslash]
  constructor
  · rintro ⟨hstarts, (hbuiltin | htype) | ⟨dir, hdir, hexec⟩⟩
    · exact .inl (.inl ⟨hstarts, hbuiltin⟩)
    · exact .inr ⟨hstarts, .inl htype⟩
    · by_cases hne : dir = []
      · rw [if_pos hne] at hexec
        exact .inr ⟨hstarts, .inr ⟨hne ▸ hdir, hexec⟩⟩
      · rw [if_neg hne] at hexec
        exact .inl (.inr ⟨hstarts, dir, hdir, hne, hexec⟩)
  · rintro ((⟨hstarts, hbuiltin⟩ | ⟨hstarts, dir, hdir, hne, hexec⟩) |
      ⟨hstarts, htype | ⟨hempty, hexec⟩⟩)
    · exact ⟨hstarts, .inl (.inl hbuiltin)⟩
    · refine ⟨hstarts, .inr ⟨dir, hdir, ?_⟩⟩
      rwa [if_neg hne]
    · exact ⟨hstarts, .inl (.inr htype)⟩
    · refine ⟨hstarts, .inr ⟨[], hempty, ?_⟩⟩
      rwa [if_pos rfl]

/-- `cp` in a directory of `PATH`, and a program in the working directory. -/
def twoPrograms (file : Str) : Bool := file == str "/b/cp" || file == str "./ch"

def binWorld : World where
  path := some (str "/b::")
  opendir := fun dir => if dir = str "/b" then some [str "cp"] else none
  stat := twoPrograms

/-- `ch` is missed and runs. -/
theorem offered_iff_ch :
    str "c" <+: str "ch" ∧ Runs (fun _ => 7) twoPrograms binWorld.path (str "ch") := by
  have hparts : allParts binWorld.path = [str "/b", []] := by decide
  have hdir : ∀ dir ∈ allParts binWorld.path, dir ≠ [] → dir = str "/b" := by
    rw [hparts]
    decide
  have hlisting : listing binWorld (str "/b") = [str "cp"] := rfl
  have hprogram : ∀ name, twoPrograms (str "/b" ++ str "/" ++ name) = true → name = str "cp" := by
    intro name h
    have hsplit : str "/b/cp" = str "/b" ++ str "/" ++ str "cp" := by decide
    rw [twoPrograms, Bool.or_eq_true, beq_iff_eq, beq_iff_eq, hsplit] at h
    obtain hcp | hch := h
    · exact List.append_cancel_left hcp
    · have hhead : some (chr '/') = some (chr '.') := congrArg List.head? hch
      exact absurd hhead (by decide)
  have hagrees : Agrees binWorld twoPrograms := by
    constructor
    · intro dir hmem hne name hslash
      obtain rfl := hdir dir hmem hne
      rw [hlisting, List.mem_singleton]
      exact ⟨fun h => ⟨hprogram name h, h⟩, And.right⟩
    · intro dir hmem hne name hname
      obtain rfl := hdir dir hmem hne
      rw [hlisting, List.mem_singleton] at hname
      rw [hname]
      decide
  have hround := firstWordGenerator_delivers binWorld (str "c") ⟨0, 0, 0, [], none, none, 0⟩
  refine (offered_iff (fun _ => 7) hagrees (by decide) hround (by decide) (by decide)).mpr (.inr ?_)
  exact ⟨⟨[chr 'h'], rfl⟩, .inr ⟨by rw [hparts]; decide, rfl⟩⟩

end Shell.OfferedCommands
