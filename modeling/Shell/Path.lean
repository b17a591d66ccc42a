import Shell.Lib.Loop
import Shell.Variables

/-! # Finding a command (path.c)

`path_split` cuts the value of `PATH` at its colons, `path_join` puts a directory
and a name into a new block, and `path_find_command` takes the first join that is
an executable file. What `stat` and `access` answer is a parameter. A result is
`none` where the new block reads as no C string. -/
namespace Shell.Path
open Shell.CTypes Shell.Stringbuilder Shell.Exec Shell.Variables Shell.Lib

/-- The loop of `has_path_components`. -/
def hasPathComponents : Str → Bool
  | [] => false
  | c :: iter => if c = chr '/' then true else hasPathComponents iter

/-- A round of `path_split`: `iter` is what is left of the value. -/
def pathSplitBody (s : Str × List Str) : Str × List Str ⊕ List Str :=
  let (iter, result) := s
  match iter with
  | [] => .inr result
  | _ :: _ =>
    let component := iter.takeWhile (· ≠ chr ':')
    match iter.dropWhile (· ≠ chr ':') with
    | [] => .inr (result ++ [component])
    | _ :: iter => .inl (iter, result ++ [component])

theorem length_dropWhile_lt {iter rest : Str} {c : UInt8}
    (h : iter.dropWhile (· ≠ chr ':') = c :: rest) : rest.length < iter.length := by
  have hlen := (List.dropWhile_sublist (l := iter) (· ≠ chr ':')).length_le
  rw [h, List.length_cons] at hlen
  exact hlen

theorem pathSplitBody_decreasing : Loop.Decreasing pathSplitBody (·.1.length) := by
  intro s s' h
  obtain ⟨iter, result⟩ := s
  cases iter with
  | nil => cases h
  | cons c iter =>
    simp only [pathSplitBody] at h
    cases hdrop : (c :: iter).dropWhile (· ≠ chr ':') with
    | nil =>
      rw [hdrop] at h
      cases h
    | cons colon rest =>
      rw [hdrop] at h
      obtain rfl := Sum.inl.inj h
      exact length_dropWhile_lt hdrop

def pathSplit (pathValue : Str) : List Str :=
  Loop.exec pathSplitBody (·.1.length) pathSplitBody_decreasing (pathValue, [])

/-- `path_join`: the block of `calloc`, with the directory copied to its front. -/
def pathJoin (garbage : Cells) (dir name : Str) : Block :=
  let dirActual := if dir = [] then str "." else dir
  let numchars := dirActual.length + name.length + 2
  let result := storeBytes (calloc numchars garbage) 0 (dirActual ++ [0])
  let result := storeBytes result dirActual.length [chr '/']
  { cells := storeBytes result (dirActual.length + 1) name, size := numchars }

/-- `path_get_dirs`, given what `getenv` returns. -/
def pathGetDirs : Option Str → List Str
  | none => []
  | some path => pathSplit path

variable (garbage : Cells) (isExecutableFile : Str → Bool)

/-- The loop of `path_find_command` over the components. -/
def searchComponents (command : Str) : List Str → Option (Option Str)
  | [] => some none
  | text :: next => do
    let resolved ← (pathJoin garbage text command).cstr
    if isExecutableFile resolved then return some resolved
    else searchComponents command next

def pathFindCommand (path : Option Str) (command : Str) : Option (Option Str) :=
  if hasPathComponents command then
    if isExecutableFile command then some (some command) else some none
  else searchComponents garbage isExecutableFile command (pathGetDirs path)

/-! ## The documented search -/

/-- The parts of the value, without a last one that is empty. -/
def parts (pathValue : Str) : List Str :=
  let split := pathValue.splitOn (chr ':')
  if split.getLast? = some [] then split.dropLast else split

/-- The directories that `PATH` names; an empty one is the working directory. -/
def components : Option Str → List Str
  | none => []
  | some path => (parts path).map fun d => if d = [] then str "." else d

/-- What a search for a command finds. -/
def found (path : Option Str) (command : Str) : Option Str :=
  if chr '/' ∈ command then (if isExecutableFile command then some command else none)
  else ((components path).map (· ++ str "/" ++ command)).find? isExecutableFile

/-! ## The splitting -/

theorem hasPathComponents_iff {command : Str} :
    hasPathComponents command = true ↔ chr '/' ∈ command := by
  induction command with
  | nil => simp [hasPathComponents]
  | cons c iter ih =>
    by_cases hc : c = chr '/'
    · simp [hasPathComponents, hc]
    · simp [hasPathComponents, hc, ih, Ne.symm hc]

theorem parts_nil : parts [] = [] := by
  simp [parts]

theorem parts_single {iter : Str} (hne : iter ≠ []) (h : chr ':' ∉ iter) : parts iter = [iter] := by
  simp [parts, List.splitOn_eq_singleton h, hne]

theorem parts_cons {component : Str} (h : chr ':' ∉ component) (rest : Str) :
    parts (component ++ chr ':' :: rest) = component :: parts rest := by
  have hne := List.splitOn_ne_nil (chr ':') rest
  simp only [parts, List.splitOn_append_cons_self_of_not_mem h, List.getLast?_cons,
    List.dropLast_cons_of_ne_nil hne]
  rw [List.getLast?_eq_some_getLast hne, Option.getD_some]
  split <;> rfl

theorem dropWhile_colon (iter : Str) : iter.dropWhile (· ≠ chr ':') = [] ∨
    ∃ rest, iter.dropWhile (· ≠ chr ':') = chr ':' :: rest := by
  cases h : iter.dropWhile (· ≠ chr ':') with
  | nil => exact .inl rfl
  | cons c rest =>
    have hhead := List.head?_dropWhile_not (· ≠ chr ':') iter
    rw [h] at hhead
    obtain rfl : c = chr ':' := by simpa using hhead
    exact .inr ⟨rest, rfl⟩

theorem not_mem_takeWhile_colon (iter : Str) : chr ':' ∉ iter.takeWhile (· ≠ chr ':') := by
  intro hmem
  have hne := List.mem_takeWhile_imp hmem
  simp at hne

/-- From any point of the value, the loop appends the parts of what is left. -/
theorem exec_pathSplitBody (iter : Str) (result : List Str) :
    Loop.exec pathSplitBody (·.1.length) pathSplitBody_decreasing (iter, result) =
      result ++ parts iter := by
  induction hn : iter.length using Nat.strong_induction_on generalizing iter result with
  | _ n ih =>
    cases iter with
    | nil =>
      have hround : pathSplitBody ([], result) = .inr result := rfl
      rw [Loop.exec_of_inr _ hround, parts_nil, List.append_nil]
    | cons c tail =>
      have hcut := List.takeWhile_append_dropWhile (p := (· ≠ chr ':')) (l := c :: tail)
      have hcolon := not_mem_takeWhile_colon (c :: tail)
      obtain hdrop | ⟨rest, hdrop⟩ := dropWhile_colon (c :: tail)
      · rw [hdrop, List.append_nil] at hcut
        rw [hcut] at hcolon
        have hround : pathSplitBody (c :: tail, result) = .inr (result ++ [c :: tail]) := by
          simp only [pathSplitBody, hdrop, hcut]
        rw [Loop.exec_of_inr _ hround, parts_single (List.cons_ne_nil c tail) hcolon]
      · have hround : pathSplitBody (c :: tail, result) =
            .inl (rest, result ++ [(c :: tail).takeWhile (· ≠ chr ':')]) := by
          simp only [pathSplitBody, hdrop]
        rw [Loop.exec_of_inl _ hround, ih rest.length (hn ▸ length_dropWhile_lt hdrop) _ _ rfl,
          List.append_assoc]
        rw [hdrop] at hcut
        conv_rhs => rw [← hcut, parts_cons hcolon]
        rfl

theorem pathSplit_eq (pathValue : Str) : pathSplit pathValue = parts pathValue :=
  (exec_pathSplitBody pathValue []).trans (List.nil_append _)

theorem mem_flatten_intersperse {l : List Str} {d sep : Str} {b : UInt8} (hd : d ∈ l) (hb : b ∈ d) :
    b ∈ (l.intersperse sep).flatten := by
  obtain ⟨i, hi⟩ := List.mem_iff_getElem?.mp hd
  refine List.mem_flatten.mpr ⟨d, List.mem_iff_getElem?.mpr ⟨2 * i, ?_⟩, hb⟩
  rw [List.getElem?_intersperse_two_mul, hi]

theorem nulFree_parts {pathValue : Str} (hnul : NulFree pathValue) :
    ∀ d ∈ parts pathValue, NulFree d := by
  intro d hd b hb
  have hsplit : d ∈ pathValue.splitOn (chr ':') := by
    simp only [parts] at hd
    split at hd
    · exact List.dropLast_subset _ hd
    · exact hd
  have hjoin : [chr ':'].intercalate (pathValue.splitOn (chr ':')) = pathValue :=
    List.intercalate_splitOn (chr ':')
  exact hnul b (hjoin ▸ mem_flatten_intersperse hsplit hb)

/-! ## The join -/

/-- Two copies one behind the other. -/
theorem storeBytes_behind {cells : Cells} {start : Nat} {bytes more : List UInt8} :
    storeBytes (storeBytes cells start bytes) (start + bytes.length) more =
      storeBytes cells start (bytes ++ more) := by
  funext i
  simp only [storeBytes]
  by_cases hstart : start ≤ i
  · obtain ⟨k, rfl⟩ := Nat.exists_eq_add_of_le hstart
    by_cases hk : k < bytes.length
    · rw [if_neg (by omega)]
      simp [List.getElem?_append_left, hk]
    · obtain ⟨m, rfl⟩ := Nat.exists_eq_add_of_le (Nat.le_of_not_lt hk)
      have hsub : start + (bytes.length + m) - start = bytes.length + m := by omega
      rw [if_pos (by omega), if_pos hstart, if_pos hstart, hsub,
        List.getElem?_append_right (Nat.le_add_right _ _)]
      simp [← Nat.add_assoc]
  · rw [if_neg (by omega), if_neg hstart, if_neg hstart]

/-- A copy over an older one that is no longer. -/
theorem storeBytes_over {cells : Cells} {start : Nat} {bytes more : List UInt8}
    (h : bytes.length ≤ more.length) :
    storeBytes (storeBytes cells start bytes) start more = storeBytes cells start more := by
  funext i
  simp only [storeBytes]
  split
  · by_cases hmore : i - start < more.length
    · simp [hmore]
    · have hbytes : bytes[i - start]? = none := List.getElem?_eq_none (by omega)
      rw [hbytes]
      rfl
  · rfl

/-- What the three copies of `path_join` leave in the block. -/
theorem storeBytes_join {cells : Cells} {dir name : Str} {c : UInt8} :
    storeBytes (storeBytes (storeBytes cells 0 (dir ++ [0])) dir.length [c]) (dir.length + 1) name =
      storeBytes cells 0 (dir ++ [c] ++ name) := by
  have hover : storeBytes (storeBytes cells 0 (dir ++ [0])) dir.length [c] =
      storeBytes cells 0 (dir ++ [c]) := by
    rw [← storeBytes_behind, ← storeBytes_behind, Nat.zero_add]
    exact storeBytes_over (Nat.le_refl _)
  have hend : dir.length + 1 = 0 + (dir ++ [c]).length := by simp
  rw [hover, hend, storeBytes_behind]

/-- The join is the directory, a slash and the name, whatever `calloc` was handed. -/
theorem cstr_pathJoin (garbage : Cells) {dir name : Str} (hdir : NulFree dir) (hname : NulFree name) :
    (pathJoin garbage dir name).cstr =
      some ((if dir = [] then str "." else dir) ++ str "/" ++ name) := by
  have hactual : NulFree (if dir = [] then str "." else dir) := by
    split
    · exact List.forall_mem_singleton.mpr (by decide)
    · exact hdir
  simp only [pathJoin]
  generalize (if dir = [] then str "." else dir) = dirActual at hactual ⊢
  have hslash : NulFree [chr '/'] := List.forall_mem_singleton.mpr (by decide)
  have htext : NulFree (dirActual ++ [chr '/'] ++ name) :=
    List.forall_mem_append.mpr ⟨List.forall_mem_append.mpr ⟨hactual, hslash⟩, hname⟩
  have hlen : (dirActual ++ [chr '/'] ++ name).length = dirActual.length + name.length + 1 := by
    simp only [List.length_append, List.length_singleton]
    omega
  rw [storeBytes_join]
  change _ = some (dirActual ++ [chr '/'] ++ name)
  refine cstr_eq_some_iff.mpr ⟨by omega, ?_, fun i hi => ?_⟩
  · rw [storeBytes_of_le (Nat.le_refl _), hlen, calloc, if_pos (by omega)]
  · rw [storeBytes_of_lt hi]
    exact ⟨rfl, htext _ (List.getElem_mem hi)⟩

/-! ## The search -/

variable {isExecutableFile}

theorem searchComponents_eq {command : Str} (hcommand : NulFree command) {dirs : List Str}
    (hdirs : ∀ d ∈ dirs, NulFree d) :
    searchComponents garbage isExecutableFile command dirs =
      some (((dirs.map fun d => if d = [] then str "." else d).map
        (· ++ str "/" ++ command)).find? isExecutableFile) := by
  induction dirs with
  | nil => rfl
  | cons text next ih =>
    obtain ⟨htext, hnext⟩ := List.forall_mem_cons.mp hdirs
    rw [searchComponents, cstr_pathJoin garbage htext hcommand, Option.bind_eq_bind,
      Option.bind_some, ih hnext, List.map_cons, List.map_cons, List.find?_cons]
    cases isExecutableFile ((if text = [] then str "." else text) ++ str "/" ++ command) with
    | false => rfl
    | true => rfl

/-- **`path_find_command` finds the first executable file.** A name with a slash stands
for itself, any other one for the first directory of `PATH` that holds it. -/
theorem pathFindCommand_eq_found {path : Option Str} {command : Str}
    (hpath : ∀ value ∈ path, NulFree value) (hcommand : NulFree command) :
    pathFindCommand garbage isExecutableFile path command =
      some (found isExecutableFile path command) := by
  by_cases hslash : chr '/' ∈ command
  · rw [pathFindCommand, if_pos (hasPathComponents_iff.mpr hslash), found, if_pos hslash]
    split <;> rfl
  · rw [pathFindCommand, if_neg (fun h => hslash (hasPathComponents_iff.mp h)), found,
      if_neg hslash]
    cases path with
    | none => rfl
    | some value =>
      have hvalue := nulFree_parts (hpath value rfl)
      rw [pathGetDirs, pathSplit_eq, searchComponents_eq garbage hcommand hvalue]
      rfl

/-- An empty component is the working directory, and the one behind the last colon is not
searched. -/
theorem pathFindCommand_eq_found_colons :
    pathFindCommand (fun _ => 7) (· = str "./ls") (some (str "/bin::/usr:")) (str "ls") =
      some (found (· = str "./ls") (some (str "/bin::/usr:")) (str "ls")) ∧
    found (· = str "./ls") (some (str "/bin::/usr:")) (str "ls") = some (str "./ls") :=
  ⟨pathFindCommand_eq_found _ (by decide) (by decide), by decide⟩

end Shell.Path
