import Mathlib.Data.List.Nodup
import Mathlib.Data.List.Basic
import Shell.CTypes
import Shell.Lib.Runs

/-! # The completion registry (completion.c)

An array of 64 cells of which the first `registry_count` are in use. The cells
behind them hold anything. Over every run it is a map from command names to
script paths that has room for 64 commands and keeps its entries in order. -/
namespace Shell.Completion
open Shell.CTypes Shell.Lib

def maxCompletions : Nat := 64

structure CompletionRegistration where
  command : Str
  scriptPath : Str
  deriving DecidableEq, Repr

abbrev Cells := Vector CompletionRegistration maxCompletions

/-- `completion_registry` and `registry_count`. -/
structure Registry where
  cells : Cells
  count : Nat
  bound : count ≤ maxCompletions

/-! ## The operations -/

/-- The first of the `n` cells from `i` on that has the command. -/
def search (cells : Cells) (command : Str) (i : Nat) :
    (n : Nat) → i + n ≤ maxCompletions → Option (Fin maxCompletions)
  | 0, _ => none
  | n + 1, h =>
    if cells[i].command = command then some ⟨i, by omega⟩
    else search cells command (i + 1) n (by omega)

/-- The loop over the cells in use. -/
def findCommand (r : Registry) (command : Str) : Option (Fin maxCompletions) :=
  search r.cells command 0 r.count (by have := r.bound; omega)

def registerCompletion (r : Registry) (command scriptPath : Str) : Registry :=
  match findCommand r command with
  | some i =>
    { r with cells := r.cells.set i { command := r.cells[i].command, scriptPath := scriptPath } }
  | none =>
    if h : r.count ≥ maxCompletions then r
    else
      { cells := r.cells.set r.count { command := command, scriptPath := scriptPath }
        count := r.count + 1
        bound := by omega }

def lookupCompletion (r : Registry) (command : Str) : Option Str :=
  (findCommand r command).map fun i => r.cells[i].scriptPath

/-- `n` rounds of the loop that moves the cells behind `j` down by one. -/
def shiftDown (cells : Cells) (j : Nat) : (n : Nat) → j + n < maxCompletions → Cells
  | 0, _ => cells
  | n + 1, h => shiftDown (cells.set j cells[j + 1]) (j + 1) n (by omega)

/-- The search for the index does not look at `registry_count`; where it leaves
the array, or finds a cell that is not in use, the result is `none`. -/
def unregisterCompletion (r : Registry) (command : Str) : Option Registry :=
  if (lookupCompletion r command).isSome then
    match search r.cells command 0 maxCompletions (by omega) with
    | none => none
    | some i =>
      if h : i < r.count then
        some
          { cells := shiftDown r.cells i (r.count - 1 - i) (by have := r.bound; omega)
            count := r.count - 1
            bound := by have := r.bound; omega }
      else none
  else some r

/-! ## The entries -/

/-- The cells in use. -/
def entries (r : Registry) : List CompletionRegistration := r.cells.toList.take r.count

def commands (r : Registry) : List Str := (entries r).map CompletionRegistration.command

/-- The entries of all commands but one. -/
def others (r : Registry) (command : Str) : List CompletionRegistration :=
  (entries r).filter fun entry => entry.command != command

variable {r r' : Registry} {cells : Cells} {command scriptPath : Str}

@[simp] theorem length_entries : (entries r).length = r.count := by
  have := r.bound
  simp only [entries, List.length_take, Vector.length_toList]
  omega

theorem lt_of_lt_entries {i : Nat} (h : i < (entries r).length) : i < maxCompletions := by
  have := r.bound
  rw [length_entries] at h
  omega

theorem getElem_entries {i : Nat} (h : i < (entries r).length) :
    (entries r)[i] = getElem r.cells i (lt_of_lt_entries h) := by
  simp only [entries, List.getElem_take, Vector.getElem_toList]

theorem search_some {i n : Nat} {h : i + n ≤ maxCompletions} {k : Fin maxCompletions}
    (hk : search cells command i n h = some k) :
    k < i + n ∧ cells[k].command = command ∧
      ∀ m : Nat, (hm : m < k.val) → i ≤ m → cells[m].command ≠ command := by
  induction n generalizing i with
  | zero => cases hk
  | succ n ih =>
    rw [search] at hk
    split at hk
    · rename_i heq
      obtain rfl := Option.some.inj hk
      exact ⟨Nat.lt_add_of_pos_right (Nat.succ_pos n), heq, fun m hm hle => absurd hm (Nat.not_lt.mpr hle)⟩
    · rename_i hne
      obtain ⟨hlt, heq, hfirst⟩ := ih hk
      refine ⟨by omega, heq, fun m hm hle => ?_⟩
      rcases Nat.eq_or_lt_of_le hle with rfl | hlt
      · exact hne
      · exact hfirst m hm hlt

theorem search_none {i n : Nat} {h : i + n ≤ maxCompletions}
    (hnone : search cells command i n h = none) :
    ∀ m, (hm : m < i + n) → i ≤ m → cells[m].command ≠ command := by
  induction n generalizing i with
  | zero => exact fun m hm hle => absurd hm (by omega)
  | succ n ih =>
    rw [search] at hnone
    split at hnone
    · cases hnone
    · rename_i hne
      intro m hm hle
      rcases Nat.eq_or_lt_of_le hle with rfl | hlt
      · exact hne
      · exact ih hnone m (by omega) hlt

theorem findCommand_some {i : Fin maxCompletions} (h : findCommand r command = some i) :
    i < r.count ∧ r.cells[i].command = command := by
  obtain ⟨hlt, heq, -⟩ := search_some h
  exact ⟨by simpa using hlt, heq⟩

theorem findCommand_none (h : findCommand r command = none) : command ∉ commands r := by
  intro hmem
  obtain ⟨entry, hentry, heq⟩ := List.mem_map.mp hmem
  obtain ⟨m, hm, rfl⟩ := List.mem_iff_getElem.mp hentry
  rw [getElem_entries] at heq
  rw [length_entries] at hm
  exact search_none h m (by omega) (Nat.zero_le m) heq

theorem mem_commands_iff : command ∈ commands r ↔ (lookupCompletion r command).isSome := by
  rw [lookupCompletion, Option.isSome_map]
  cases h : findCommand r command with
  | none => simpa using findCommand_none h
  | some i =>
    obtain ⟨hlt, heq⟩ := findCommand_some h
    refine ⟨fun _ => rfl, fun _ => List.mem_map.mpr ⟨r.cells[i], ?_, heq⟩⟩
    exact List.mem_iff_getElem.mpr ⟨i, by rwa [length_entries], getElem_entries _⟩

/-- A lookup reads the entries from the front. -/
theorem lookupCompletion_eq_find :
    lookupCompletion r command =
      ((entries r).find? fun entry => entry.command == command).map
        CompletionRegistration.scriptPath := by
  unfold lookupCompletion
  cases h : findCommand r command with
  | none =>
    have hnot := findCommand_none h
    have hfind : ((entries r).find? fun entry => entry.command == command) = none := by
      refine List.find?_eq_none.mpr fun entry hentry heq => hnot ?_
      exact List.mem_map.mpr ⟨entry, hentry, by simpa using heq⟩
    rw [hfind]
    rfl
  | some i =>
    obtain ⟨hlt, heq, hfirst⟩ := search_some h
    have hlt : i < r.count := by simpa using hlt
    have hfind : ((entries r).find? fun entry => entry.command == command) =
        some r.cells[i] := by
      refine List.find?_eq_some_iff_getElem.mpr
        ⟨by simpa using heq, i, by rwa [length_entries], getElem_entries _, fun m hm => ?_⟩
      rw [getElem_entries]
      simpa using hfirst m hm (Nat.zero_le m)
    rw [hfind]
    rfl

/-- What is found for a command is decided by the entries of all commands but
any other one. -/
theorem lookupCompletion_congr {command' : Str} (hne : command' ≠ command)
    (h : others r' command = others r command) :
    lookupCompletion r' command' = lookupCompletion r command' := by
  have hfilter : ∀ l : List CompletionRegistration,
      (l.find? fun entry => entry.command == command') =
        (l.filter fun entry => entry.command != command).find?
          fun entry => entry.command == command' := by
    intro l
    rw [List.find?_filter]
    congr 1
    funext entry
    by_cases heq : entry.command = command'
    · simp [heq, hne]
    · simp [heq]
  rw [lookupCompletion_eq_find, lookupCompletion_eq_find, hfilter, hfilter (entries r)]
  exact congrArg (fun l : List CompletionRegistration =>
    (l.find? fun entry => entry.command == command').map _) h

/-! ## What a call does to the entries -/

theorem filter_eq_of_not {α : Type} {p : α → Bool} {l : List α} {i : Nat} (hi : i < l.length)
    (hold : p l[i] = false) : l.filter p = (l.take i).filter p ++ (l.drop (i + 1)).filter p :=
  calc l.filter p = (l.take i ++ l[i] :: l.drop (i + 1)).filter p := by
        rw [← List.drop_eq_getElem_cons hi, List.take_append_drop]
    _ = _ := by rw [List.filter_append, List.filter_cons_of_neg (by simp [hold])]

theorem filter_set_of_not {α : Type} {p : α → Bool} {l : List α} {i : Nat} {x : α}
    (hi : i < l.length) (hold : p l[i] = false) (hnew : p x = false) :
    (l.set i x).filter p = l.filter p := by
  rw [List.set_eq_take_append_cons_drop, if_pos hi, List.filter_append,
    List.filter_cons_of_neg (by simp [hnew]), filter_eq_of_not hi hold]

theorem filter_eraseIdx_of_not {α : Type} {p : α → Bool} {l : List α} {i : Nat}
    (hi : i < l.length) (hold : p l[i] = false) : (l.eraseIdx i).filter p = l.filter p := by
  rw [List.eraseIdx_eq_take_drop_succ, List.filter_append, filter_eq_of_not hi hold]

/-- An entry is overwritten in place. -/
theorem registerCompletion_of_some {i : Fin maxCompletions} (h : findCommand r command = some i) :
    (registerCompletion r command scriptPath).count = r.count ∧
      entries (registerCompletion r command scriptPath) =
        (entries r).set i { command := command, scriptPath := scriptPath } := by
  obtain ⟨-, heq⟩ := findCommand_some h
  rw [registerCompletion, h]
  refine ⟨rfl, ?_⟩
  apply List.ext_getElem
  · simp
  · intro m hm hm'
    rw [getElem_entries, List.getElem_set, Vector.getElem_set]
    split
    · exact congrArg (CompletionRegistration.mk · scriptPath) heq
    · rw [getElem_entries]

/-- An entry is added behind the others. -/
theorem registerCompletion_of_none (h : findCommand r command = none)
    (hroom : r.count < maxCompletions) :
    (registerCompletion r command scriptPath).count = r.count + 1 ∧
      entries (registerCompletion r command scriptPath) =
        entries r ++ [{ command := command, scriptPath := scriptPath }] := by
  rw [registerCompletion, h]
  simp only [dif_neg (Nat.not_le.mpr hroom)]
  refine ⟨trivial, ?_⟩
  apply List.ext_getElem
  · simp
  · intro m hm hm'
    rw [length_entries] at hm
    rw [getElem_entries, List.getElem_append]
    split
    · rename_i hlt
      rw [length_entries] at hlt
      rw [getElem_entries, Vector.getElem_set_ne _ _ (by omega)]
    · rename_i hge
      rw [length_entries] at hge
      have hlast : m = r.count := by simp only at hm; omega
      subst hlast
      simp

theorem getElem_shiftDown {j n m : Nat} {h : j + n < maxCompletions} (hm : m < maxCompletions) :
    (shiftDown cells j n h)[m] =
      if hin : j ≤ m ∧ m < j + n then cells[m + 1] else cells[m] := by
  induction n generalizing cells j with
  | zero => rw [shiftDown, dif_neg (by omega)]
  | succ n ih =>
    rw [shiftDown, ih]
    by_cases hj : m = j
    · subst hj
      rw [dif_neg (by omega), dif_pos (by omega), Vector.getElem_set_self]
    · by_cases hin : j + 1 ≤ m ∧ m < j + 1 + n
      · rw [dif_pos hin, dif_pos (by omega), Vector.getElem_set_ne _ _ (by omega)]
      · rw [dif_neg hin, dif_neg (by omega), Vector.getElem_set_ne _ _ (by omega)]

/-- The entry of a command in use is taken out, the ones behind it move down. -/
theorem unregisterCompletion_of_some {i : Fin maxCompletions}
    (h : findCommand r command = some i) :
    ∃ r', unregisterCompletion r command = some r' ∧ r'.count = r.count - 1 ∧
      entries r' = (entries r).eraseIdx i := by
  obtain ⟨hlt, heq⟩ := findCommand_some h
  have hbound := r.bound
  have hfound : (lookupCompletion r command).isSome := by rw [lookupCompletion, h]; rfl
  have hsearch : search r.cells command 0 maxCompletions (by omega) = some i := by
    obtain ⟨-, -, hfirst⟩ := search_some h
    cases hs : search r.cells command 0 maxCompletions (by omega) with
    | none => exact absurd heq (search_none hs i (by omega) (Nat.zero_le _))
    | some k =>
      obtain ⟨-, hk, hbefore⟩ := search_some hs
      rcases Nat.lt_trichotomy k.val i.val with hki | hki | hki
      · exact absurd hk (hfirst k hki (Nat.zero_le _))
      · rw [Fin.ext hki]
      · exact absurd heq (hbefore i hki (Nat.zero_le _))
  rw [unregisterCompletion, if_pos hfound, hsearch]
  simp only [dif_pos hlt]
  refine ⟨_, rfl, rfl, ?_⟩
  apply List.ext_getElem
  · rw [length_entries, List.length_eraseIdx_of_lt (by rwa [length_entries]), length_entries]
  · intro m hm hm'
    rw [length_entries] at hm
    simp only at hm
    rw [getElem_entries, getElem_shiftDown, List.getElem_eraseIdx]
    split
    · rename_i hin
      rw [dif_neg (by omega), getElem_entries]
    · rename_i hin
      rw [dif_pos (by omega), getElem_entries]

theorem unregisterCompletion_of_none (h : findCommand r command = none) :
    unregisterCompletion r command = some r := by
  have hnone : ¬ (lookupCompletion r command).isSome := by rw [lookupCompletion, h]; exact nofun
  rw [unregisterCompletion, if_neg hnone]

theorem getElem_entries_command {i : Fin maxCompletions} (h : findCommand r command = some i) :
    ∃ hi : i < (entries r).length, (entries r)[i].command = command := by
  obtain ⟨hlt, heq⟩ := findCommand_some h
  refine ⟨by rwa [length_entries], ?_⟩
  rwa [Fin.getElem_fin, getElem_entries]

theorem others_registerCompletion :
    others (registerCompletion r command scriptPath) command = others r command := by
  cases h : findCommand r command with
  | some i =>
    obtain ⟨hi, heq⟩ := getElem_entries_command h
    rw [others, (registerCompletion_of_some h).2]
    exact filter_set_of_not hi (by simpa using heq) (by simp)
  | none =>
    by_cases hroom : r.count < maxCompletions
    · rw [others, (registerCompletion_of_none h hroom).2, List.filter_append]
      simp [others]
    · rw [registerCompletion, h]
      simp only [dif_pos (Nat.not_lt.mp hroom)]

theorem commands_registerCompletion (r : Registry) (command scriptPath : Str) :
    commands (registerCompletion r command scriptPath) = commands r ∨
      command ∉ commands r ∧
        commands (registerCompletion r command scriptPath) = commands r ++ [command] := by
  cases h : findCommand r command with
  | some i =>
    obtain ⟨hi, heq⟩ := getElem_entries_command h
    left
    rw [commands, (registerCompletion_of_some h).2, List.map_set]
    apply List.ext_getElem
    · simp [commands]
    · intro m hm hm'
      rw [List.getElem_set]
      split
      · rename_i him
        subst him
        rw [← heq]
        simp [commands]
      · rfl
  | none =>
    by_cases hroom : r.count < maxCompletions
    · right
      refine ⟨findCommand_none h, ?_⟩
      rw [commands, (registerCompletion_of_none h hroom).2, List.map_append]
      rfl
    · left
      rw [registerCompletion, h]
      simp only [dif_pos (Nat.not_lt.mp hroom)]

/-! ## The registry as a map, over a run -/

inductive RegistryCall
  | register (command scriptPath : Str)
  | unregister (command : Str)

def runCall (r : Registry) : RegistryCall → Option Registry
  | .register command scriptPath => some (registerCompletion r command scriptPath)
  | .unregister command => unregisterCompletion r command

def CallStep (r : Registry) (call : RegistryCall) (r' : Registry) : Prop :=
  runCall r call = some r'

def emptyRegistry (cells : Cells) : Registry where
  cells := cells
  count := 0
  bound := Nat.zero_le _

theorem distinct_step {call : RegistryCall} (hr : (commands r).Nodup) (hs : CallStep r call r') :
    (commands r').Nodup := by
  cases call with
  | register command scriptPath =>
    obtain rfl := Option.some.inj hs
    rcases commands_registerCompletion r command _ with heq | ⟨hnot, heq⟩
    · rwa [heq]
    · rw [heq]
      exact (List.perm_append_singleton _ _).nodup_iff.mpr (List.nodup_cons.mpr ⟨hnot, hr⟩)
  | unregister command =>
    change unregisterCompletion r command = some r' at hs
    cases h : findCommand r command with
    | none =>
      rw [unregisterCompletion_of_none h] at hs
      rwa [← Option.some.inj hs]
    | some i =>
      obtain ⟨r'', hun, -, hentries⟩ := unregisterCompletion_of_some h
      obtain rfl := Option.some.inj (hun.symm.trans hs)
      rw [commands, hentries]
      exact hr.sublist ((List.eraseIdx_sublist ..).map _)

theorem distinct_of_reach {cells : Cells} (h : Runs.Reach (emptyRegistry cells) CallStep r) :
    (commands r).Nodup := by
  have hinit : (commands (emptyRegistry cells)).Nodup := by
    simp [commands, entries, emptyRegistry]
  exact Runs.Reach.invariant (I := fun r => (commands r).Nodup) hinit (fun _ _ _ => distinct_step) h

/-- The commands that are bound are the ones in the cells in use, each in one. -/
structure BoundedMap (r : Registry) : Prop where
  distinct : (commands r).Nodup
  count : r.count = (commands r).length
  capacity : r.count ≤ maxCompletions
  bound : ∀ command, command ∈ commands r ↔ (lookupCompletion r command).isSome

/-- `register_completion(command, scriptPath)` as the map and the order see it. -/
structure Registered (r : Registry) (command scriptPath : Str) (r' : Registry) : Prop where
  room : (lookupCompletion r command).isSome ∨ r.count < maxCompletions →
    lookupCompletion r' command = some scriptPath
  full : lookupCompletion r command = none → ¬ r.count < maxCompletions → r' = r
  frame : ∀ command', command' ≠ command →
    lookupCompletion r' command' = lookupCompletion r command'
  order : others r' command = others r command

/-- `unregister_completion(command)` likewise. -/
structure Unregistered (r : Registry) (command : Str) (r' : Registry) : Prop where
  removed : lookupCompletion r' command = none
  unbound : lookupCompletion r command = none → r' = r
  frame : ∀ command', command' ≠ command →
    lookupCompletion r' command' = lookupCompletion r command'
  order : others r' command = others r command

theorem findCommand_eq_none : findCommand r command = none ↔ lookupCompletion r command = none := by
  rw [lookupCompletion, Option.map_eq_none_iff]

theorem lookupCompletion_registerCompletion
    (hroom : (lookupCompletion r command).isSome ∨ r.count < maxCompletions) :
    lookupCompletion (registerCompletion r command scriptPath) command = some scriptPath := by
  have hfind : ((entries (registerCompletion r command scriptPath)).find?
      fun entry => entry.command == command) = some ⟨command, scriptPath⟩ := by
    cases h : findCommand r command with
    | none =>
      have hlt : r.count < maxCompletions :=
        hroom.resolve_left (by rw [findCommand_eq_none.mp h]; exact nofun)
      have hnot := findCommand_none h
      have hbefore : ((entries r).find? fun entry => entry.command == command) = none := by
        refine List.find?_eq_none.mpr fun entry hentry heq => hnot ?_
        exact List.mem_map.mpr ⟨entry, hentry, by simpa using heq⟩
      rw [(registerCompletion_of_none h hlt).2, List.find?_append, hbefore]
      simp
    | some i =>
      obtain ⟨hlt, heq, hfirst⟩ := search_some h
      have hi : i < (entries r).length := (getElem_entries_command h).1
      rw [(registerCompletion_of_some h).2]
      refine List.find?_eq_some_iff_getElem.mpr ⟨by simp, i, by simpa using hi, by simp, ?_⟩
      intro m hm
      rw [List.getElem_set_ne (by omega), getElem_entries]
      simpa using hfirst m hm (Nat.zero_le m)
  rw [lookupCompletion_eq_find, hfind]
  rfl

theorem registered_registerCompletion :
    Registered r command scriptPath (registerCompletion r command scriptPath) where
  room := lookupCompletion_registerCompletion
  full hnone hfull := by
    rw [registerCompletion, findCommand_eq_none.mpr hnone]
    exact dif_pos (Nat.not_lt.mp hfull)
  frame _ hne := lookupCompletion_congr hne others_registerCompletion
  order := others_registerCompletion

theorem unregistered_unregisterCompletion (hr : (commands r).Nodup) :
    ∃ r', unregisterCompletion r command = some r' ∧ Unregistered r command r' := by
  cases h : findCommand r command with
  | none =>
    have hnone := findCommand_eq_none.mp h
    exact ⟨r, unregisterCompletion_of_none h, hnone, fun _ => rfl, fun _ _ => rfl, rfl⟩
  | some i =>
    obtain ⟨r', hun, -, hentries⟩ := unregisterCompletion_of_some h
    obtain ⟨hi, heq⟩ := getElem_entries_command h
    have hothers : others r' command = others r command := by
      rw [others, hentries]
      exact filter_eraseIdx_of_not hi (by simpa using heq)
    have hgone : command ∉ commands r' := by
      have hsplit : commands r =
          ((entries r).take i).map CompletionRegistration.command ++
            command :: ((entries r).drop (i + 1)).map CompletionRegistration.command := by
        rw [← heq, ← List.map_cons, ← List.map_append]
        rw [Fin.getElem_fin, ← List.drop_eq_getElem_cons hi, List.take_append_drop]
        rfl
      have hnodup := hr
      rw [hsplit] at hnodup
      rw [commands, hentries, List.eraseIdx_eq_take_drop_succ, List.map_append]
      exact (List.nodup_cons.mp (List.perm_middle.nodup_iff.mp hnodup)).1
    rw [mem_commands_iff, Option.not_isSome_iff_eq_none] at hgone
    refine ⟨r', hun, hgone, fun hnone => ?_, fun _ hne => lookupCompletion_congr hne hothers, hothers⟩
    rw [findCommand_eq_none.mpr hnone] at h
    cases h

/-- **The registry is a bounded map.** After any calls of `register_completion`
and `unregister_completion` on an empty registry, the cells in use hold each
bound command once, and a further call does what it does to the map. -/
theorem boundedMap_of_reach {cells : Cells} (h : Runs.Reach (emptyRegistry cells) CallStep r) :
    BoundedMap r ∧
      (∀ command scriptPath,
        Registered r command scriptPath (registerCompletion r command scriptPath)) ∧
      ∀ command, ∃ r', unregisterCompletion r command = some r' ∧ Unregistered r command r' := by
  have hdistinct := distinct_of_reach h
  refine ⟨⟨hdistinct, ?_, r.bound, fun _ => mem_commands_iff⟩,
    fun _ _ => registered_registerCompletion, fun _ => unregistered_unregisterCompletion hdistinct⟩
  rw [commands, List.length_map, length_entries]

/-- Two commands are registered and the first one is removed. -/
theorem boundedMap_of_reach_removed :
    ∃ r, commands r = [str "b"] ∧ BoundedMap r := by
  have hreach : Runs.Reach (emptyRegistry (.replicate _ ⟨[], []⟩)) CallStep _ :=
    .next (.next (.next .start (a := .register (str "a") (str "x")) rfl)
      (a := .register (str "b") (str "y")) rfl) (a := .unregister (str "a")) rfl
  exact ⟨_, by decide, (boundedMap_of_reach hreach).1⟩

end Shell.Completion
