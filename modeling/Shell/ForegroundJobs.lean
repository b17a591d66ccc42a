import Shell.Reaping

/-! # Foreground children and the job list

The main thread goes through the job list as before, and now also starts children that
it waits for one by one: those of a pipeline, of a command substitution and of a
completion. A child may exit between any two steps. -/
namespace Shell.ForegroundJobs
open Shell.CTypes Shell.Jobs Shell.Lib
open Shell.Reaping (Pc Position doneJobs doneStatus forkedPid reapedPid registerForked
  reportAndRemove reportReaped pollJob removeDone)

/-- Where the main thread is with the children that it waits for. -/
inductive Foreground
  | none
  /-- These have been started, first to last. -/
  | starting (pids : List Int)
  /-- At the `waitpid` of the first of these. -/
  | waiting (pids : List Int)
  /-- There was no such child: `status` is read without a value. -/
  | lost

def Foreground.pids : Foreground → List Int
  | .starting pids | .waiting pids => pids
  | .none | .lost => []

structure System where
  shell : Reaping.System
  foreground : Foreground

def start : System where
  shell := Reaping.start
  foreground := .none

/-- Whether a `fork` has failed in the step. -/
inductive Label
  | granted
  | refused
  deriving DecidableEq

/-- Where `execute_command` cannot fork, the shell ends. -/
inductive Step (s : System) : Label → System → Prop
  | shell {t : Reaping.System} : s.foreground = .none → Reaping.Step s.shell t →
    Step s .granted { s with shell := t }
  | exit {pid : Int} : pid ∈ s.shell.live →
    Step s .granted { s with shell := { s.shell with
      live := s.shell.live.erase pid
      exited := pid :: s.shell.exited
      childExitedFlag := true } }
  | enter : s.shell.pc = .idle → s.foreground = .none →
    Step s .granted { s with foreground := .starting [] }
  | fork {pid : Int} {pids : List Int} : s.foreground = .starting pids → pid ∉ s.shell.live →
    pid ∉ s.shell.exited →
      Step s .granted
        { shell := { s.shell with live := pid :: s.shell.live }, foreground := .starting (pids ++ [pid]) }
  /-- `perror("fork"); return -1;` -/
  | refused {pids : List Int} : s.foreground = .starting pids →
    Step s .refused { s with foreground := .none }
  | started {pids : List Int} : s.foreground = .starting pids →
    Step s .granted { s with foreground := .waiting pids }
  | wait {pid : Int} {pids : List Int} : s.foreground = .waiting (pid :: pids) →
    pid ∈ s.shell.exited →
      Step s .granted
        { shell := { s.shell with exited := s.shell.exited.erase pid }, foreground := .waiting pids }
  | lose {pid : Int} {pids : List Int} : s.foreground = .waiting (pid :: pids) →
    pid ∉ s.shell.live → pid ∉ s.shell.exited → Step s .granted { s with foreground := .lost }
  | finish : s.foreground = .waiting [] → Step s .granted { s with foreground := .none }

def Reachable : System → Prop := Runs.Reach start Step

/-! ## The invariant -/

/-- A child that no `waitpid` has returned. -/
def Child (s : Reaping.System) (pid : Int) : Prop := pid ∈ s.live ∨ pid ∈ s.exited

/-- Outside of `check_background_jobs`, and not crashed. -/
def Outside : Pc → Prop
  | .reaping | .reaped _ | .crashed => False
  | _ => True

/-- Where no child is on its way into the job list or out of it. -/
def Quiet : Pc → Prop
  | .forked _ _ | .reaped _ | .done _ => False
  | _ => True

/-- The children that are waited for by their pids, with these in the foreground. -/
def expected (s : Reaping.System) (pids : List Int) : List Int :=
  (jobs s.jobList).map Job.pid ++ ((forkedPid s).toList ++ pids)

/-- The job list and the children, with these in the foreground. -/
structure Keeps (s : Reaping.System) (pids : List Int) : Prop where
  children : (s.live ++ s.exited).Nodup
  distinct : (expected s pids).Nodup
  there : ∀ pid ∈ expected s pids, Child s pid ∨ reapedPid s = some pid
  flag : Outside s.pc → s.exited ≠ [] → s.childExitedFlag = true
  reported : (doneJobs s ++ jobs s.jobList).Perm s.registered
  position : Position s ∨ s.pc = .crashed ∧ s.jobList = none

structure Inv (s : System) : Prop where
  shell : Keeps s.shell s.foreground.pids
  idle : s.foreground ≠ .none → s.shell.pc = .idle
  notLost : s.foreground ≠ .lost

theorem inv_start : Inv start where
  shell :=
    { children := List.nodup_nil
      distinct := List.nodup_nil
      there := fun _ h => absurd h List.not_mem_nil
      flag := fun _ h => absurd rfl h
      reported := .refl _
      position := .inl trivial }
  idle := absurd rfl
  notLost := by simp [start]

section Steps
variable {s : Reaping.System} {pids : List Int}

/-- A child stays where another one is reaped. -/
theorem Child.erase {pid q : Int} (h : Child s q) (hne : q ≠ pid) :
    q ∈ s.live ∨ q ∈ s.exited.erase pid :=
  h.imp_right (List.mem_erase_of_ne hne).mpr

theorem nodup_erase {live exited : List Int} (pid : Int) (h : (live ++ exited).Nodup) :
    (live ++ exited.erase pid).Nodup :=
  h.sublist (List.erase_sublist.append_left live)

theorem Keeps.position_of_outside (h : Keeps s pids) (hout : Outside s.pc) : Position s := by
  refine h.position.resolve_right fun hcrashed => ?_
  rwa [hcrashed.1] at hout

theorem Keeps.nodup_jobs (h : Keeps s pids) : ((jobs s.jobList).map Job.pid).Nodup :=
  h.distinct.of_append_left

/-- Where nothing has been reaped in the step, the kernel has all that is waited for. -/
theorem Keeps.child (h : Keeps s pids) (hreaped : reapedPid s = none) {pid : Int}
    (hmem : pid ∈ expected s pids) : Child s pid :=
  (h.there pid hmem).resolve_right fun hsome => by rw [hreaped] at hsome; cases hsome

/-- A pid that the kernel can give to a new child. -/
theorem Keeps.fresh (h : Keeps s pids) {pid : Int} (hreaped : reapedPid s = none)
    (hlive : pid ∉ s.live) (hexited : pid ∉ s.exited) : pid ∉ expected s pids :=
  fun hmem => (h.child hreaped hmem).elim hlive hexited

theorem expected_sublist {t : Reaping.System} {pids' : List Int} (hlist : t.jobList = s.jobList)
    (hforked : forkedPid t = forkedPid s) (hpids : pids'.Sublist pids) :
    (expected t pids').Sublist (expected s pids) := by
  rw [expected, expected, hlist, hforked]
  exact (hpids.append_left _).append_left _

theorem keeps_exit {pid : Int} (h : Keeps s pids) (hlive : pid ∈ s.live) :
    Keeps { s with live := s.live.erase pid, exited := pid :: s.exited, childExitedFlag := true }
      pids := by
  have hperm : (s.live.erase pid ++ pid :: s.exited).Perm (s.live ++ s.exited) := by
    refine List.perm_middle.trans ?_
    exact (List.perm_cons_erase hlive).symm.append_right s.exited
  constructor
  · exact hperm.nodup_iff.mpr h.children
  · exact h.distinct
  · intro q hq
    refine (h.there q hq).imp_left fun hchild => List.mem_append.mp ?_
    exact hperm.mem_iff.mpr (List.mem_append.mpr hchild)
  · exact fun _ _ => rfl
  · exact h.reported
  · refine h.position.imp_left fun hposition => ?_
    unfold Position at hposition ⊢
    cases hpc : s.pc <;> simp_all

/-- A new child, for the job list or in the foreground. -/
theorem keeps_fork {pid : Int} {pc : Pc} {pids' : List Int} (h : Keeps s pids)
    (hreaped : reapedPid s = none) (hout : Outside s.pc) (hlive : pid ∉ s.live)
    (hexited : pid ∉ s.exited)
    (hexpected : expected { s with live := pid :: s.live, pc := pc } pids' =
      expected s pids ++ [pid]) (hposition : Position { s with live := pid :: s.live, pc := pc }) :
    Keeps { s with live := pid :: s.live, pc := pc } pids' := by
  have hfresh := h.fresh hreaped hlive hexited
  constructor
  · rw [List.cons_append, List.nodup_cons, List.mem_append, not_or]
    exact ⟨⟨hlive, hexited⟩, h.children⟩
  · rw [hexpected]
    exact (List.perm_append_singleton _ _).nodup_iff.mpr (List.nodup_cons.mpr ⟨hfresh, h.distinct⟩)
  · intro q hq
    rw [hexpected] at hq
    obtain hq | hq := List.mem_append.mp hq
    · exact .inl ((h.child hreaped hq).imp_left (List.mem_cons_of_mem _))
    · rw [List.mem_singleton.mp hq]
      exact .inl (.inl List.mem_cons_self)
  · exact fun _ => h.flag hout
  · exact h.reported
  · exact .inl hposition

/-- The main thread goes on between two places where nothing is reaped. -/
theorem keeps_move {pc : Pc} {pids' : List Int} (h : Keeps s pids) (hreaped : reapedPid s = none)
    (hexpected : (expected { s with pc := pc } pids').Sublist (expected s pids))
    (hin : Outside pc → Outside s.pc ∨ s.exited = []) (hposition : Position { s with pc := pc }) :
    Keeps { s with pc := pc } pids' where
  children := h.children
  distinct := h.distinct.sublist hexpected
  there := fun _ hq => .inl (h.child hreaped (hexpected.subset hq))
  flag := fun hout hne => (hin hout).elim (fun hout => h.flag hout hne) (absurd · hne)
  reported := h.reported
  position := .inl hposition

theorem forkedPid_of_quiet (h : Quiet s.pc) : forkedPid s = none := by
  unfold forkedPid
  split
  · rename_i hpc
    rw [hpc] at h
    exact h.elim
  · rfl

theorem reapedPid_of_quiet (h : Quiet s.pc) : reapedPid s = none := by
  unfold reapedPid
  split
  · rename_i hpc
    rw [hpc] at h
    exact h.elim
  · rename_i hpc
    rw [hpc] at h
    exact h.elim
  · rfl

theorem keeps_walk {pc : Pc} (h : Keeps s pids) (hquiet : Quiet s.pc) (hquiet' : Quiet pc)
    (hin : Outside pc → Outside s.pc ∨ s.exited = []) (hposition : Position { s with pc := pc }) :
    Keeps { s with pc := pc } pids := by
  have hforked : forkedPid { s with pc := pc } = none := forkedPid_of_quiet hquiet'
  exact keeps_move h (reapedPid_of_quiet hquiet)
    (expected_sublist rfl (hforked.trans (forkedPid_of_quiet hquiet).symm) (.refl _)) hin hposition

/-- A child is reaped that nothing but this step still waits for. -/
theorem keeps_reap {pid : Int} {pc : Pc} {pids' : List Int} (h : Keeps s pids)
    (hreaped : reapedPid s = none) (hexited : pid ∈ s.exited)
    (hexpected : (expected { s with exited := s.exited.erase pid, pc := pc } pids').Sublist
      (expected s pids))
    (hlast : pid ∈ expected { s with exited := s.exited.erase pid, pc := pc } pids' →
      reapedPid { s with exited := s.exited.erase pid, pc := pc } = some pid)
    (hin : Outside pc → Outside s.pc)
    (hposition : Position { s with exited := s.exited.erase pid, pc := pc }) :
    Keeps { s with exited := s.exited.erase pid, pc := pc } pids' where
  children := nodup_erase pid h.children
  distinct := h.distinct.sublist hexpected
  there := by
    intro q hq
    by_cases hpid : q = pid
    · rw [hpid] at hq ⊢
      exact .inr (hlast hq)
    · exact .inl ((h.child hreaped (hexpected.subset hq)).erase hpid)
  flag := fun hout _ => h.flag (hin hout) (List.ne_nil_of_mem hexited)
  reported := h.reported
  position := .inl hposition

/-- Reporting a reaped child's job: it moves from the list to the reports. -/
theorem keeps_reportAndRemove {list : JobList} {job : Job} {next : Pc} (h : Keeps s [])
    (hlist : s.jobList = some list) (hjob : job ∈ list.nodes) (hforked : forkedPid s = none)
    (hreaped : reapedPid s = some job.pid)
    (hnext : next = .reaping ∨ (∃ i, next = .printing i) ∧ Outside s.pc) :
    Keeps (reportAndRemove s list job next) [] := by
  obtain ⟨symbol, hprint⟩ := printJobWithStatus_of_mem hjob doneStatus
  have hpids := h.nodup_jobs
  have hthere := h.there
  have hreported := h.reported
  simp only [expected, hlist, jobs_some, hforked, Option.toList_none, List.append_nil] at hpids hthere
  rw [hlist, jobs_some] at hreported
  have hremove := jlRemove_perm hjob hpids
  have hmap := hremove.map Job.pid
  rw [List.map_cons] at hmap
  have hnotin := (List.nodup_cons.mp (hmap.nodup_iff.mp hpids)).1
  have hnextForked : ∀ jobList output,
      forkedPid { s with jobList := jobList, output := output, pc := next } = none := by
    rcases hnext with rfl | ⟨⟨i, rfl⟩, -⟩ <;> exact fun _ _ => rfl
  rw [reportAndRemove, hprint]
  constructor
  · exact h.children
  · simp only [expected, hnextForked, jobs_some, Option.toList_none, List.append_nil]
    exact hpids.sublist (List.eraseP_sublist.map _)
  · intro q hq
    simp only [expected, hnextForked, jobs_some, Option.toList_none, List.append_nil] at hq
    obtain hchild | hsame := hthere q (hmap.symm.subset (List.mem_cons_of_mem _ hq))
    · exact .inl hchild
    · rw [hreaped] at hsame
      exact absurd (Option.some.inj hsame ▸ hq) hnotin
  · intro hout hne
    rcases hnext with rfl | ⟨-, hin⟩
    · exact hout.elim
    · exact h.flag hin hne
  · simp only [doneJobs, List.filter_append, List.map_append, jobs_some] at hreported ⊢
    rw [List.append_assoc]
    exact (hremove.symm.append_left _).trans hreported
  · rcases hnext with rfl | ⟨⟨i, rfl⟩, -⟩
    · exact .inl trivial
    · exact .inl rfl

theorem keeps_registerForked {pid : Int} {cmdline : Str} (h : Keeps s [])
    (hpc : s.pc = .forked pid cmdline) : Keeps (registerForked s pid cmdline) [] := by
  have hforked : forkedPid s = some pid := by rw [forkedPid, hpc]
  have hreaped : reapedPid s = none := by rw [reapedPid, hpc]
  have hexpected : expected (registerForked s pid cmdline) [] = expected s [] := by
    have hprinted : (registerJob s.jobList pid cmdline).printed.pid = pid := rfl
    rw [expected, expected, hforked, registerForked, jobs_some, nodes_registerJob, List.map_append,
      List.map_singleton, hprinted]
    simp [forkedPid]
  constructor
  · exact h.children
  · rw [hexpected]
    exact h.distinct
  · intro q hq
    rw [hexpected] at hq
    exact .inl (h.child hreaped hq)
  · exact fun _ => h.flag (by rw [hpc]; trivial)
  · simp only [registerForked, doneJobs, jobs_some, nodes_registerJob]
    rw [← List.append_assoc]
    exact h.reported.append_right _
  · exact .inl trivial

theorem keeps_reportReaped {pid : Int} (h : Keeps s []) (hpc : s.pc = .reaped pid) :
    Keeps (reportReaped s pid) [] := by
  have hforked : forkedPid s = none := by rw [forkedPid, hpc]
  have hreaped : reapedPid s = some pid := by rw [reapedPid, hpc]
  unfold reportReaped
  split
  · rename_i hnone
    have hnil : expected { s with pc := .crashed } [] = [] := by
      rw [expected, hnone]
      rfl
    refine ⟨h.children, ?_, ?_, fun hout => hout.elim, h.reported, .inr ⟨rfl, hnone⟩⟩
    · rw [hnil]
      exact List.nodup_nil
    · rw [hnil]
      exact fun _ hq => absurd hq List.not_mem_nil
  rename_i list hlist
  split
  · rename_i hget
    -- nothing is expected of this child
    have hexpected : expected { s with pc := .reaping } [] = expected s [] := by
      rw [expected, expected, hforked]
      rfl
    have hgone : pid ∉ expected s [] := by
      intro hmem
      rw [expected, hforked, hlist, jobs_some, Option.toList_none, List.append_nil,
        List.append_nil] at hmem
      obtain ⟨job, hjob, hpid⟩ := List.mem_map.mp hmem
      exact getJobByPid_none hget job hjob hpid
    refine ⟨h.children, ?_, fun q hq => ?_, fun hout => hout.elim, h.reported,
      .inl trivial⟩
    · rw [hexpected]
      exact h.distinct
    · rw [hexpected] at hq
      refine .inl ((h.there q hq).resolve_right fun hsame => ?_)
      rw [hreaped] at hsame
      exact hgone (Option.some.inj hsame ▸ hq)
  · rename_i job hget
    obtain ⟨hjob, rfl⟩ := getJobByPid_some hget
    exact keeps_reportAndRemove h hlist hjob hforked hreaped (.inl rfl)

theorem keeps_removeDone {i : Nat} (h : Keeps s []) (hpc : s.pc = .done i) :
    Keeps (removeDone s i) [] := by
  have hforked : forkedPid s = none := by rw [forkedPid, hpc]
  have hlt : i < (jobs s.jobList).length := by
    have hposition := h.position_of_outside (by rw [hpc]; trivial)
    rwa [Position, hpc] at hposition
  unfold removeDone
  split
  · rename_i hnone
    rw [hnone] at hlt
    exact absurd hlt (Nat.not_lt_zero i)
  rename_i list hlist
  rw [hlist, jobs_some] at hlt
  split
  · rename_i hnone
    rw [List.getElem?_eq_none_iff] at hnone
    omega
  · rename_i job hget
    have hreaped : reapedPid s = some job.pid := by
      simp only [reapedPid, hpc, hlist, jobs_some, hget, Option.map_some]
    exact keeps_reportAndRemove h hlist (List.mem_of_getElem? hget) hforked hreaped
      (.inr ⟨⟨i, rfl⟩, by rw [hpc]; trivial⟩)

theorem keeps_pollJob {i : Nat} (h : Keeps s []) (hpc : s.pc = .printing i) :
    Keeps (pollJob s i) [] := by
  have hquiet : Quiet s.pc := by rw [hpc]; trivial
  have hout : Outside s.pc := by rw [hpc]; trivial
  unfold pollJob
  split
  · rename_i hnone
    have hposition := h.position_of_outside hout
    rw [Position, hpc, hnone] at hposition
    cases hposition
  rename_i list hlist
  split
  · exact keeps_walk h hquiet trivial (fun _ => .inl hout) trivial
  rename_i job hget
  split
  · rename_i hexited
    refine keeps_reap h (reapedPid_of_quiet hquiet) hexited
      (expected_sublist rfl (forkedPid_of_quiet hquiet).symm (.refl _)) (fun _ => ?_) (fun _ => hout) ?_
    · simp only [reapedPid, hlist, jobs_some, hget, Option.map_some]
    · simp only [Position, hlist, jobs_some]
      exact (List.getElem?_eq_some_iff.mp hget).1
  · obtain ⟨symbol, hprint⟩ := printJobWithStatus_of_mem (List.mem_of_getElem? hget) (str "Running")
    have hnot : (str "Running" == doneStatus) = false := by decide
    have hwalk : Keeps { s with pc := .printing (i + 1) } [] := by
      refine keeps_walk h hquiet trivial (fun _ => .inl hout) ?_
      simp [Position, hlist]
    rw [hprint]
    refine ⟨hwalk.children, hwalk.distinct, hwalk.there, hwalk.flag, ?_, hwalk.position⟩
    simpa [doneJobs, hnot] using hwalk.reported

/-- **A step of the job list.** With nothing in the foreground it keeps the list and the
children together, or a null pointer is followed. -/
theorem keeps_step {t : Reaping.System} (h : Keeps s []) (hs : Reaping.Step s t) : Keeps t [] := by
  cases hs with
  | exit hlive => exact keeps_exit h hlive
  | @fork pid cmdline hpc hlive hexited =>
    have hforked : forkedPid s = none := by rw [forkedPid, hpc]
    refine keeps_fork h (by rw [reapedPid, hpc]) (by rw [hpc]; trivial) hlive hexited ?_
      trivial
    rw [expected, expected, hforked]
    simp [forkedPid]
  | register hpc => exact keeps_registerForked h hpc
  | check hpc =>
    exact keeps_walk h (by rw [hpc]; trivial) trivial (fun _ => .inl (by rw [hpc]; trivial)) trivial
  | test hpc =>
    have hquiet : Quiet s.pc := by rw [hpc]; trivial
    have hout : Outside s.pc := by rw [hpc]; trivial
    by_cases hflag : s.childExitedFlag = true
    · rw [if_pos hflag]
      exact keeps_walk h hquiet trivial (fun _ => .inl hout) hflag
    · rw [if_neg hflag]
      exact keeps_walk h hquiet trivial (fun _ => .inl hout) trivial
  | clear hpc =>
    have hwalk : Keeps { s with pc := .reaping } [] :=
      keeps_walk h (by rw [hpc]; trivial) trivial (fun hout => hout.elim) trivial
    exact ⟨hwalk.children, hwalk.distinct, hwalk.there, fun hout => hout.elim, hwalk.reported,
      hwalk.position⟩
  | waitAny hpc hexited =>
    exact keeps_reap h (by rw [reapedPid, hpc]) hexited
      (expected_sublist rfl (by rw [forkedPid, forkedPid, hpc]) (.refl _)) (fun _ => rfl)
      (fun hout => hout.elim) trivial
  | waitNone hpc hnil =>
    exact keeps_walk h (by rw [hpc]; trivial) trivial (fun _ => .inr hnil) trivial
  | report hpc => exact keeps_reportReaped h hpc
  | printJobs hpc =>
    have hwalk : Keeps { s with pc := .checking } [] :=
      keeps_walk h (by rw [hpc]; trivial) trivial (fun _ => .inl (by rw [hpc]; trivial)) trivial
    exact ⟨hwalk.children, hwalk.distinct, hwalk.there, fun _ => hwalk.flag trivial,
      hwalk.reported, .inl rfl⟩
  | poll hpc => exact keeps_pollJob h hpc
  | remove hpc => exact keeps_removeDone h hpc

end Steps

/-! ## Steps with children in the foreground -/

variable {s s' : System}

theorem Inv.settled (h : Inv s) (hne : s.foreground ≠ .none) :
    reapedPid s.shell = none ∧ Outside s.shell.pc := by
  rw [reapedPid, h.idle hne]
  exact ⟨rfl, trivial⟩

theorem inv_step {l : Label} (h : Inv s) (hs : Step s l s') : Inv s' := by
  cases hs with
  | shell hnone hshell =>
    have hkeeps := h.shell
    rw [hnone] at hkeeps
    refine ⟨?_, fun hne => absurd hnone hne, h.notLost⟩
    rw [hnone]
    exact keeps_step hkeeps hshell
  | exit hlive => exact ⟨keeps_exit h.shell hlive, h.idle, h.notLost⟩
  | enter hpc hnone =>
    have hkeeps := h.shell
    rw [hnone] at hkeeps
    exact ⟨hkeeps, fun _ => hpc, by simp⟩
  | @fork pid pids hstart hlive hexited =>
    have hne : s.foreground ≠ .none := by simp [hstart]
    obtain ⟨hreaped, hout⟩ := h.settled hne
    have hkeeps := h.shell
    have hidle := h.idle hne
    rw [hstart] at hkeeps
    refine ⟨@keeps_fork _ _ pid s.shell.pc _ hkeeps hreaped hout hlive hexited ?_ ?_,
      fun _ => hidle, by simp⟩
    · simp [expected, Foreground.pids, forkedPid]
    · rw [hidle]
      trivial
  | @refused pids hstart =>
    have hne : s.foreground ≠ .none := by simp [hstart]
    obtain ⟨hreaped, hout⟩ := h.settled hne
    have hposition := h.shell.position_of_outside hout
    exact ⟨keeps_move h.shell hreaped (expected_sublist rfl rfl (List.nil_sublist _))
      (fun _ => .inl hout) hposition, absurd rfl, by simp⟩
  | started hstart =>
    have hkeeps := h.shell
    have hidle := h.idle (by simp [hstart])
    rw [hstart] at hkeeps
    exact ⟨hkeeps, fun _ => hidle, by simp⟩
  | @wait pid pids hwait hexited =>
    have hne : s.foreground ≠ .none := by simp [hwait]
    obtain ⟨hreaped, hout⟩ := h.settled hne
    have hkeeps := h.shell
    have hidle := h.idle hne
    rw [hwait] at hkeeps
    refine ⟨@keeps_reap _ _ pid s.shell.pc _ hkeeps hreaped hexited
      (expected_sublist rfl rfl (List.sublist_cons_self pid pids)) (fun hmem => ?_) (fun _ => hout) ?_,
      fun _ => hidle, by simp⟩
    · have hdistinct := hkeeps.distinct
      rw [expected, Foreground.pids, ← List.append_assoc, List.perm_middle.nodup_iff,
        List.append_assoc] at hdistinct
      exact absurd hmem (List.nodup_cons.mp hdistinct).1
    · rw [hidle]
      trivial
  | @lose pid pids hwait hlive hexited =>
    have hne : s.foreground ≠ .none := by simp [hwait]
    obtain ⟨hreaped, -⟩ := h.settled hne
    have hmem : pid ∈ expected s.shell s.foreground.pids := by
      rw [hwait]
      exact List.mem_append_right _ (List.mem_append_right _ List.mem_cons_self)
    exact absurd (h.shell.child hreaped hmem) (not_or.mpr ⟨hlive, hexited⟩)
  | finish hwait =>
    have hkeeps := h.shell
    rw [hwait] at hkeeps
    exact ⟨hkeeps, absurd rfl, by simp⟩

theorem Reachable.inv (h : Reachable s) : Inv s :=
  Runs.Reach.invariant (I := Inv) inv_start (fun _ _ _ => inv_step) h

/-- **Every child is waited for by who started it.** In every state that any interleaving
reaches, failed forks included: the children that a foreground command still has to wait for
are there, so that each of its `waitpid` calls returns a status; a background job has its
child, or it is being reaped; jobs are in the list or reported as done, each one once; and a
child that has exited has set the flag. A null pointer is followed only where there has never
been a job list. -/
theorem foreground_of_reachable (h : Reachable s) :
    s.foreground ≠ .lost ∧
    (∀ pid ∈ s.foreground.pids, Child s.shell pid) ∧
    (∀ job ∈ jobs s.shell.jobList, Child s.shell job.pid ∨ reapedPid s.shell = some job.pid) ∧
    (doneJobs s.shell ++ jobs s.shell.jobList).Perm s.shell.registered ∧
    (Outside s.shell.pc → s.shell.exited ≠ [] → s.shell.childExitedFlag = true) ∧
    (s.shell.pc = .crashed → s.shell.jobList = none) := by
  have hinv := h.inv
  refine ⟨hinv.notLost, fun pid hpid => ?_, fun job hjob => ?_, hinv.shell.reported,
    hinv.shell.flag, fun hcrashed => ?_⟩
  · have hne : s.foreground ≠ .none := by
      intro hnone
      rw [hnone] at hpid
      cases hpid
    exact hinv.shell.child (hinv.settled hne).1
      (List.mem_append_right _ (List.mem_append_right _ hpid))
  · exact hinv.shell.there job.pid (List.mem_append_left _ (List.mem_map_of_mem hjob))
  · obtain hposition | ⟨-, hnone⟩ := hinv.shell.position
    · rw [Position, hcrashed] at hposition
      exact hposition.elim
    · exact hnone

/-- A job exits while the second of two children in the foreground is still waited for. -/
theorem foreground_of_reachable_waiting : ∃ s : System, s.foreground = .waiting [9] ∧
    s.shell.exited = [7] ∧ s.shell.childExitedFlag = true ∧
    ∀ pid ∈ s.foreground.pids, Child s.shell pid := by
  have hregistered : Reachable _ :=
    .next (.next .start (.shell rfl (@Reaping.Step.fork _ 7 [] rfl (by decide) (by decide))))
      (.shell rfl (.register rfl))
  have hstarted : Reachable _ :=
    .next (.next (.next (.next hregistered (.enter rfl rfl))
      (@Step.fork _ 8 _ rfl (by decide) (by decide)))
      (@Step.fork _ 9 _ rfl (by decide) (by decide))) (.started rfl)
  have hwaited : Reachable _ :=
    .next (.next (.next hstarted (@Step.exit _ 7 (by decide))) (@Step.exit _ 8 (by decide)))
      (@Step.wait _ 8 [9] rfl (by decide))
  exact ⟨_, rfl, by decide, rfl, (foreground_of_reachable hwaited).2.1⟩

/-! ## Where the job list is still null -/

/-- From `s`, without a `fork` that fails. -/
def Granted (s : System) : System → Prop :=
  Runs.Reach s fun s (_ : Unit) t => Step s .granted t

/-- While there is no job list, every child is waited for by its pid. -/
def Accounted (s : Reaping.System) (pids : List Int) : Prop :=
  s.jobList = none → s.pc ≠ .crashed ∧ reapedPid s = none ∧
    ∀ pid, Child s pid → pid ∈ (forkedPid s).toList ++ pids

section Accounted
variable {s t : Reaping.System} {pids : List Int}

theorem jobList_isSome_step (h : s.jobList.isSome = true) (hs : Reaping.Step s t) :
    t.jobList.isSome = true := by
  have hreport : ∀ (list : JobList) (job : Job) (next : Pc),
      (reportAndRemove s list job next).jobList.isSome = true := by
    intro list job next
    unfold reportAndRemove
    split
    · exact h
    · rfl
  cases hs with
  | exit _ | fork _ _ _ | check _ | test _ | clear _ | waitAny _ _ | waitNone _ _ => exact h
  | register _ | printJobs _ => rfl
  | report _ =>
    unfold reportReaped
    repeat' split
    · exact h
    · exact h
    · exact hreport _ _ _
  | poll _ =>
    unfold pollJob
    repeat' split
    all_goals exact h
  | remove _ =>
    unfold removeDone
    repeat' split
    · exact h
    · exact h
    · exact hreport _ _ _

theorem child_of_exit {pid q : Int} (hlive : pid ∈ s.live)
    (h : q ∈ s.live.erase pid ∨ q ∈ pid :: s.exited) : Child s q := by
  obtain h | h := h
  · exact .inl (List.mem_of_mem_erase h)
  · obtain rfl | h := List.mem_cons.mp h
    · exact .inl hlive
    · exact .inr h

/-- Without a job list the shell only moves on, or forks. -/
theorem accounted_step (h : Keeps s []) (ha : Accounted s []) (hs : Reaping.Step s t) :
    Accounted t [] := by
  intro hnull
  have hnone : s.jobList = none := by
    rw [← Option.not_isSome_iff_eq_none]
    intro hsome
    have hsome' := jobList_isSome_step hsome hs
    rw [hnull] at hsome'
    cases hsome'
  obtain ⟨hcrashed, hreaped, hchildren⟩ := ha hnone
  have hwalk : ∀ pc, Quiet s.pc → pc ≠ .crashed → Quiet pc →
      pc ≠ .crashed ∧ reapedPid { s with pc := pc } = none ∧
        ∀ pid, Child { s with pc := pc } pid → pid ∈ (forkedPid { s with pc := pc }).toList ++ [] := by
    intro pc hquiet hpc hquiet'
    have hforked := forkedPid_of_quiet hquiet
    refine ⟨hpc, reapedPid_of_quiet hquiet', fun pid hchild => ?_⟩
    have hmem := hchildren pid hchild
    rw [hforked] at hmem
    cases hmem
  cases hs with
  | exit hlive => exact ⟨hcrashed, hreaped, fun q hq => hchildren q (child_of_exit hlive hq)⟩
  | @fork pid cmdline hpc hlive hexited =>
    refine ⟨by simp, rfl, fun q hq => ?_⟩
    obtain hq | hq := hq
    · obtain rfl | hq := List.mem_cons.mp hq
      · exact List.mem_cons_self
      · have hmem := hchildren q (.inl hq)
        rw [forkedPid, hpc] at hmem
        cases hmem
    · have hmem := hchildren q (.inr hq)
      rw [forkedPid, hpc] at hmem
      cases hmem
  | register hpc => cases hnull
  | check hpc => exact hwalk .checking (by rw [hpc]; trivial) (by simp) trivial
  | test hpc =>
    refine hwalk _ (by rw [hpc]; trivial) ?_ ?_
    · split <;> simp
    · split <;> trivial
  | clear hpc => exact hwalk .reaping (by rw [hpc]; trivial) (by simp) trivial
  | @waitAny pid hpc hexited =>
    have hmem := hchildren pid (.inr hexited)
    rw [forkedPid, hpc] at hmem
    cases hmem
  | waitNone hpc hnil => exact hwalk .idle (by rw [hpc]; trivial) (by simp) trivial
  | report hpc =>
    rw [reapedPid, hpc] at hreaped
    cases hreaped
  | printJobs hpc => cases hnull
  | poll hpc =>
    have hposition := h.position_of_outside (by rw [hpc]; trivial)
    rw [Position, hpc, hnone] at hposition
    cases hposition
  | remove hpc =>
    have hposition := h.position_of_outside (by rw [hpc]; trivial)
    rw [Position, hpc, hnone] at hposition
    exact absurd hposition (Nat.not_lt_zero _)

end Accounted

theorem accounted_granted (h : Inv s) (ha : Accounted s.shell s.foreground.pids)
    (hs : Step s .granted s') : Accounted s'.shell s'.foreground.pids := by
  have hinv := inv_step h hs
  cases hs with
  | shell hnone hshell =>
    have hkeeps := h.shell
    rw [hnone] at hkeeps ha
    rw [hnone]
    exact accounted_step hkeeps ha hshell
  | exit hlive =>
    intro hnull
    obtain ⟨hcrashed, hreaped, hchildren⟩ := ha hnull
    exact ⟨hcrashed, hreaped, fun q hq => hchildren q (child_of_exit hlive hq)⟩
  | enter hpc hnone =>
    rw [hnone] at ha
    exact ha
  | @fork pid pids hstart hlive hexited =>
    intro hnull
    obtain ⟨hcrashed, hreaped, hchildren⟩ := ha hnull
    rw [hstart] at hchildren
    refine ⟨hcrashed, hreaped, fun q hq => ?_⟩
    rw [Foreground.pids, ← List.append_assoc, List.mem_append, List.mem_singleton]
    obtain hq | hq := hq
    · obtain hq | hq := List.mem_cons.mp hq
      · exact .inr hq
      · exact .inl (hchildren q (.inl hq))
    · exact .inl (hchildren q (.inr hq))
  | started hstart =>
    rw [hstart] at ha
    exact ha
  | @wait pid pids hwait hexited =>
    intro hnull
    obtain ⟨hcrashed, hreaped, hchildren⟩ := ha hnull
    rw [hwait] at hchildren
    refine ⟨hcrashed, hreaped, fun q hq => ?_⟩
    -- the child that is reaped is gone
    have hperm := (List.perm_cons_erase hexited).append_left s.shell.live
    have hgone := (List.nodup_cons.mp (List.perm_middle.nodup_iff.mp
      (hperm.nodup_iff.mp h.shell.children))).1
    have hne : q ≠ pid := by
      rintro rfl
      exact hgone (List.mem_append.mpr hq)
    have hmem := hchildren q (hq.imp_right List.mem_of_mem_erase)
    rw [Foreground.pids, List.mem_append, List.mem_cons] at hmem
    exact List.mem_append.mpr (hmem.imp_right fun hrest => hrest.resolve_left hne)
  | lose hwait hlive hexited => exact absurd rfl hinv.notLost
  | finish hwait =>
    rw [hwait] at ha
    exact ha

theorem not_crashed_of_granted {t : System} (h : Inv s)
    (ha : Accounted s.shell s.foreground.pids) (hrun : Granted s t) : t.shell.pc ≠ .crashed := by
  have hkept : Inv t ∧ Accounted t.shell t.foreground.pids :=
    Runs.Reach.invariant (I := fun s => Inv s ∧ Accounted s.shell s.foreground.pids) ⟨h, ha⟩
      (fun _ _ _ hI hs => ⟨inv_step hI.1 hs, accounted_granted hI.1 hI.2 hs⟩) hrun
  intro hcrashed
  obtain hposition | ⟨-, hnull⟩ := hkept.1.shell.position
  · rw [Position, hcrashed] at hposition
    exact hposition
  · exact (hkept.2 hnull).1 hcrashed

/-- At the next prompt the shell reaps the child and looks for its job. -/
theorem crashes_of_exited {t : System} {pid : Int} (hrun : Granted s t) (hpc : t.shell.pc = .idle)
    (hnone : t.foreground = .none) (hnull : t.shell.jobList = none) (hexited : pid ∈ t.shell.exited)
    (hflag : t.shell.childExitedFlag = true) : ∃ u, Granted s u ∧ u.shell.pc = .crashed := by
  have hchecking := hrun.next (a := ()) (.shell hnone (.check hpc))
  have hclearing := hchecking.next (a := ()) (.shell hnone (.test rfl))
  have hreaping := hclearing.next (a := ()) (.shell hnone (.clear (if_pos hflag)))
  have hreaped := hreaping.next (a := ()) (.shell hnone (.waitAny rfl hexited))
  have hreport := hreaped.next (a := ()) (.shell hnone (.report rfl))
  refine ⟨_, hreport, ?_⟩
  simp only [reportReaped, hnull]

/-- **When the null job list is followed.** From a prompt, without another `fork` that fails,
the shell can come to look for a job in a list that is not there just if there is a child and
there has been neither a background job nor a call of `jobs`. -/
theorem crashes_iff (h : Reachable s) (hpc : s.shell.pc = .idle) (hnone : s.foreground = .none) :
    (∃ t, Granted s t ∧ t.shell.pc = .crashed) ↔
      s.shell.jobList = none ∧ s.shell.live ++ s.shell.exited ≠ [] := by
  have hinv := h.inv
  constructor
  · rintro ⟨t, hrun, hcrashed⟩
    by_contra hnot
    refine not_crashed_of_granted hinv (fun hnull => ?_) hrun hcrashed
    have hnil : s.shell.live ++ s.shell.exited = [] := by
      by_contra hne
      exact hnot ⟨hnull, hne⟩
    refine ⟨by simp [hpc], by rw [reapedPid, hpc], fun pid hchild => ?_⟩
    have hmem := List.mem_append.mpr hchild
    rw [hnil] at hmem
    cases hmem
  · rintro ⟨hnull, hne⟩
    obtain ⟨pid, hmem⟩ := List.exists_mem_of_ne_nil _ hne
    obtain hlive | hexited := List.mem_append.mp hmem
    · exact crashes_of_exited (.next .start (a := ()) (.exit hlive)) hpc hnone hnull
        List.mem_cons_self rfl
    · have hflag := hinv.shell.flag (by rw [hpc]; trivial) (List.ne_nil_of_mem hexited)
      exact crashes_of_exited .start hpc hnone hnull hexited hflag

/-- The second `fork` of a pipeline fails, and the first child is left. -/
theorem crashes_iff_refused : ∃ s, s.shell.live = [8] ∧
    ∃ t, Granted s t ∧ t.shell.pc = .crashed := by
  have hreach : Reachable _ :=
    .next (.next (.next .start (.enter rfl rfl)) (@Step.fork _ 8 [] rfl (by decide) (by decide)))
      (.refused rfl)
  exact ⟨_, rfl, (crashes_iff hreach rfl rfl).mpr ⟨rfl, List.cons_ne_nil _ _⟩⟩

end Shell.ForegroundJobs
