import Shell.Jobs

/-! # Reaping background children (jobs.c)

The shell's main thread goes through `register_job`, `check_background_jobs` and
`print_jobs` step by step, and between any two of its steps a child may exit,
which runs `sigchld_handler`. `waitpid` takes an exited child off the kernel's
list. What was registered and what was printed is kept beside the state. -/
namespace Shell.Reaping
open Shell.CTypes Shell.Jobs Shell.Lib

/-- Where the main thread is. -/
inductive Pc
  | idle
  /-- `execute_andor_bg` has forked, and not called `register_job` yet. -/
  | forked (pid : Int) (cmdline : Str)
  /-- At the test of `child_exited_flag`. -/
  | checking
  /-- Behind the test, in front of `child_exited_flag = 0`. -/
  | clearing
  /-- At the `waitpid(-1, &status, WNOHANG)` of `report_and_reap_jobs`. -/
  | reaping
  /-- That call has returned a pid. -/
  | reaped (pid : Int)
  /-- At the node of `print_jobs` that has `i` nodes in front of it. -/
  | printing (i : Nat)
  /-- The `waitpid` of that node has returned its pid. -/
  | done (i : Nat)
  /-- A null pointer has been followed. -/
  | crashed
  deriving DecidableEq, Repr

/-- Behind `child_exited_flag = 0` in `check_background_jobs`. -/
def Pc.InCheck : Pc → Prop
  | .reaping | .reaped _ => True
  | _ => False

structure System where
  jobList : Option JobList
  live : List Int
  /-- The children that have exited and that no `waitpid` has returned. -/
  exited : List Int
  childExitedFlag : Bool
  pc : Pc
  registered : List Job
  output : List Report

def start : System where
  jobList := none
  live := []
  exited := []
  childExitedFlag := false
  pc := .idle
  registered := []
  output := []

/-! ## Steps -/

def doneStatus : Str := str "Done"

/-- The end of `execute_andor_bg` in the parent. -/
def registerForked (s : System) (pid : Int) (cmdline : Str) : System :=
  let r := registerJob s.jobList pid cmdline
  { s with jobList := some r.list, registered := s.registered ++ [r.printed], pc := .idle }

/-- `print_job_with_status(job, "Done")` and `jl_remove`, then on to `next`. -/
def reportAndRemove (s : System) (list : JobList) (job : Job) (next : Pc) : System :=
  match printJobWithStatus list job doneStatus with
  | none => { s with pc := .crashed }
  | some report =>
    { s with jobList := some (jlRemove list job.pid), output := s.output ++ [report], pc := next }

/-- A round of `report_and_reap_jobs` behind its `waitpid`. -/
def reportReaped (s : System) (pid : Int) : System :=
  match s.jobList with
  | none => { s with pc := .crashed }
  | some list =>
    match getJobByPid list pid with
    | none => { s with pc := .reaping }
    | some job => reportAndRemove s list job .reaping

/-- A round of `print_jobs`, up to the `waitpid` of `check_and_print_job` or,
where that does not return the pid, to the end of the round. -/
def pollJob (s : System) (i : Nat) : System :=
  match s.jobList with
  | none => { s with pc := .crashed }
  | some list =>
    match list.nodes[i]? with
    | none => { s with pc := .checking }
    | some job =>
      if job.pid ∈ s.exited then { s with exited := s.exited.erase job.pid, pc := .done i }
      else match printJobWithStatus list job (str "Running") with
        | none => { s with pc := .crashed }
        | some report => { s with output := s.output ++ [report], pc := .printing (i + 1) }

/-- The rest of that round. -/
def removeDone (s : System) (i : Nat) : System :=
  match s.jobList with
  | none => { s with pc := .crashed }
  | some list =>
    match list.nodes[i]? with
    | none => { s with pc := .crashed }
    | some job => reportAndRemove s list job (.printing i)

inductive Step (s : System) : System → Prop
  | exit {pid : Int} : pid ∈ s.live →
    Step s { s with live := s.live.erase pid, exited := pid :: s.exited, childExitedFlag := true }
  /-- The kernel gives a child a pid that no other child has. -/
  | fork {pid : Int} {cmdline : Str} : s.pc = .idle → pid ∉ s.live → pid ∉ s.exited →
    Step s { s with live := pid :: s.live, pc := .forked pid cmdline }
  | register {pid : Int} {cmdline : Str} : s.pc = .forked pid cmdline →
    Step s (registerForked s pid cmdline)
  | check : s.pc = .idle → Step s { s with pc := .checking }
  | test : s.pc = .checking →
    Step s { s with pc := if s.childExitedFlag then .clearing else .idle }
  | clear : s.pc = .clearing → Step s { s with childExitedFlag := false, pc := .reaping }
  | waitAny {pid : Int} : s.pc = .reaping → pid ∈ s.exited →
    Step s { s with exited := s.exited.erase pid, pc := .reaped pid }
  /-- No child has exited, or there is none: `waitpid` returns 0 or -1. -/
  | waitNone : s.pc = .reaping → s.exited = [] → Step s { s with pc := .idle }
  | report {pid : Int} : s.pc = .reaped pid → Step s (reportReaped s pid)
  | printJobs : s.pc = .idle →
    Step s { s with jobList := some (jobListCheck s.jobList), pc := .printing 0 }
  | poll {i : Nat} : s.pc = .printing i → Step s (pollJob s i)
  | remove {i : Nat} : s.pc = .done i → Step s (removeDone s i)

def Reachable : System → Prop := Runs.Reach start fun s (_ : Unit) s' => Step s s'

/-! ## The invariant -/

/-- The pid that a `waitpid` has returned and whose job is still in the list. -/
def reapedPid (s : System) : Option Int :=
  match s.pc with
  | .reaped pid => some pid
  | .done i => (jobs s.jobList)[i]?.map Job.pid
  | _ => none

/-- The pid of a child that is not registered yet. -/
def forkedPid (s : System) : Option Int :=
  match s.pc with
  | .forked pid _ => some pid
  | _ => none

/-- The jobs that have been reported as done. -/
def doneJobs (s : System) : List Job :=
  (s.output.filter fun report => report.status == doneStatus).map Report.job

/-- What the main thread knows where it is. -/
def Position (s : System) : Prop :=
  match s.pc with
  | .clearing => s.childExitedFlag = true
  | .printing _ => s.jobList.isSome = true
  | .done i => i < (jobs s.jobList).length
  | .crashed => False
  | _ => True

structure Inv (s : System) : Prop where
  /-- Every child has a job, apart from one just forked; every job has a child,
  apart from one just reaped. -/
  children : (s.live ++ s.exited ++ (reapedPid s).toList).Perm
    ((jobs s.jobList).map Job.pid ++ (forkedPid s).toList)
  distinct : ((jobs s.jobList).map Job.pid ++ (forkedPid s).toList).Nodup
  flag : ¬ s.pc.InCheck → s.exited ≠ [] → s.childExitedFlag = true
  reported : (doneJobs s ++ jobs s.jobList).Perm s.registered
  position : Position s

theorem inv_start : Inv start where
  children := .refl _
  distinct := List.nodup_nil
  flag := fun _ h => absurd rfl h
  reported := .refl _
  position := trivial

variable {s s' : System}

theorem Inv.pids (h : Inv s) : ((jobs s.jobList).map Job.pid).Nodup :=
  h.distinct.of_append_left

/-- Reporting a job of the list: it moves from the list to the reports. -/
theorem inv_reportAndRemove {list : JobList} {job : Job} {next : Pc} (h : Inv s)
    (hlist : s.jobList = some list) (hjob : job ∈ list.nodes)
    (hforked : forkedPid s = none) (hreaped : reapedPid s = some job.pid)
    (hnext : next = .reaping ∨ (∃ i, next = .printing i) ∧ ¬ s.pc.InCheck) :
    Inv (reportAndRemove s list job next) := by
  obtain ⟨symbol, hprint⟩ := printJobWithStatus_of_mem hjob doneStatus
  have hpids := h.pids
  have hchildren := h.children
  have hreported := h.reported
  simp only [hlist, jobs_some, hforked, hreaped, Option.toList_none, Option.toList_some,
    List.append_nil] at hpids hchildren hreported
  have hremove := jlRemove_perm hjob hpids
  have hnextReaped : ∀ jobList output,
      reapedPid { s with jobList := jobList, output := output, pc := next } = none := by
    rcases hnext with rfl | ⟨⟨i, rfl⟩, -⟩ <;> exact fun _ _ => rfl
  have hnextForked : ∀ jobList output,
      forkedPid { s with jobList := jobList, output := output, pc := next } = none := by
    rcases hnext with rfl | ⟨⟨i, rfl⟩, -⟩ <;> exact fun _ _ => rfl
  rw [reportAndRemove, hprint]
  constructor
  · simp only [hnextReaped, hnextForked, jobs_some, Option.toList_none, List.append_nil]
    have hmap := hremove.map Job.pid
    rw [List.map_cons] at hmap
    exact ((List.perm_append_singleton _ _).symm.trans (hchildren.trans hmap)).cons_inv
  · simp only [hnextForked, jobs_some, Option.toList_none, List.append_nil]
    exact hpids.sublist (List.eraseP_sublist.map _)
  · intro hout hne
    rcases hnext with rfl | ⟨-, hin⟩
    · exact absurd trivial hout
    · exact h.flag hin hne
  · simp only [doneJobs, List.filter_append, List.map_append, jobs_some] at hreported ⊢
    rw [List.append_assoc]
    exact (hremove.symm.append_left _).trans hreported
  · rcases hnext with rfl | ⟨⟨i, rfl⟩, -⟩
    · trivial
    · rfl

/-- Where no child is on its way in or out, the children are those of the jobs. -/
theorem Inv.settled (h : Inv s) (hreaped : reapedPid s = none) (hforked : forkedPid s = none) :
    (s.live ++ s.exited).Perm ((jobs s.jobList).map Job.pid) ∧
      ((jobs s.jobList).map Job.pid).Nodup := by
  have hchildren := h.children
  have hdistinct := h.distinct
  simp only [hforked, hreaped, Option.toList_none, List.append_nil] at hchildren hdistinct
  exact ⟨hchildren, hdistinct⟩

theorem inv_exit {pid : Int} (h : Inv s) (hlive : pid ∈ s.live) :
    Inv { s with live := s.live.erase pid, exited := pid :: s.exited, childExitedFlag := true } := by
  have hperm : (s.live.erase pid ++ pid :: s.exited).Perm (s.live ++ s.exited) := by
    refine List.perm_middle.trans ?_
    exact (List.perm_cons_erase hlive).symm.append_right s.exited
  exact ⟨(hperm.append_right _).trans h.children, h.distinct, fun _ _ => rfl, h.reported, by
    have := h.position
    unfold Position at this ⊢
    cases hpc : s.pc <;> simp_all⟩

theorem inv_fork {pid : Int} (cmdline : Str) (h : Inv s) (hpc : s.pc = .idle) (hlive : pid ∉ s.live)
    (hexited : pid ∉ s.exited) :
    Inv { s with live := pid :: s.live, pc := .forked pid cmdline } := by
  have hforked : forkedPid s = none := by rw [forkedPid, hpc]
  have hreaped : reapedPid s = none := by rw [reapedPid, hpc]
  obtain ⟨hchildren, hdistinct⟩ := h.settled hreaped hforked
  constructor
  · simp only [reapedPid, forkedPid, Option.toList_none, Option.toList_some, List.append_nil]
    exact (hchildren.cons pid).trans (List.perm_append_singleton _ _).symm
  · simp only [forkedPid, Option.toList_some]
    refine (List.perm_append_singleton _ _).nodup_iff.mpr (List.nodup_cons.mpr ⟨?_, hdistinct⟩)
    intro hmem
    rcases List.mem_append.mp (hchildren.symm.subset hmem) with hmem | hmem
    · exact hlive hmem
    · exact hexited hmem
  · exact fun _ => h.flag (by rw [hpc]; exact id)
  · exact h.reported
  · trivial

theorem inv_registerForked {pid : Int} {cmdline : Str} (h : Inv s)
    (hpc : s.pc = .forked pid cmdline) : Inv (registerForked s pid cmdline) := by
  have hforked : forkedPid s = some pid := by rw [forkedPid, hpc]
  have hreaped : reapedPid s = none := by rw [reapedPid, hpc]
  have hchildren := h.children
  have hdistinct := h.distinct
  rw [hforked] at hchildren hdistinct
  rw [hreaped] at hchildren
  have hmap : ((jobs s.jobList ++ [(registerJob s.jobList pid cmdline).printed]).map Job.pid) =
      (jobs s.jobList).map Job.pid ++ [pid] := by simp [registerJob]
  constructor
  · simpa [registerForked, reapedPid, forkedPid, hmap] using hchildren
  · simpa [registerForked, forkedPid, hmap] using hdistinct
  · intro _ hne
    exact h.flag (by rw [hpc]; exact id) hne
  · simp only [registerForked, doneJobs, jobs_some, nodes_registerJob]
    rw [← List.append_assoc]
    exact h.reported.append_right _
  · trivial

theorem inv_reportReaped {pid : Int} (h : Inv s) (hpc : s.pc = .reaped pid) :
    Inv (reportReaped s pid) := by
  have hforked : forkedPid s = none := by rw [forkedPid, hpc]
  have hreaped : reapedPid s = some pid := by rw [reapedPid, hpc]
  have hmem : pid ∈ (jobs s.jobList).map Job.pid := by
    have hsub := h.children.subset (a := pid) (by simp [hreaped])
    simpa [hforked] using hsub
  unfold reportReaped
  split
  · rename_i hnone
    rw [hnone] at hmem
    cases hmem
  rename_i list hlist
  rw [hlist, jobs_some] at hmem
  split
  · rename_i hnone
    obtain ⟨job, hjob, heq⟩ := List.mem_map.mp hmem
    exact absurd heq (getJobByPid_none hnone job hjob)
  · rename_i job hget
    obtain ⟨hjob, rfl⟩ := getJobByPid_some hget
    exact inv_reportAndRemove h hlist hjob hforked hreaped (.inl rfl)

theorem inv_removeDone {i : Nat} (h : Inv s) (hpc : s.pc = .done i) : Inv (removeDone s i) := by
  have hforked : forkedPid s = none := by rw [forkedPid, hpc]
  have hlt : i < (jobs s.jobList).length := by
    have := h.position
    rwa [Position, hpc] at this
  unfold removeDone
  split
  · rename_i hnone
    rw [hnone] at hlt
    exact absurd hlt (Nat.not_lt_zero i)
  rename_i list hlist
  rw [hlist, jobs_some] at hlt
  split
  · rename_i hnone
    rw [List.getElem?_eq_none_iff] at hnone
    omega
  · rename_i job hget
    have hreaped : reapedPid s = some job.pid := by
      simp only [reapedPid, hpc, hlist, jobs_some, hget, Option.map_some]
    exact inv_reportAndRemove h hlist (List.mem_of_getElem? hget) hforked hreaped
      (.inr ⟨⟨i, rfl⟩, by rw [hpc]; exact id⟩)

/-- A child that is reaped leaves the exited ones. -/
theorem reaped_perm {live exited : List Int} {pid : Int} (h : pid ∈ exited) :
    (live ++ exited.erase pid ++ [pid]).Perm (live ++ exited) := by
  rw [List.append_assoc]
  refine .append_left _ ?_
  exact (List.perm_append_singleton _ _).trans (List.perm_cons_erase h).symm

theorem inv_waitAny {pid : Int} (h : Inv s) (hpc : s.pc = .reaping) (hexited : pid ∈ s.exited) :
    Inv { s with exited := s.exited.erase pid, pc := .reaped pid } := by
  have hforked : forkedPid s = none := by rw [forkedPid, hpc]
  have hreaped : reapedPid s = none := by rw [reapedPid, hpc]
  obtain ⟨hchildren, hdistinct⟩ := h.settled hreaped hforked
  refine ⟨?_, ?_, absurd trivial, h.reported, trivial⟩
  · simp only [reapedPid, forkedPid, Option.toList_some, Option.toList_none, List.append_nil]
    exact (reaped_perm hexited).trans hchildren
  · simpa [forkedPid] using hdistinct

/-- A job whose child has exited is reaped, any other reported as running. -/
theorem inv_pollJob {i : Nat} (h : Inv s) (hpc : s.pc = .printing i) : Inv (pollJob s i) := by
  have hforked : forkedPid s = none := by rw [forkedPid, hpc]
  have hreaped : reapedPid s = none := by rw [reapedPid, hpc]
  have hflag : s.exited ≠ [] → s.childExitedFlag = true := h.flag (by rw [hpc]; exact id)
  obtain ⟨hchildren, hdistinct⟩ := h.settled hreaped hforked
  have hreported := h.reported
  unfold pollJob
  split
  · rename_i hnone
    have := h.position
    rw [Position, hpc, hnone] at this
    cases this
  rename_i list hlist
  rw [hlist, jobs_some] at hchildren hdistinct hreported
  split
  · exact ⟨by simpa [reapedPid, forkedPid, hlist] using hchildren,
      by simpa [forkedPid, hlist] using hdistinct, fun _ => hflag,
      by simpa [doneJobs, hlist] using h.reported, trivial⟩
  rename_i job hget
  split
  · rename_i hexited
    constructor
    · simp only [reapedPid, forkedPid, hlist, jobs_some, hget, Option.map_some,
        Option.toList_some, Option.toList_none, List.append_nil]
      exact (reaped_perm hexited).trans hchildren
    · simpa [forkedPid, hlist] using hdistinct
    · intro _ hne
      exact hflag fun hnil => by rw [hnil] at hexited; cases hexited
    · simpa [doneJobs, hlist] using h.reported
    · simp only [Position, hlist, jobs_some]
      exact (List.getElem?_eq_some_iff.mp hget).1
  · obtain ⟨symbol, hprint⟩ := printJobWithStatus_of_mem (List.mem_of_getElem? hget) (str "Running")
    rw [hprint]
    have hnot : (str "Running" == doneStatus) = false := by decide
    constructor
    · simpa [reapedPid, forkedPid, hlist] using hchildren
    · simpa [forkedPid, hlist] using hdistinct
    · exact fun _ => hflag
    · simpa [doneJobs, hnot, hlist] using hreported
    · simp [Position, hlist]

/-- The main thread goes on between two places where every job has its child. -/
theorem Inv.move {pc : Pc} (h : Inv s) (hreaped : reapedPid s = none) (hforked : forkedPid s = none)
    (hreaped' : reapedPid { s with pc := pc } = none)
    (hforked' : forkedPid { s with pc := pc } = none)
    (hin : ¬ pc.InCheck → ¬ s.pc.InCheck ∨ s.exited = [])
    (hposition : Position { s with pc := pc }) : Inv { s with pc := pc } where
  children := by
    have := h.children
    rw [hreaped, hforked] at this
    rwa [hreaped', hforked']
  distinct := by
    have := h.distinct
    rw [hforked] at this
    rwa [hforked']
  flag := fun hout hne => (hin hout).elim (fun hout => h.flag hout hne) (absurd · hne)
  reported := h.reported
  position := hposition

theorem inv_step (h : Inv s) (hs : Step s s') : Inv s' := by
  cases hs with
  | exit hlive => exact inv_exit h hlive
  | fork hpc hlive hexited => exact inv_fork _ h hpc hlive hexited
  | register hpc => exact inv_registerForked h hpc
  | check hpc =>
    exact h.move (by rw [reapedPid, hpc]) (by rw [forkedPid, hpc]) rfl rfl
      (fun _ => .inl (by rw [hpc]; exact id)) trivial
  | test hpc =>
    have hout : ¬ s.pc.InCheck := by rw [hpc]; exact id
    have hreaped : reapedPid s = none := by rw [reapedPid, hpc]
    have hforked : forkedPid s = none := by rw [forkedPid, hpc]
    by_cases hflag : s.childExitedFlag = true
    · rw [if_pos hflag]
      exact h.move hreaped hforked rfl rfl (fun _ => .inl hout) hflag
    · rw [if_neg hflag]
      exact h.move hreaped hforked rfl rfl (fun _ => .inl hout) trivial
  | clear hpc =>
    have hmove : Inv { s with pc := .reaping } :=
      h.move (by rw [reapedPid, hpc]) (by rw [forkedPid, hpc]) rfl rfl
        (fun _ => .inl (by rw [hpc]; exact id)) trivial
    exact ⟨hmove.children, hmove.distinct, absurd trivial, hmove.reported, trivial⟩
  | waitAny hpc hexited => exact inv_waitAny h hpc hexited
  | waitNone hpc hnil =>
    exact h.move (by rw [reapedPid, hpc]) (by rw [forkedPid, hpc]) rfl rfl
      (fun _ => .inr hnil) trivial
  | report hpc => exact inv_reportReaped h hpc
  | printJobs hpc =>
    have hmove : Inv { s with pc := .idle } :=
      h.move (by rw [reapedPid, hpc]) (by rw [forkedPid, hpc]) rfl rfl
        (fun _ => .inl (by rw [hpc]; exact id)) trivial
    exact ⟨hmove.children, hmove.distinct, hmove.flag, hmove.reported, rfl⟩
  | poll hpc => exact inv_pollJob h hpc
  | remove hpc => exact inv_removeDone h hpc

theorem Reachable.inv (h : Reachable s) : Inv s :=
  Runs.Reach.invariant (I := Inv) inv_start (fun _ _ _ => inv_step) h

/-! ## Reports of a run -/

/-- From `s` to `s'` either nothing is reported as done and no job leaves the
list, or one job is and leaves it. -/
def DoneWhenRemoved (s s' : System) : Prop :=
  (doneJobs s' = doneJobs s ∧ jobs s.jobList <+: jobs s'.jobList) ∨
    ∃ job, doneJobs s' = doneJobs s ++ [job] ∧ (jobs s.jobList).Perm (job :: jobs s'.jobList)

theorem doneWhenRemoved_reportAndRemove {list : JobList} {job : Job} {next : Pc}
    (hlist : s.jobList = some list) (hjob : job ∈ list.nodes)
    (hpids : (list.nodes.map Job.pid).Nodup) :
    DoneWhenRemoved s (reportAndRemove s list job next) := by
  obtain ⟨symbol, hprint⟩ := printJobWithStatus_of_mem hjob doneStatus
  rw [reportAndRemove, hprint]
  refine .inr ⟨job, ?_, ?_⟩
  · simp [doneJobs]
  · rw [hlist]
    exact jlRemove_perm hjob hpids

theorem doneWhenRemoved_reportReaped {pid : Int} (h : Inv s) :
    DoneWhenRemoved s (reportReaped s pid) := by
  have hpids := h.pids
  unfold reportReaped
  split
  · exact .inl ⟨rfl, List.prefix_rfl⟩
  rename_i list hlist
  rw [hlist] at hpids
  split
  · exact .inl ⟨rfl, List.prefix_rfl⟩
  · rename_i job hget
    exact doneWhenRemoved_reportAndRemove hlist (getJobByPid_some hget).1 hpids

theorem doneWhenRemoved_removeDone {i : Nat} (h : Inv s) : DoneWhenRemoved s (removeDone s i) := by
  have hpids := h.pids
  unfold removeDone
  split
  · exact .inl ⟨rfl, List.prefix_rfl⟩
  rename_i list hlist
  rw [hlist] at hpids
  split
  · exact .inl ⟨rfl, List.prefix_rfl⟩
  · rename_i job hget
    exact doneWhenRemoved_reportAndRemove hlist (List.mem_of_getElem? hget) hpids

theorem doneWhenRemoved_pollJob {i : Nat} : DoneWhenRemoved s (pollJob s i) := by
  have hnot : (str "Running" == doneStatus) = false := by decide
  unfold pollJob
  split
  · exact .inl ⟨rfl, List.prefix_rfl⟩
  rename_i list hlist
  split
  · exact .inl ⟨rfl, List.prefix_rfl⟩
  rename_i job hget
  split
  · exact .inl ⟨rfl, List.prefix_rfl⟩
  · obtain ⟨symbol, hprint⟩ := printJobWithStatus_of_mem (List.mem_of_getElem? hget) (str "Running")
    rw [hprint]
    exact .inl ⟨by simp [doneJobs, hnot], List.prefix_rfl⟩

theorem doneWhenRemoved_step (h : Inv s) (hs : Step s s') : DoneWhenRemoved s s' := by
  cases hs with
  | @register pid cmdline hpc =>
    refine .inl ⟨rfl, ?_⟩
    simp only [registerForked, jobs_some, nodes_registerJob]
    exact List.prefix_append _ _
  | report hpc => exact doneWhenRemoved_reportReaped h
  | poll hpc => exact doneWhenRemoved_pollJob
  | remove hpc => exact doneWhenRemoved_removeDone h
  | exit _ | fork _ _ _ | check _ | test _ | clear _ | waitAny _ _ | waitNone _ _ | printJobs _ =>
    exact .inl ⟨rfl, List.prefix_rfl⟩

/-- **No lost child.** In every state that any interleaving reaches: outside the
reaping of `check_background_jobs`, a job whose child waits to be reaped has set
the flag; every job has a child, or its child has been reaped by the step in
progress; the jobs reported as done and those in the list are the ones that were
registered, so that no job is reported twice; and a step reports a job as done
exactly when it removes it. No null pointer is followed. -/
theorem reaping_of_reachable (h : Reachable s) :
    (¬ s.pc.InCheck → (∃ job ∈ jobs s.jobList, job.pid ∈ s.exited) → s.childExitedFlag = true) ∧
    (∀ job ∈ jobs s.jobList, job.pid ∈ s.live ∨ job.pid ∈ s.exited ∨ reapedPid s = some job.pid) ∧
    (doneJobs s ++ jobs s.jobList).Perm s.registered ∧
    ((s.registered.map Job.pid).Nodup → ((doneJobs s ++ jobs s.jobList).map Job.pid).Nodup) ∧
    (∀ s', Step s s' → DoneWhenRemoved s s') ∧ s.pc ≠ .crashed := by
  have hinv := h.inv
  refine ⟨fun hout hjob => ?_, fun job hjob => ?_, hinv.reported, fun hregistered => ?_,
    fun s' hs => doneWhenRemoved_step hinv hs, fun hpc => ?_⟩
  · obtain ⟨job, -, hexited⟩ := hjob
    exact hinv.flag hout (List.ne_nil_of_mem hexited)
  · have hmem := hinv.children.symm.subset (List.mem_append_left _ (List.mem_map_of_mem hjob))
    rcases List.mem_append.mp hmem with hmem | hmem
    · exact (List.mem_append.mp hmem).imp_right .inl
    · exact .inr (.inr (Option.mem_toList.mp hmem))
  · exact (hinv.reported.map Job.pid).nodup_iff.mpr hregistered
  · have := hinv.position
    rwa [Position, hpc] at this

/-- The second of two children exits between the clearing of the flag and the
`waitpid`, which returns it: the flag is set again and the first one waits. -/
theorem reaping_of_reachable_late :
    ∃ s : System, s.pc = .reaped 8 ∧ s.childExitedFlag = true ∧ s.exited = [7] ∧
      (jobs s.jobList).map Job.pid = [7, 8] ∧
      ∀ job ∈ jobs s.jobList,
        job.pid ∈ s.live ∨ job.pid ∈ s.exited ∨ reapedPid s = some job.pid := by
  have hregistered : Reachable _ :=
    .next (.next (.next (.next .start
      (a := ()) (@Step.fork _ 7 [] rfl (by decide) (by decide)))
      (a := ()) (.register rfl))
      (a := ()) (@Step.fork _ 8 [] rfl (by decide) (by decide)))
      (a := ()) (.register rfl)
  have hcleared : Reachable _ :=
    .next (.next (.next (.next hregistered (a := ()) (@Step.exit _ 7 (by decide)))
      (a := ()) (.check rfl)) (a := ()) (.test rfl)) (a := ()) (.clear rfl)
  have hreach : Reachable _ :=
    .next (.next hcleared (a := ()) (@Step.exit _ 8 (by decide)))
      (a := ()) (@Step.waitAny _ 8 rfl (by decide))
  exact ⟨_, rfl, rfl, by decide, by decide, (reaping_of_reachable hreach).2.1⟩

end Shell.Reaping
