import Mathlib.Data.List.Nodup
import Shell.CTypes
import Shell.Lib.Loop
import Shell.Lib.Runs

/-! # The job list (jobs.c)

The list of background jobs and the numbers it gives them. `job_list` is null
until something needs it, so it is an `Option` here; a function that follows the
null pointer is `none`. -/
namespace Shell.Jobs
open Shell.CTypes Shell.Lib

structure Job where
  pid : Int
  jobNumber : Int
  cmdline : Str
  deriving DecidableEq, Repr

structure JobList where
  size : Nat
  nodes : List Job
  deriving DecidableEq, Repr

def jlNew : JobList := { size := 0, nodes := [] }

def jlAppend (list : JobList) (job : Job) : JobList :=
  if list.nodes = [] then { size := 1, nodes := [job] }
  else { size := list.size + 1, nodes := list.nodes ++ [job] }

/-- The first job with the pid is unlinked; `size` stays as it is. -/
def jlRemove (list : JobList) (pid : Int) : JobList :=
  { list with nodes := list.nodes.eraseP fun job => job.pid == pid }

def getJobByPid (list : JobList) (pid : Int) : Option Job :=
  list.nodes.find? fun job => job.pid == pid

/-- `if (job_list == nullptr) job_list = jl_new();` -/
def jobListCheck (jobList : Option JobList) : JobList := jobList.getD jlNew

@[simp] theorem nodes_jlAppend (list : JobList) (job : Job) :
    (jlAppend list job).nodes = list.nodes ++ [job] := by
  unfold jlAppend
  split
  · rename_i h
    rw [h]
    rfl
  · rfl

@[simp] theorem nodes_jlRemove (list : JobList) (pid : Int) :
    (jlRemove list pid).nodes = list.nodes.eraseP fun job => job.pid == pid := rfl

/-- The jobs of a list that need not be there yet. -/
def jobs (jobList : Option JobList) : List Job := (jobListCheck jobList).nodes

@[simp] theorem jobs_some (list : JobList) : jobs (some list) = list.nodes := rfl

theorem getJobByPid_some {list : JobList} {pid : Int} {job : Job}
    (h : getJobByPid list pid = some job) : job ∈ list.nodes ∧ job.pid = pid :=
  ⟨List.mem_of_find?_eq_some h, by simpa using List.find?_some h⟩

theorem getJobByPid_none {list : JobList} {pid : Int} (h : getJobByPid list pid = none) :
    ∀ job ∈ list.nodes, job.pid ≠ pid := by
  simpa [getJobByPid] using h

/-- Where the pids are distinct, `jl_remove` unlinks the job that has the pid. -/
theorem jlRemove_perm {list : JobList} {job : Job} (hmem : job ∈ list.nodes)
    (hpids : (list.nodes.map Job.pid).Nodup) :
    list.nodes.Perm (job :: (jlRemove list job.pid).nodes) := by
  obtain ⟨x, before, after, -, hx, hsplit, herase⟩ :=
    List.exists_of_eraseP (p := fun x => x.pid == job.pid) hmem (beq_self_eq_true _)
  have heq : x = job := by
    refine List.inj_on_of_nodup_map hpids ?_ hmem (by simpa using hx)
    rw [hsplit]
    simp
  rw [nodes_jlRemove, herase, hsplit, heq]
  exact List.perm_middle

/-! ## Job numbers -/

/-- A round of the `do` loop of `get_next_job_number`: a job that has the
candidate sends the search back to the head of the list. -/
def numberBody (nodes : List Job) (candidate : Int) : Int ⊕ Int :=
  if nodes.any fun job => job.jobNumber == candidate then .inl (candidate + 1) else .inr candidate

/-- The jobs whose numbers have not been passed yet. -/
def notPassed (nodes : List Job) (candidate : Int) : Nat :=
  nodes.countP fun job => decide (candidate ≤ job.jobNumber)

theorem numberBody_inl {nodes : List Job} {candidate next : Int}
    (h : numberBody nodes candidate = .inl next) :
    next = candidate + 1 ∧ ∃ job ∈ nodes, job.jobNumber = candidate := by
  unfold numberBody at h
  split at h
  · rename_i hany
    cases h
    refine ⟨rfl, ?_⟩
    simpa using hany
  · cases h

theorem numberBody_decreasing (nodes : List Job) :
    Loop.Decreasing (numberBody nodes) (notPassed nodes) := by
  intro candidate next h
  obtain ⟨rfl, job, hmem, hjob⟩ := numberBody_inl h
  obtain ⟨before, after, rfl⟩ := List.append_of_mem hmem
  have hle : ∀ l : List Job, notPassed l (candidate + 1) ≤ notPassed l candidate := by
    intro l
    refine List.countP_mono_left fun x _ hx => ?_
    simp only [decide_eq_true_eq] at hx ⊢
    omega
  have hbefore := hle before
  have hafter := hle after
  have hpassed : ¬ candidate + 1 ≤ job.jobNumber := by omega
  have hreached : candidate ≤ job.jobNumber := by omega
  simp only [notPassed, List.countP_append, List.countP_cons, decide_eq_true_eq, hpassed, hreached,
    if_true, if_false] at hbefore hafter ⊢
  omega

def getNextJobNumber (jobList : Option JobList) : Int × JobList :=
  let list := jobListCheck jobList
  (Loop.exec (numberBody list.nodes) _ (numberBody_decreasing list.nodes) 1, list)

/-- What `register_job` returns, the list behind it, and the job it prints. -/
structure Registered where
  ret : Nat
  list : JobList
  printed : Job

def registerJob (jobList : Option JobList) (pid : Int) (cmdline : Str) : Registered :=
  let list := jobListCheck jobList
  let ret := list.size
  let (jobNum, list) := getNextJobNumber (some list)
  let newJob := { pid := pid, jobNumber := jobNum, cmdline := cmdline }
  { ret := ret, list := jlAppend list newJob, printed := newJob }

@[simp] theorem nodes_registerJob (jobList : Option JobList) (pid : Int) (cmdline : Str) :
    (registerJob jobList pid cmdline).list.nodes =
      jobs jobList ++ [(registerJob jobList pid cmdline).printed] := by
  simp only [registerJob, getNextJobNumber, nodes_jlAppend]
  rfl

/-- `n` is the least positive number that no job in the list has. -/
structure IsNextNumber (nodes : List Job) (n : Int) : Prop where
  pos : 0 < n
  free : ∀ job ∈ nodes, job.jobNumber ≠ n
  least : ∀ m, 0 < m → m < n → ∃ job ∈ nodes, job.jobNumber = m

theorem getNextJobNumber_spec (jobList : Option JobList) :
    IsNextNumber (jobs jobList) (getNextJobNumber jobList).1 := by
  obtain ⟨n, ⟨hpos, hleast⟩, hexit⟩ := Loop.exec_invariant
    (fun n : Int => 0 < n ∧ ∀ m, 0 < m → m < n → ∃ job ∈ jobs jobList, job.jobNumber = m)
    (numberBody_decreasing (jobs jobList)) (s := 1)
    (fun n next hn h => by
      obtain ⟨rfl, hjob⟩ := numberBody_inl h
      refine ⟨by omega, fun m hm hlt => ?_⟩
      rcases Int.lt_or_eq_of_le (Int.le_of_lt_add_one hlt) with hlt | rfl
      · exact hn.2 m hm hlt
      · exact hjob)
    ⟨by decide, fun m hm hlt => by omega⟩
  change numberBody (jobs jobList) n = .inr (getNextJobNumber jobList).1 at hexit
  unfold numberBody at hexit
  split at hexit
  · cases hexit
  · rename_i hnone
    rw [← Sum.inr.inj hexit]
    refine ⟨hpos, fun job hjob heq => hnone ?_, hleast⟩
    exact List.any_eq_true.mpr ⟨job, hjob, by rw [heq, beq_self_eq_true]⟩

/-! ## Reports -/

/-- The loop of `print_job_with_status` over the list behind `prev`: the last job
is `+` and the one in front of it `-`. -/
def statusSymbol (job : Job) : Option Job → List Job → Option Str
  | _, [] => some (str " ")
  | prev, [iter] =>
    if job.pid = iter.pid then some (str "+")
    else do
      let prev ← prev
      return if job.pid = prev.pid then str "-" else str " "
  | _, iter :: next :: rest => statusSymbol job (some iter) (next :: rest)

/-- A line of `print_job_with_status`. -/
structure Report where
  job : Job
  symbol : Str
  status : Str
  deriving DecidableEq, Repr

def printJobWithStatus (list : JobList) (job : Job) (status : Str) : Option Report :=
  (statusSymbol job none list.nodes).map fun symbol => { job, symbol, status }

theorem statusSymbol_isSome (prev : Option Job) {job : Job} {nodes : List Job}
    (h : prev.isSome ∨ ∃ x ∈ nodes, x.pid = job.pid) :
    ∃ symbol, statusSymbol job prev nodes = some symbol := by
  induction nodes generalizing prev with
  | nil => exact ⟨_, rfl⟩
  | cons iter nodes ih =>
    cases nodes with
    | cons next rest => exact ih _ (.inl rfl)
    | nil =>
      simp only [statusSymbol]
      split
      · exact ⟨_, rfl⟩
      · rename_i hne
        rcases h with hprev | ⟨x, hx, hpid⟩
        · obtain ⟨p, rfl⟩ := Option.isSome_iff_exists.mp hprev
          exact ⟨_, rfl⟩
        · rw [List.mem_singleton.mp hx] at hpid
          exact absurd hpid.symm hne

/-- A job of the list is always reported. -/
theorem printJobWithStatus_of_mem {list : JobList} {job : Job} (h : job ∈ list.nodes)
    (status : Str) : ∃ symbol, printJobWithStatus list job status = some ⟨job, symbol, status⟩ := by
  obtain ⟨symbol, hsymbol⟩ := statusSymbol_isSome none (.inr ⟨job, h, rfl⟩)
  exact ⟨symbol, by rw [printJobWithStatus, hsymbol]; rfl⟩

/-! ## Numbers over a run -/

/-- The numbers of a job list: positive, and no two of them the same. -/
structure Numbered (nodes : List Job) : Prop where
  pos : ∀ job ∈ nodes, 0 < job.jobNumber
  distinct : (nodes.map Job.jobNumber).Nodup

theorem Numbered.append {nodes : List Job} {job : Job} (h : Numbered nodes)
    (hjob : IsNextNumber nodes job.jobNumber) : Numbered (nodes ++ [job]) where
  pos := by
    intro x hx
    rcases List.mem_append.mp hx with hx | hx
    · exact h.pos x hx
    · rw [List.mem_singleton.mp hx]
      exact hjob.pos
  distinct := by
    rw [List.map_append, List.nodup_append]
    refine ⟨h.distinct, by simp, fun m hm n hn heq => ?_⟩
    obtain ⟨x, hx, rfl⟩ := List.mem_map.mp hm
    rw [List.mem_singleton.mp hn] at heq
    exact hjob.free x hx heq

theorem Numbered.sublist {nodes kept : List Job} (h : Numbered nodes) (hk : kept.Sublist nodes) :
    Numbered kept where
  pos := fun job hjob => h.pos job (hk.subset hjob)
  distinct := h.distinct.sublist (hk.map _)

inductive JobCall
  | register (pid : Int) (cmdline : Str)
  | remove (pid : Int)

/-- The job list after a call; `jl_remove` follows its argument. -/
def runCall (jobList : Option JobList) : JobCall → Option JobList
  | .register pid cmdline => some (registerJob jobList pid cmdline).list
  | .remove pid => jobList.map fun list => jlRemove list pid

def JobStep (jobList : Option JobList) (call : JobCall) (jobList' : Option JobList) : Prop :=
  ∃ list, runCall jobList call = some list ∧ jobList' = some list

theorem numbered_step {jobList jobList' : Option JobList} {call : JobCall}
    (h : Numbered (jobs jobList)) (hs : JobStep jobList call jobList') :
    Numbered (jobs jobList') := by
  obtain ⟨list, hcall, rfl⟩ := hs
  cases call with
  | register pid cmdline =>
    obtain rfl := Option.some.inj hcall
    rw [jobs_some, nodes_registerJob]
    exact h.append (getNextJobNumber_spec jobList)
  | remove pid =>
    obtain ⟨list', rfl, rfl⟩ := Option.map_eq_some_iff.mp hcall
    exact h.sublist List.eraseP_sublist

/-- **Job numbers.** After any calls of `register_job` and `jl_remove`, the next
job number is the least positive number that is not in the list, and the numbers
in the list are positive and distinct. -/
theorem getNextJobNumber_of_reach {jobList : Option JobList}
    (h : Runs.Reach none JobStep jobList) :
    IsNextNumber (jobs jobList) (getNextJobNumber jobList).1 ∧ Numbered (jobs jobList) := by
  have hinit : Numbered (jobs none) := ⟨fun job hjob => absurd hjob List.not_mem_nil, List.nodup_nil⟩
  exact ⟨getNextJobNumber_spec jobList,
    Runs.Reach.invariant (I := fun s => Numbered (jobs s)) hinit (fun _ _ _ => numbered_step) h⟩

/-- Three jobs, the middle one removed: the next number is 2. -/
theorem getNextJobNumber_of_reach_gap :
    ∃ list, (getNextJobNumber (some list)).1 = 2 ∧ list.nodes.map Job.jobNumber = [1, 3] ∧
      IsNextNumber list.nodes (getNextJobNumber (some list)).1 ∧ Numbered list.nodes := by
  have hreach : Runs.Reach none JobStep _ :=
    .next (.next (.next (.next .start (a := .register 7 []) ⟨_, rfl, rfl⟩)
      (a := .register 8 []) ⟨_, rfl, rfl⟩) (a := .register 9 []) ⟨_, rfl, rfl⟩)
      (a := .remove 8) ⟨_, rfl, rfl⟩
  exact ⟨_, by decide, by decide, getNextJobNumber_of_reach hreach⟩

end Shell.Jobs
