import Shell.PrintJobs

/-! # The size of the job list (jobs.c)

`jl_append` counts the nodes in `size`, and starts from 1 again when the list is
empty; `jl_remove` unlinks a node and leaves the field. Over a run of calls the
field is therefore right until a job is unlinked. -/
namespace Shell.JobListSize
open Shell.CTypes Shell.Jobs Shell.PrintJobs Shell.Lib

/-- A call, with what the `waitpid` calls in it return: of `print_jobs` the answers for
its jobs, and the pids of the exited children that `report_and_reap_jobs` gets. -/
inductive SizeCall
  | register (pid : Int) (cmdline : Str)
  | remove (pid : Int)
  | printJobs (waited : Waited) (reaped : List Int)
  | reportAndReap (reaped : List Int)

/-- A round of `report_and_reap_jobs`; `get_job_by_pid` follows its list. -/
def reapJob (jobList : Option JobList) (pid : Int) : Option (Option JobList) :=
  match jobList with
  | none => none
  | some list => match getJobByPid list pid with
    | none => some (some list)
    | some job =>
      (printJobWithStatus list job (str "Done")).map fun _ => some (jlRemove list pid)

def reportAndReapJobs (reaped : List Int) (jobList : Option JobList) : Option (Option JobList) :=
  reaped.foldlM reapJob jobList

/-- The calls that return. `print_jobs` ends in `check_background_jobs`, which does not
reap where the flag is not set. -/
inductive Step : Option JobList → SizeCall → Option JobList → Prop
  | register {s : Option JobList} {pid : Int} {cmdline : Str} :
    Step s (.register pid cmdline) (some (registerJob s pid cmdline).list)
  | remove {list : JobList} {pid : Int} : Step (some list) (.remove pid) (some (jlRemove list pid))
  | printJobs {s s' : Option JobList} {waited : Waited} {reaped : List Int} {fuel : Nat} {w : Walk} :
    printJobsLoop waited fuel s = some (some w) →
    reportAndReapJobs reaped (some w.jobList) = some s' → Step s (.printJobs waited reaped) s'
  | reportAndReap {s s' : Option JobList} {reaped : List Int} :
    reportAndReapJobs reaped s = some s' → Step s (.reportAndReap reaped) s'

/-- The field is the number of nodes, and `register_job` returns that number. -/
structure Counts (jobList : Option JobList) : Prop where
  size : (jobListCheck jobList).size = (jobs jobList).length
  ret : ∀ pid cmdline, (registerJob jobList pid cmdline).ret = (jobs jobList).length

/-- No job of the list has a pid that is waited for, the first one being the `k`th. -/
def NoneWaited (waited : Waited) : Nat → List Job → Prop
  | _, [] => True
  | k, job :: rest => waited k job.pid = false ∧ NoneWaited waited (k + 1) rest

def NoneReaped (reaped : List Int) (nodes : List Job) : Prop :=
  ∀ pid ∈ reaped, ∀ job ∈ nodes, job.pid ≠ pid

/-- The call unlinks no job. -/
def Keeps (jobList : Option JobList) : SizeCall → Prop
  | .register _ _ => True
  | .remove pid => NoneReaped [pid] (jobs jobList)
  | .printJobs waited reaped =>
    NoneWaited waited 0 (jobs jobList) ∧ NoneReaped reaped (jobs jobList)
  | .reportAndReap reaped => NoneReaped reaped (jobs jobList)

/-! ## Lists that only shrink -/

/-- Some nodes have been unlinked, and the field has been left as it was. -/
structure Shrinks (list list' : JobList) : Prop where
  size : list'.size = list.size
  nodes : list'.nodes.Sublist list.nodes

variable {list list' list'' : JobList} {s s' : Option JobList}

theorem Shrinks.refl (list : JobList) : Shrinks list list := ⟨rfl, .refl _⟩

theorem Shrinks.trans (h : Shrinks list list') (h' : Shrinks list' list'') :
    Shrinks list list'' := ⟨h'.size.trans h.size, h'.nodes.trans h.nodes⟩

theorem counts_iff : Counts s ↔ (jobListCheck s).size = (jobs s).length :=
  ⟨Counts.size, fun h => ⟨h, fun _ _ => h⟩⟩

/-- The field stays right exactly when nothing is unlinked. -/
theorem Shrinks.counts_iff (h : Shrinks list list') (hcounts : Counts (some list)) :
    Counts (some list') ↔ list'.nodes = list.nodes := by
  have hsize : list.size = list.nodes.length := hcounts.size
  rw [JobListSize.counts_iff]
  change list'.size = list'.nodes.length ↔ _
  rw [h.size, hsize]
  exact ⟨fun hlen => h.nodes.eq_of_length hlen.symm, fun heq => by rw [heq]⟩

theorem Shrinks.antisymm (h : Shrinks list list') (h' : Shrinks list' list'')
    (heq : list''.nodes = list.nodes) : list'.nodes = list.nodes :=
  h.nodes.antisymm (heq ▸ h'.nodes)

theorem shrinks_jlRemove (list : JobList) (pid : Int) : Shrinks list (jlRemove list pid) :=
  ⟨rfl, List.eraseP_sublist⟩

theorem jlRemove_keeps_iff {pid : Int} :
    (jlRemove list pid).nodes = list.nodes ↔ ∀ job ∈ list.nodes, job.pid ≠ pid := by
  rw [nodes_jlRemove, List.eraseP_eq_self_iff]
  simp

/-! ## Reaping -/

/-- With a job of the pid in the list or without one, a round leaves the list without it. -/
theorem reapJob_some {pid : Int} (h : reapJob (some list) pid = some s') :
    s' = some (jlRemove list pid) := by
  simp only [reapJob] at h
  cases hget : getJobByPid list pid with
  | none =>
    rw [hget] at h
    have hsame := jlRemove_keeps_iff.mpr (getJobByPid_none hget)
    rw [← Option.some.inj h, jlRemove, ← nodes_jlRemove, hsame]
  | some job =>
    rw [hget] at h
    obtain ⟨report, -, rfl⟩ := Option.map_eq_some_iff.mp h
    rfl

theorem reportAndReapJobs_shrinks {reaped : List Int}
    (h : reportAndReapJobs reaped (some list) = some s') : ∃ list', s' = some list' ∧
      Shrinks list list' ∧ (list'.nodes = list.nodes ↔ NoneReaped reaped list.nodes) := by
  induction reaped generalizing list with
  | nil =>
    obtain rfl := Option.some.inj h
    exact ⟨list, rfl, .refl list, fun _ pid hpid => absurd hpid List.not_mem_nil, fun _ => rfl⟩
  | cons pid reaped ih =>
    rw [reportAndReapJobs, List.foldlM_cons] at h
    obtain ⟨mid, hround, hrest⟩ := Option.bind_eq_some_iff.mp h
    obtain rfl := reapJob_some hround
    have hfirst := shrinks_jlRemove list pid
    obtain ⟨list', rfl, hshrinks, hiff⟩ := ih hrest
    refine ⟨list', rfl, hfirst.trans hshrinks, fun heq => ?_, fun hnone => ?_⟩
    · have hkept := hfirst.antisymm hshrinks heq
      rw [hkept] at hiff
      exact List.forall_mem_cons.mpr ⟨jlRemove_keeps_iff.mp hkept, hiff.mp heq⟩
    · obtain ⟨hpid, hreaped⟩ := List.forall_mem_cons.mp hnone
      have hkept := jlRemove_keeps_iff.mpr hpid
      rw [hkept] at hiff
      exact hiff.mpr hreaped

/-! ## The walk of print_jobs -/

variable {waited : Waited} {w w' : Walk} {iter : Nat}

/-- What a round can do, wherever its pointer stands. -/
structure Round (waited : Waited) (w : Walk) (iter : Nat) (node : Node) (w' : Walk) : Prop where
  at_iter : w.nodes.find? (·.place == iter) = some node
  size : w'.size = w.size
  polled : w'.reports.length = w.reports.length + 1
  done : waited w.reports.length node.job.pid = true → w'.nodes = unlink w.nodes node.job.pid
  running : waited w.reports.length node.job.pid = false →
    w'.nodes = w.nodes ∧ w'.prev = some iter ∧ nextOf w.nodes iter = some w'.iter

theorem checkAndPrintJob_some {job : Job} {answer : Bool × Report}
    (h : checkAndPrintJob waited w job = some answer) :
    answer.1 = waited w.reports.length job.pid := by
  unfold checkAndPrintJob at h
  split at h
  · rename_i hwaited
    obtain ⟨report, -, rfl⟩ := Option.map_eq_some_iff.mp h
    exact hwaited.symm
  · rename_i hwaited
    obtain ⟨report, -, rfl⟩ := Option.map_eq_some_iff.mp h
    exact (Bool.eq_false_iff.mpr hwaited).symm

theorem printJobsRound_some (h : printJobsRound waited w iter = some w') :
    ∃ node, Round waited w iter node w' := by
  obtain ⟨node, hnode, hmatch⟩ := Option.bind_eq_some_iff.mp h
  obtain ⟨⟨res, report⟩, hcheck, hrest⟩ := Option.bind_eq_some_iff.mp hmatch
  obtain rfl : res = waited w.reports.length node.job.pid := checkAndPrintJob_some hcheck
  refine ⟨node, ?_⟩
  cases hwaited : waited w.reports.length node.job.pid with
  | true =>
    simp only [hwaited, if_true] at hrest
    obtain ⟨next, -, hnext⟩ := Option.bind_eq_some_iff.mp hrest
    obtain rfl := Option.some.inj hnext
    exact ⟨hnode, rfl, by simp, fun _ => rfl, fun hnot => absurd (hwaited.symm.trans hnot) (by simp)⟩
  | false =>
    simp only [hwaited, Bool.false_eq_true, if_false] at hrest
    obtain ⟨next, hiter, hnext⟩ := Option.bind_eq_some_iff.mp hrest
    obtain rfl := Option.some.inj hnext
    exact ⟨hnode, rfl, by simp, fun hyes => absurd (hwaited.symm.trans hyes) (by simp),
      fun _ => ⟨rfl, rfl, hiter⟩⟩

theorem Round.sublist {node : Node} (h : Round waited w iter node w') :
    w'.nodes.Sublist w.nodes := by
  cases hwaited : waited w.reports.length node.job.pid with
  | true =>
    rw [h.done hwaited]
    exact List.eraseP_sublist
  | false => rw [(h.running hwaited).1]

/-- A job that is waited for is unlinked. -/
theorem Round.length_lt {node : Node} (h : Round waited w iter node w')
    (hwaited : waited w.reports.length node.job.pid = true) : w'.nodes.length < w.nodes.length := by
  rw [h.done hwaited, unlink]
  have hmem := List.mem_of_find?_eq_some h.at_iter
  have hlen := List.length_eraseP_of_mem (p := fun x => x.job.pid == node.job.pid) hmem (by simp)
  have hpos := List.length_pos_of_mem hmem
  omega

theorem printJobsBody_inl (h : printJobsBody waited w = .inl w') :
    ∃ iter node, w.iter = some iter ∧ Round waited w iter node w' := by
  unfold printJobsBody at h
  split at h
  · cases h
  · rename_i iter hiter
    split at h
    · cases h
    · rename_i w'' hround
      obtain rfl := Sum.inl.inj h
      obtain ⟨node, hnode⟩ := printJobsRound_some hround
      exact ⟨iter, node, hiter, hnode⟩

theorem printJobsBody_inr (h : printJobsBody waited w = .inr (some w')) : w' = w ∧ w.iter = none := by
  unfold printJobsBody at h
  split at h
  · rename_i hiter
    exact ⟨(Option.some.inj (Sum.inr.inj h)).symm, hiter⟩
  · split at h
    · cases h
    · cases h

theorem loop_sublist {fuel : Nat} (h : Loop.loop (printJobsBody waited) fuel w = some (some w')) :
    w'.size = w.size ∧ w'.nodes.Sublist w.nodes := by
  obtain ⟨t, hinv, ht⟩ := Loop.loop_invariant
    (fun t : Walk => t.size = w.size ∧ t.nodes.Sublist w.nodes)
    (fun t t' hinv hbody => by
      obtain ⟨iter, node, -, hround⟩ := printJobsBody_inl hbody
      exact ⟨hround.size.trans hinv.1, hround.sublist.trans hinv.2⟩)
    ⟨rfl, .refl _⟩ h
  obtain ⟨rfl, -⟩ := printJobsBody_inr ht
  exact hinv

theorem Round.node_eq {node found : Node} {kept rest : List Node}
    (h : Round waited w node.place found w') (hbetween : Between w kept (node :: rest)) :
    found = node := by
  have hfind := h.at_iter
  rw [hbetween.nodes, find_place (forall_ne_of_nodup hbetween.places).1] at hfind
  exact (Option.some.inj hfind).symm

/-- A round at a job that is not waited for goes on to the next node. -/
theorem Round.between {node : Node} {kept rest : List Node}
    (h : Round waited w node.place node w') (hbetween : Between w kept (node :: rest))
    (hrunning : waited w.reports.length node.job.pid = false) :
    Between w' (kept ++ [node]) rest := by
  obtain ⟨hnodes, hprev, hiter⟩ := h.running hrunning
  have hsame : kept ++ [node] ++ rest = kept ++ node :: rest := by simp
  rw [hbetween.nodes, nextOf_append (forall_ne_of_nodup hbetween.places).1] at hiter
  exact ⟨by rw [hnodes, hbetween.nodes, hsame], by rw [hprev]; simp, (Option.some.inj hiter).symm,
    hsame ▸ hbetween.places⟩

/-- From a place in the list on, nothing is unlinked exactly when no job is waited for. -/
theorem loop_keeps_iff {fuel : Nat} {kept rest : List Node} (hbetween : Between w kept rest)
    (h : Loop.loop (printJobsBody waited) fuel w = some (some w')) :
    w'.nodes = w.nodes ↔ NoneWaited waited w.reports.length (rest.map Node.job) := by
  induction rest generalizing fuel w kept with
  | nil =>
    cases fuel with
    | zero => cases h
    | succ fuel =>
      have hend : printJobsBody waited w = .inr (some w) := by
        simp only [printJobsBody, hbetween.iter, List.head?_nil, Option.map_none]
      simp only [Loop.loop, hend] at h
      obtain rfl := Option.some.inj (Option.some.inj h)
      exact ⟨fun _ => trivial, fun _ => rfl⟩
  | cons node rest ih =>
    cases fuel with
    | zero => cases h
    | succ fuel =>
      cases hbody : printJobsBody waited w with
      | inr r =>
        simp only [Loop.loop, hbody] at h
        rw [Option.some.inj h] at hbody
        have hnone := (printJobsBody_inr hbody).2
        rw [hbetween.iter] at hnone
        cases hnone
      | inl mid =>
        simp only [Loop.loop, hbody] at h
        obtain ⟨iter, found, hiter, hround⟩ := printJobsBody_inl hbody
        rw [hbetween.iter] at hiter
        obtain rfl := Option.some.inj hiter
        have hfound := hround.node_eq hbetween
        rw [hfound] at hround
        cases hwaited : waited w.reports.length node.job.pid with
        | true =>
          have hlt := hround.length_lt hwaited
          have hle := (loop_sublist h).2.length_le
          refine ⟨fun heq => ?_, fun hnone => ?_⟩
          · rw [heq] at hle
            omega
          · exact absurd (hwaited.symm.trans hnone.1) (by simp)
        | false =>
          have hiff := ih (hround.between hbetween hwaited) h
          rw [(hround.running hwaited).1, hround.polled] at hiff
          rw [hiff]
          exact ⟨fun hnone => ⟨hwaited, hnone⟩, fun hnone => hnone.2⟩

theorem printJobsLoop_shrinks {fuel : Nat} (h : printJobsLoop waited fuel s = some (some w)) :
    Shrinks (jobListCheck s) w.jobList ∧
      (w.jobList.nodes = jobs s ↔ NoneWaited waited 0 (jobs s)) := by
  obtain ⟨hsize, hnodes⟩ := loop_sublist h
  have hkeeps := loop_keeps_iff (between_startWalk s) h
  rw [startWalk_jobs] at hkeeps
  have hshrinks : Shrinks (jobListCheck s) w.jobList := by
    refine ⟨hsize, ?_⟩
    have hmap := hnodes.map Node.job
    rwa [startWalk_jobs] at hmap
  refine ⟨hshrinks, ?_, ?_⟩
  · intro heq
    refine hkeeps.mp (hnodes.eq_of_length ?_)
    have hlen := congrArg List.length (heq.trans (startWalk_jobs s).symm)
    simpa [Walk.jobList] using hlen
  · intro hnone
    rw [Walk.jobList, hkeeps.mpr hnone]
    exact startWalk_jobs s

/-! ## Over a run -/

theorem counts_registerJob {pid : Int} {cmdline : Str} (h : Counts s) :
    Counts (some (registerJob s pid cmdline).list) := by
  have hsize := h.size
  rw [counts_iff]
  change (jlAppend (jobListCheck s) _).size = (jlAppend (jobListCheck s) _).nodes.length
  rw [nodes_jlAppend, List.length_append, jlAppend]
  split
  · rename_i hnil
    rw [hnil]
    rfl
  · exact congrArg (· + 1) hsize

theorem counts_step_iff {call : SizeCall} (h : Counts s) (hs : Step s call s') :
    Counts s' ↔ Keeps s call := by
  cases hs with
  | register => exact ⟨fun _ => trivial, fun _ => counts_registerJob h⟩
  | @remove list pid =>
    rw [(shrinks_jlRemove list pid).counts_iff h, jlRemove_keeps_iff]
    exact (List.forall_mem_singleton (p := fun pid => ∀ job ∈ list.nodes, job.pid ≠ pid)).symm
  | @printJobs _ _ waited reaped fuel w hloop hreap =>
    obtain ⟨hwalk, hwaited⟩ := printJobsLoop_shrinks hloop
    obtain ⟨list', rfl, hreaped, hiff⟩ := reportAndReapJobs_shrinks hreap
    have hcheck : Counts (some (jobListCheck s)) := ⟨h.size, h.ret⟩
    rw [(hwalk.trans hreaped).counts_iff hcheck]
    constructor
    · intro heq
      have hkept := hwalk.antisymm hreaped heq
      rw [hkept] at hiff
      exact ⟨hwaited.mp hkept, hiff.mp heq⟩
    · intro hkeeps
      have hkept := hwaited.mpr hkeeps.1
      rw [hkept] at hiff
      exact hiff.mpr hkeeps.2
  | @reportAndReap _ _ reaped hreap =>
    cases s with
    | none =>
      cases reaped with
      | nil =>
        obtain rfl := Option.some.inj hreap
        exact ⟨fun _ pid hpid => absurd hpid List.not_mem_nil, fun _ => h⟩
      | cons pid reaped => cases hreap
    | some list =>
      obtain ⟨list', rfl, hreaped, hiff⟩ := reportAndReapJobs_shrinks hreap
      rw [hreaped.counts_iff h]
      exact hiff

theorem counts_none : Counts none := ⟨rfl, fun _ _ => rfl⟩

/-- **When the size of the job list is right.** From no list on, the field counts the nodes
and `register_job` returns their number all along a run exactly when no call of the run
unlinks a job. -/
theorem counts_run_iff {calls : List (Option JobList × SizeCall)} {jobList : Option JobList}
    (h : Runs.Path Step none calls jobList) :
    ((∀ p ∈ calls, Counts p.1) ∧ Counts jobList) ↔ ∀ p ∈ calls, Keeps p.1 p.2 :=
  Runs.Path.invariant_iff (I := Counts) (G := Keeps) (fun _ _ _ => counts_step_iff) h counts_none

/-- Two jobs are registered. -/
theorem counts_run_iff_registered : ∃ jobList : Option JobList,
    (jobs jobList).map Job.pid = [7, 8] ∧ Counts jobList := by
  have hrun : Runs.Path Step none _ _ :=
    .next (@Step.register none 7 []) (.next (@Step.register _ 8 []) .done)
  refine ⟨_, ?_, ((counts_run_iff hrun).mpr ?_).2⟩
  · decide
  · exact List.forall_mem_cons.mpr ⟨trivial, List.forall_mem_singleton.mpr trivial⟩

/-- One of two jobs is unlinked: the field stays 2, and the next `register_job` returns 2
with one job in the list. -/
theorem counts_run_iff_unlinked : ∃ calls list, Runs.Path Step none calls (some list) ∧
    list.size = 2 ∧ list.nodes.length = 1 ∧ (registerJob (some list) 9 []).ret = 2 ∧
      ¬ Counts (some list) := by
  have hrun : Runs.Path Step none _ _ := .next (@Step.register none 7 [])
    (.next (@Step.register _ 8 []) (.next (@Step.remove _ 7) .done))
  exact ⟨_, _, hrun, rfl, by decide, rfl, fun h => absurd h.size (by decide)⟩

end Shell.JobListSize
