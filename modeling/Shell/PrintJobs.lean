import Shell.Jobs

/-! # Walking the job list (print_jobs in jobs.c)

`print_jobs` unlinks the finished jobs from the list that it walks over. Its two
pointers are places: a node is named by its place in the list at the call, since
only removals happen during the walk. A pointer to a node that is no longer linked
is never followed silently: such a round is `none`, as one that follows null is. -/
namespace Shell.PrintJobs
open Shell.CTypes Shell.Jobs Shell.Lib

structure Node where
  place : Nat
  job : Job
  deriving DecidableEq, Repr

structure Walk where
  size : Nat
  nodes : List Node
  prev : Option Nat
  iter : Option Nat
  reports : List Report
  deriving DecidableEq, Repr

/-- The job list as it stands during the walk. -/
def Walk.jobList (w : Walk) : JobList := { size := w.size, nodes := w.nodes.map Node.job }

/-- The `next` of the node at a place; `none` where no such node is linked. -/
def nextOf : List Node → Nat → Option (Option Nat)
  | [], _ => none
  | node :: rest, place =>
    if node.place = place then some (rest.head?.map Node.place) else nextOf rest place

/-- `(prev == nullptr) ? job_list->head : prev->next` -/
def behindPrev (nodes : List Node) : Option Nat → Option (Option Nat)
  | none => some (nodes.head?.map Node.place)
  | some prev => nextOf nodes prev

/-- `jl_remove` on the nodes. -/
def unlink (nodes : List Node) (pid : Int) : List Node :=
  nodes.eraseP fun node => node.job.pid == pid

/-- Whether the `k`th `waitpid` of the call, for this pid, returns the pid. -/
abbrev Waited := Nat → Int → Bool

/-- `check_and_print_job`: what it returns, and the line it prints. -/
def checkAndPrintJob (waited : Waited) (w : Walk) (job : Job) : Option (Bool × Report) :=
  if waited w.reports.length job.pid then
    (printJobWithStatus w.jobList job (str "Done")).map (true, ·)
  else (printJobWithStatus w.jobList job (str "Running")).map (false, ·)

/-- The body of the loop for an `iter` that is not null. -/
def printJobsRound (waited : Waited) (w : Walk) (iter : Nat) : Option Walk := do
  let node ← w.nodes.find? (·.place == iter)
  let (res, report) ← checkAndPrintJob waited w node.job
  let w := { w with reports := w.reports ++ [report] }
  if res then
    let nodes := unlink w.nodes node.job.pid
    return { w with nodes := nodes, iter := ← behindPrev nodes w.prev }
  else return { w with prev := some iter, iter := ← nextOf w.nodes iter }

def printJobsBody (waited : Waited) (w : Walk) : Walk ⊕ Option Walk :=
  match w.iter with
  | none => .inr (some w)
  | some iter => match printJobsRound waited w iter with
    | none => .inr none
    | some w => .inl w

def startWalk (jobList : Option JobList) : Walk :=
  let list := jobListCheck jobList
  let nodes := list.nodes.mapIdx Node.mk
  { size := list.size, nodes := nodes, prev := none, iter := nodes.head?.map Node.place,
    reports := [] }

/-- The loop of `print_jobs`; `none` where the fuel runs out. -/
def printJobsLoop (waited : Waited) (fuel : Nat) (jobList : Option JobList) :
    Option (Option Walk) :=
  Loop.loop (printJobsBody waited) fuel (startWalk jobList)

/-! ## What is to be printed -/

/-- The marker of a job with so many jobs behind it. -/
def marker : Nat → Str
  | 0 => str "+"
  | 1 => str "-"
  | _ => str " "

def reportLine (finished : Int → Bool) (behind : Nat) (job : Job) : Report where
  job := job
  symbol := marker behind
  status := if finished job.pid then str "Done" else str "Running"

/-- A line for each job, in the order of the list. -/
def reportLines (finished : Int → Bool) : List Job → List Report
  | [] => []
  | job :: rest => reportLine finished rest.length job :: reportLines finished rest

/-! ## The marker -/

variable {job : Job}

/-- Behind the job and the node at it, no node gives it a marker. -/
theorem statusSymbol_behind {prev : Job} {after : List Job} (hprev : prev.pid ≠ job.pid)
    (hafter : ∀ x ∈ after, x.pid ≠ job.pid) :
    statusSymbol job (some prev) after = some (str " ") := by
  induction after generalizing prev with
  | nil => rfl
  | cons x after ih =>
    obtain ⟨hx, hafter⟩ := List.forall_mem_cons.mp hafter
    cases after with
    | nil =>
      rw [statusSymbol, if_neg (Ne.symm hx), Option.bind_eq_bind, Option.bind_some,
        if_neg (Ne.symm hprev)]
      rfl
    | cons y more => exact ih hx hafter

theorem statusSymbol_eq_marker (prev : Option Job) (before : List Job) {after : List Job}
    (hafter : ∀ x ∈ after, x.pid ≠ job.pid) :
    statusSymbol job prev (before ++ job :: after) = some (marker after.length) := by
  induction before generalizing prev with
  | cons x before ih =>
    cases before with
    | nil => exact ih (some x)
    | cons y before => exact ih (some x)
  | nil =>
    cases after with
    | nil => exact if_pos rfl
    | cons x after =>
      obtain ⟨hx, hafter⟩ := List.forall_mem_cons.mp hafter
      cases after with
      | nil =>
        change (if job.pid = x.pid then some (str "+") else _) = _
        rw [if_neg (Ne.symm hx), Option.bind_eq_bind, Option.bind_some, if_pos rfl]
        rfl
      | cons y more =>
        have hbehind : statusSymbol job (some x) (y :: more) = some (str " ") :=
          statusSymbol_behind hx hafter
        exact hbehind

/-! ## The pointers -/

theorem nextOf_append {before after : List Node} {node : Node}
    (h : ∀ x ∈ before, x.place ≠ node.place) :
    nextOf (before ++ node :: after) node.place = some (after.head?.map Node.place) := by
  induction before with
  | nil => exact if_pos rfl
  | cons x before ih =>
    obtain ⟨hx, hbefore⟩ := List.forall_mem_cons.mp h
    exact (if_neg hx).trans (ih hbefore)

theorem find_place {before after : List Node} {node : Node}
    (h : ∀ x ∈ before, x.place ≠ node.place) :
    (before ++ node :: after).find? (·.place == node.place) = some node := by
  rw [List.find?_append, List.find?_eq_none.mpr (by simpa using h)]
  simp

theorem unlink_append {before after : List Node} {node : Node}
    (h : ∀ x ∈ before, x.job.pid ≠ node.job.pid) :
    unlink (before ++ node :: after) node.job.pid = before ++ after := by
  rw [unlink, List.eraseP_append_right _ (by simpa using h)]
  simp

/-! ## The walk -/

/-- A walk with the kept nodes behind it and the rest in front of it. -/
structure Between (w : Walk) (kept rest : List Node) : Prop where
  nodes : w.nodes = kept ++ rest
  prev : w.prev = kept.getLast?.map Node.place
  iter : w.iter = rest.head?.map Node.place
  places : ((kept ++ rest).map Node.place).Nodup

/-- The pids of the nodes are distinct. -/
def DistinctPids (nodes : List Node) : Prop := (nodes.map fun node => node.job.pid).Nodup

variable {finished : Int → Bool} {w : Walk} {kept rest : List Node} {node : Node}

theorem forall_ne_of_nodup {β : Type} {f : Node → β}
    (h : ((kept ++ node :: rest).map f).Nodup) :
    (∀ x ∈ kept, f x ≠ f node) ∧ ∀ x ∈ rest, f x ≠ f node := by
  rw [List.map_append, List.map_cons, List.nodup_append] at h
  obtain ⟨-, hrest, hapart⟩ := h
  refine ⟨fun x hx => hapart _ (List.mem_map_of_mem hx) _ List.mem_cons_self, fun x hx heq => ?_⟩
  exact (List.nodup_cons.mp hrest).1 (heq ▸ List.mem_map_of_mem hx)

/-- Nothing else has the pid of the job at hand. -/
theorem Between.checkAndPrintJob (h : Between w kept (node :: rest))
    (hpids : DistinctPids (kept ++ node :: rest)) :
    checkAndPrintJob (fun _ => finished) w node.job =
      some (finished node.job.pid, reportLine finished rest.length node.job) := by
  have hafter : ∀ x ∈ rest.map Node.job, x.pid ≠ node.job.pid := by
    intro x hx
    obtain ⟨y, hy, rfl⟩ := List.mem_map.mp hx
    exact (forall_ne_of_nodup hpids).2 y hy
  have hsymbol : statusSymbol node.job none w.jobList.nodes = some (marker rest.length) := by
    have hmarker := statusSymbol_eq_marker none (kept.map Node.job) hafter
    rwa [List.length_map, ← List.map_cons, ← List.map_append, ← h.nodes] at hmarker
  simp only [PrintJobs.checkAndPrintJob, printJobWithStatus, hsymbol, Option.map_some, reportLine]
  cases finished node.job.pid with
  | false => rfl
  | true => rfl

/-- Where `prev` points, the list goes on behind the kept nodes. -/
theorem behindPrev_kept (h : ((kept ++ rest).map Node.place).Nodup) :
    behindPrev (kept ++ rest) (kept.getLast?.map Node.place) =
      some (rest.head?.map Node.place) := by
  cases hlast : kept.getLast? with
  | none =>
    obtain rfl := List.getLast?_eq_none_iff.mp hlast
    rfl
  | some last =>
    obtain ⟨front, rfl⟩ := List.getLast?_eq_some_iff.mp hlast
    rw [List.append_assoc, List.singleton_append] at h ⊢
    exact nextOf_append (forall_ne_of_nodup h).1

/-- A round at a node reports its job and goes on behind it, with the node kept or not. -/
theorem printJobsRound_between (finished : Int → Bool) (h : Between w kept (node :: rest))
    (hpids : DistinctPids (kept ++ node :: rest)) :
    ∃ w', printJobsRound (fun _ => finished) w node.place = some w' ∧
      w'.reports = w.reports ++ [reportLine finished rest.length node.job] ∧
      Between w' (if finished node.job.pid then kept else kept ++ [node]) rest := by
  have hplaces := (forall_ne_of_nodup h.places).1
  have hfind : w.nodes.find? (·.place == node.place) = some node := by
    rw [h.nodes, find_place hplaces]
  simp only [printJobsRound, hfind, h.checkAndPrintJob hpids, Option.bind_eq_bind, Option.bind_some]
  cases hdone : finished node.job.pid with
  | true =>
    have hunlink : unlink w.nodes node.job.pid = kept ++ rest := by
      rw [h.nodes, unlink_append (forall_ne_of_nodup hpids).1]
    have hsub : (kept ++ rest).Sublist (kept ++ node :: rest) :=
      (List.sublist_cons_self node rest).append_left kept
    have hkept := h.places.sublist (hsub.map _)
    simp only [if_true, hunlink, h.prev, behindPrev_kept hkept, Option.bind_some]
    exact ⟨_, rfl, rfl, rfl, rfl, rfl, hkept⟩
  | false =>
    have hsame : kept ++ [node] ++ rest = kept ++ node :: rest := by simp
    simp only [if_neg Bool.false_ne_true, h.nodes, nextOf_append hplaces, Option.bind_some]
    exact ⟨_, rfl, rfl, hsame.symm, by simp, rfl, hsame ▸ h.places⟩

/-- The loop, from a place in the list to its end. -/
theorem loop_between (finished : Int → Bool) (h : Between w kept rest)
    (hpids : DistinctPids (kept ++ rest)) (hkept : ∀ x ∈ kept, finished x.job.pid = false) :
    ∃ fuel w', Loop.loop (printJobsBody fun _ => finished) fuel w = some (some w') ∧
      w'.reports = w.reports ++ reportLines finished (rest.map Node.job) ∧
      w'.nodes = (kept ++ rest).filter fun x => !finished x.job.pid := by
  induction rest generalizing w kept with
  | nil =>
    have hend : printJobsBody (fun _ => finished) w = .inr (some w) := by
      simp only [printJobsBody, h.iter, List.head?_nil, Option.map_none]
    refine ⟨1, w, by simp only [Loop.loop, hend], by simp [reportLines], ?_⟩
    rw [h.nodes, List.append_nil, List.filter_eq_self.mpr (by simpa using hkept)]
  | cons node rest ih =>
    obtain ⟨w', hround, hreports, hbetween⟩ := printJobsRound_between finished h hpids
    have hbody : printJobsBody (fun _ => finished) w = .inl w' := by
      simp only [printJobsBody, h.iter, List.head?_cons, Option.map_some, hround]
    have hsub : ((if finished node.job.pid then kept else kept ++ [node]) ++ rest).Sublist
        (kept ++ node :: rest) := by
      split
      · exact (List.sublist_cons_self node rest).append_left kept
      · simp
    have hnext : ∀ x ∈ (if finished node.job.pid then kept else kept ++ [node]),
        finished x.job.pid = false := by
      split
      · exact hkept
      · rename_i hnot
        exact List.forall_mem_append.mpr
          ⟨hkept, List.forall_mem_singleton.mpr (Bool.eq_false_iff.mpr hnot)⟩
    obtain ⟨fuel, w'', hloop, hlines, hnodes⟩ := ih hbetween (hpids.sublist (hsub.map _)) hnext
    refine ⟨fuel + 1, w'', by simp only [Loop.loop, hbody, hloop], ?_, ?_⟩
    · rw [hlines, hreports, List.append_assoc]
      simp [reportLines]
    · rw [hnodes]
      cases hdone : finished node.job.pid with
      | true => simp [hdone]
      | false => simp [hdone]

theorem startWalk_jobs (jobList : Option JobList) :
    (startWalk jobList).nodes.map Node.job = jobs jobList := by
  apply List.ext_getElem
  · simp [startWalk, jobs]
  · intro i hi hi'
    simp [startWalk, jobs]

theorem startWalk_places (jobList : Option JobList) :
    (startWalk jobList).nodes.map Node.place = List.range (jobs jobList).length := by
  apply List.ext_getElem
  · simp [startWalk, jobs]
  · intro i hi hi'
    simp [startWalk]

theorem between_startWalk (jobList : Option JobList) :
    Between (startWalk jobList) [] (startWalk jobList).nodes where
  nodes := rfl
  prev := rfl
  iter := rfl
  places := by
    rw [List.nil_append, startWalk_places]
    exact List.nodup_range

/-- **`print_jobs` walks over every job once.** Whichever children have finished, the loop
ends without following null, prints one line per job in the order of the list with the
markers of the full list, and leaves the jobs that are running. -/
theorem printJobsLoop_reports (finished : Int → Bool) (jobList : Option JobList)
    (hpids : ((jobs jobList).map Job.pid).Nodup) :
    ∃ fuel w, printJobsLoop (fun _ => finished) fuel jobList = some (some w) ∧
      w.reports = reportLines finished (jobs jobList) ∧
      w.jobList.nodes = (jobs jobList).filter fun job => !finished job.pid := by
  rw [← startWalk_jobs, List.map_map] at hpids
  obtain ⟨fuel, w, hloop, hreports, hnodes⟩ :=
    loop_between finished (between_startWalk jobList) hpids (fun x hx => absurd hx List.not_mem_nil)
  refine ⟨fuel, w, hloop, by rw [hreports, startWalk_jobs]; rfl, ?_⟩
  rw [Walk.jobList, hnodes, ← startWalk_jobs, List.nil_append, List.filter_map]
  rfl

/-- The head and the tail have finished. -/
theorem printJobsLoop_reports_ends : ∃ fuel w,
    printJobsLoop (fun _ pid => pid != 8) fuel
        (some { size := 3, nodes := [⟨7, 1, []⟩, ⟨8, 2, []⟩, ⟨9, 3, []⟩] }) = some (some w) ∧
      w.reports.map Report.symbol = [str " ", str "-", str "+"] ∧
      w.jobList.nodes = [⟨8, 2, []⟩] := by
  obtain ⟨fuel, w, hloop, hreports, hnodes⟩ := printJobsLoop_reports (· != 8)
    (some { size := 3, nodes := [⟨7, 1, []⟩, ⟨8, 2, []⟩, ⟨9, 3, []⟩] }) (by decide)
  exact ⟨fuel, w, hloop, by rw [hreports]; rfl, hnodes⟩

end Shell.PrintJobs
