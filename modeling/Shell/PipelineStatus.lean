import Shell.Exec
import Shell.Pipes

/-! # The status of a pipeline (exec.c)

A single program's status is decoded from what `waitpid` reports; `execute_pipes`
waits without looking at it. The state is how the children that are still to be
started will terminate, in the order of their start. -/
namespace Shell.PipelineStatus
open Shell.CTypes Shell.Parsetypes Shell.Exec Shell.Lib

variable {δ : Type}

/-- What `waitpid` reports of a child. -/
inductive Termination
  | exited (code : UInt8)
  | signaled (sig : Nat)
  deriving DecidableEq, Repr

/-- `WEXITSTATUS(status)`, or `128 + WTERMSIG(status)` -/
def decodeStatus : Termination → Int
  | .exited code => code.toNat
  | .signaled sig => 128 + sig

/-- `execute_command` in the parent. -/
def executeCommand (_ : Command) : Run (List Termination)
  | [] => none
  | termination :: rest => some (decodeStatus termination, rest)

/-- `execute_pipes`, where every `fork` succeeds. -/
def executePipes (pipes : Nat → Int × Int) (table : Descriptors δ) (pipeline : Pipeline) :
    Run (List Termination) := fun s =>
  if s.length < pipeline.size then none
  else some ((Pipes.executePipes (fun _ => true) pipeline.size pipes table).ret,
    s.drop pipeline.size)

/-- A host whose programs run in children. -/
def withChildren (host : Host (List Termination)) (pipes : Nat → Int × Int)
    (table : Descriptors δ) : Host (List Termination) :=
  { host with executeCommand := executeCommand, executePipes := executePipes pipes table }

/-- A command that `execute_pipeline` starts a program for. -/
def External (host : Host (List Termination)) (command : Command) : Prop :=
  checkCommand command = true ∧ isBuiltin host command = false

/-- A pipeline of these commands. -/
def pipelineOf (commands : List Command) : Pipeline := { size := commands.length, commands := commands }

/-- The status that `execute_pipeline` returns, if it does. -/
def status (r : Option (Int × List Termination)) : Option Int := r.map Prod.fst

variable {host : Host (List Termination)} {pipes : Nat → Int × Int} {table : Descriptors δ}

theorem ret_executePipes (n : Nat) : (Pipes.executePipes (fun _ => true) n pipes table).ret = 0 := by
  obtain ⟨s, hs, -⟩ := Pipes.started_rounds table pipes n n
  rw [Pipes.executePipes]
  simp only [hs]

theorem executePipeline_single {command : Command} (h : External host command)
    (termination : Termination) :
    executePipeline (withChildren host pipes table) (pipelineOf [command]) [termination] =
      some (decodeStatus termination, []) := by
  have hbuiltin : isBuiltin (withChildren host pipes table) command = false := h.2
  simp only [executePipeline, pipelineOf, List.length_singleton, if_true, h.1, hbuiltin,
    Bool.false_eq_true, if_false]
  rfl

theorem executePipeline_several {commands : List Command} {s : List Termination}
    (hn : 2 ≤ commands.length) (hs : s.length = commands.length) :
    executePipeline (withChildren host pipes table) (pipelineOf commands) s = some (0, []) := by
  have hrun : executePipes pipes table (pipelineOf commands) s = some (0, []) := by
    rw [executePipes, pipelineOf, if_neg (by simp only; omega), ret_executePipes]
    simp only [← hs, List.drop_length]
  rw [executePipeline, if_neg (by simp only [pipelineOf]; omega)]
  exact hrun

theorem decodeStatus_eq_zero_iff {termination : Termination} :
    decodeStatus termination = 0 ↔ termination = .exited 0 := by
  cases termination with
  | exited code =>
    rw [decodeStatus, Termination.exited.injEq, Int.natCast_eq_zero]
    exact ⟨fun h => UInt8.toNat_inj.mp h, fun h => congrArg UInt8.toNat h⟩
  | signaled sig =>
    simp only [decodeStatus, reduceCtorEq, iff_false]
    omega

/-- **When a pipeline has the status of its last command.** Several programs end with status
0, however they terminate; the last one alone does so only where it exits with 0. -/
theorem executePipeline_status_iff (host : Host (List Termination)) (pipes : Nat → Int × Int)
    (table : Descriptors δ) {front : List Command} {last : Command}
    {terminations : List Termination} {termination : Termination} (hfront : front ≠ [])
    (hexternal : ∀ command ∈ front ++ [last], External host command)
    (hlength : terminations.length = front.length) :
    status (executePipeline (withChildren host pipes table) (pipelineOf (front ++ [last]))
        (terminations ++ [termination])) =
      status (executePipeline (withChildren host pipes table) (pipelineOf [last]) [termination]) ↔
    termination = .exited 0 := by
  have hlast : External host last := hexternal last (by simp)
  have hpos := List.length_pos_of_ne_nil hfront
  have hn : 2 ≤ (front ++ [last]).length := by
    rw [List.length_append, List.length_singleton]
    omega
  have hs : (terminations ++ [termination]).length = (front ++ [last]).length := by simpa using hlength
  rw [executePipeline_several hn hs, executePipeline_single hlast, ← decodeStatus_eq_zero_iff]
  simp only [status, Option.map_some, Option.some.injEq]
  exact eq_comm

/-! ## `a | b` -/

/-- A host without builtins. -/
def programs : Host (List Termination) where
  varLookup _ _ := none
  varLookupn _ _ _ := none
  varAssign s _ _ := s
  fresh _ := (fun _ => 0, fun _ => 0)
  isBuiltin _ := false
  executeBuiltin _ _ := none
  executeCommand _ _ := none
  executePipes _ _ := none
  executeAndorBg _ _ := none
  captured _ _ := none
  beyond _ _ := 0

def commandOf (name : Str) : Command := { argv := [name], assignmentList := [], redirs := [] }

theorem external_commandOf (name : Str) : External programs (commandOf name) := ⟨rfl, rfl⟩

theorem executePipeline_status_iff_success :
    status (executePipeline (withChildren programs (fun _ => (0, 0)) Pipes.standardFiles)
        (pipelineOf ([commandOf (str "a")] ++ [commandOf (str "b")]))
        ([.exited 1] ++ [.exited 0])) =
      status (executePipeline (withChildren programs (fun _ => (0, 0)) Pipes.standardFiles)
        (pipelineOf [commandOf (str "b")]) [.exited 0]) := by
  refine (executePipeline_status_iff programs _ _ (by simp) (fun command hmem => ?_) rfl).mpr rfl
  obtain hmem | hmem := List.mem_append.mp hmem
  · exact List.mem_singleton.mp hmem ▸ external_commandOf _
  · exact List.mem_singleton.mp hmem ▸ external_commandOf _

/-- `false` behind a bar is taken for a success. -/
theorem executePipeline_status_lost :
    status (executePipeline (withChildren programs (fun _ => (0, 0)) Pipes.standardFiles)
        (pipelineOf [commandOf (str "a"), commandOf (str "false")]) [.exited 0, .exited 1]) =
      some 0 ∧
    status (executePipeline (withChildren programs (fun _ => (0, 0)) Pipes.standardFiles)
        (pipelineOf [commandOf (str "false")]) [.exited 1]) = some 1 := by
  rw [executePipeline_several (by simp) (by simp),
    executePipeline_single (external_commandOf _)]
  exact ⟨rfl, rfl⟩

end Shell.PipelineStatus
