import Shell.Lib.Descriptors

/-! # Pipes (execute_pipes of exec.c)

The children of a pipeline and the descriptors that each of them has where it runs
its command. `pipe` always succeeds; whether a `fork` does is a parameter. The
array `pipes` is not initialised. A pipeline has a command. -/
namespace Shell.Pipes
open Shell.Lib

variable {δ : Type}

/-- What a descriptor refers to: a file that the shell had open, or an end of the
pipe `i`. -/
inductive Description (δ : Type)
  | shell (d : δ)
  | readEnd (i : Nat)
  | writeEnd (i : Nat)
  deriving DecidableEq

/-- The shell in the loop of `execute_pipes`, and its children so far, each with
the table it has where it runs its command. -/
structure Parent (δ : Type) where
  table : Descriptors (Description δ)
  pipes : Nat → Int × Int
  children : List (Descriptors (Description δ))

/-- `pipe(pipes[i])` -/
def pipe (s : Parent δ) (i : Nat) : Parent δ :=
  let r := s.table.lowest
  let table := s.table.put r (.readEnd i)
  let w := table.lowest
  { s with
    table := table.put w (.writeEnd i)
    pipes := fun j => if j = i then (r, w) else s.pipes j }

def pipeEnds (pipes : Nat → Int × Int) (numPipes : Nat) : List Int :=
  (List.range numPipes).flatMap fun j => [(pipes j).1, (pipes j).2]

/-- The loop that closes both ends of every pipe of the array. -/
def closePipes (pipes : Nat → Int × Int) (numPipes : Nat) (table : Descriptors (Description δ)) :
    Descriptors (Description δ) :=
  (pipeEnds pipes numPipes).foldl Descriptors.close table

/-- The child `i` up to its command. -/
def childTable (s : Parent δ) (n i : Nat) : Descriptors (Description δ) :=
  let table := s.table
  let table := if i > 0 then table.dup2 (s.pipes (i - 1)).1 0 else table
  let table := if i < n - 1 then table.dup2 (s.pipes i).2 1 else table
  closePipes s.pipes (n - 1) table

/-- A round of the loop that starts the children; it ends in `error` where `fork`
fails. -/
def round (forks : Nat → Bool) (n : Nat) (s : Parent δ) (i : Nat) :
    Except (Parent δ) (Parent δ) :=
  let s := if i < n - 1 then pipe s i else s
  if forks i then .ok { s with children := s.children ++ [childTable s n i] } else .error s

/-- The shell behind `execute_pipes`, and the children it has waited for. -/
structure Finished (δ : Type) where
  ret : Int
  shell : Parent δ
  waited : List Nat

def executePipes (forks : Nat → Bool) (n : Nat) (pipes : Nat → Int × Int)
    (table : Descriptors δ) : Finished δ :=
  let start := { table := table.map .shell, pipes := pipes, children := [] }
  match (List.range n).foldlM (round forks n) start with
  | .error s => { ret := -1, shell := s, waited := [] }
  | .ok s =>
    let s := { s with table := closePipes s.pipes (n - 1) s.table }
    { ret := 0, shell := s, waited := List.range n }

/-! ## The rounds -/

variable {table : Descriptors δ} {pipes : Nat → Int × Int} {n k : Nat} {s s' : Parent δ}

theorem mem_pipeEnds {numPipes : Nat} {x : Int} :
    x ∈ pipeEnds pipes numPipes ↔ ∃ j, j < numPipes ∧ (x = (pipes j).1 ∨ x = (pipes j).2) := by
  simp [pipeEnds]

theorem file_closePipes {numPipes : Nat} {t : Descriptors (Description δ)} (x : Int) :
    (closePipes pipes numPipes t).file x =
      if x ∈ pipeEnds pipes numPipes then none else t.file x :=
  Descriptors.file_foldl_close t _ x

/-- The shell where `k` rounds have made their pipes: its own files and the ends of
these pipes, of which the first took the lowest descriptors that were free. -/
structure Piping (table : Descriptors δ) (pipes : Nat → Int × Int) (n k : Nat) (s : Parent δ) :
    Prop where
  free : ∀ j, j < k → j < n - 1 →
    table.file (s.pipes j).1 = none ∧ table.file (s.pipes j).2 = none
  ends : ∀ j, j < k → j < n - 1 →
    s.table.file (s.pipes j).1 = some (.readEnd j) ∧
      s.table.file (s.pipes j).2 = some (.writeEnd j)
  others : ∀ fd, (∀ j, j < k → j < n - 1 → fd ≠ (s.pipes j).1 ∧ fd ≠ (s.pipes j).2) →
    s.table.file fd = (table.file fd).map .shell
  garbage : ∀ j, ¬ (j < k ∧ j < n - 1) → s.pipes j = pipes j
  first : 0 < k → 0 < n - 1 → (table.file 0 = none → (s.pipes 0).1 = 0) ∧
    (table.file 1 = none → (s.pipes 0).1 = 1 ∨ (s.pipes 0).2 = 1)

theorem piping_start {children : List (Descriptors (Description δ))} :
    Piping table pipes n 0 { table := table.map .shell, pipes := pipes, children := children } where
  free j hj := absurd hj (Nat.not_lt_zero j)
  ends j hj := absurd hj (Nat.not_lt_zero j)
  others _ _ := rfl
  garbage _ _ := rfl
  first h := absurd h (Nat.lt_irrefl 0)

theorem Piping.free_of_none {fd : Int} (h : Piping table pipes n k s)
    (hnone : s.table.file fd = none) : table.file fd = none := by
  have hothers := h.others fd fun j hk hn => by
    have hends := h.ends j hk hn
    constructor
    · intro heq
      rw [← heq, hnone] at hends
      cases hends.1
    · intro heq
      rw [← heq, hnone] at hends
      cases hends.2
  rw [hnone] at hothers
  exact Option.map_eq_none_iff.mp hothers.symm

/-- A pipe takes two descriptors that are not in use. -/
theorem Piping.pipe (h : Piping table pipes n k s) (hk : k < n - 1) :
    Piping table pipes n (k + 1) (pipe s k) := by
  let r := s.table.lowest
  let mid := s.table.put r (.readEnd k)
  let w := mid.lowest
  have hr : s.table.file r = none := s.table.file_lowest
  have hw : mid.file w = none := mid.file_lowest
  have hwr : (w : Int) ≠ r := by
    intro heq
    rw [Descriptors.file_put, if_pos heq] at hw
    cases hw
  have hw' : s.table.file w = none := by rwa [Descriptors.file_put, if_neg hwr] at hw
  have hpipe : ∀ j, (Pipes.pipe s k).pipes j = if j = k then ((r : Int), (w : Int)) else s.pipes j :=
    fun _ => rfl
  have hfile : ∀ fd, (Pipes.pipe s k).table.file fd =
      if fd = w then some (.writeEnd k) else if fd = r then some (.readEnd k) else s.table.file fd :=
    fun _ => rfl
  constructor
  · intro j hj hn
    rw [hpipe]
    split
    · exact ⟨h.free_of_none hr, h.free_of_none hw'⟩
    · exact h.free j (by omega) hn
  · intro j hj hn
    rw [hpipe]
    split
    · rename_i hjk
      subst hjk
      rw [hfile, hfile, if_neg hwr.symm, if_pos rfl, if_pos rfl]
      exact ⟨rfl, rfl⟩
    · have hends := h.ends j (by omega) hn
      have hused : ∀ fd d, s.table.file fd = some d → fd ≠ w ∧ fd ≠ r := by
        intro fd d hfd
        refine ⟨fun heq => ?_, fun heq => ?_⟩
        · rw [heq, hw'] at hfd
          cases hfd
        · rw [heq, hr] at hfd
          cases hfd
      have hread := hused _ _ hends.1
      have hwrite := hused _ _ hends.2
      rw [hfile, hfile, if_neg hread.1, if_neg hread.2, if_neg hwrite.1, if_neg hwrite.2]
      exact hends
  · intro fd hfd
    have hlast := hfd k (by omega) hk
    rw [hpipe, if_pos rfl] at hlast
    rw [hfile, if_neg hlast.2, if_neg hlast.1]
    refine h.others fd fun j hj hn => ?_
    have := hfd j (by omega) hn
    rwa [hpipe, if_neg (by omega)] at this
  · intro j hj
    rw [hpipe, if_neg (by omega)]
    exact h.garbage j (by omega)
  · intro _ hn
    rw [hpipe]
    split
    · rename_i hzero
      have hown : ∀ fd, s.table.file fd = (table.file fd).map .shell :=
        fun fd => h.others fd fun j hj => absurd hj (by omega)
      have hfree : ∀ fd, table.file fd = none → s.table.file fd = none :=
        fun fd hfd => by rw [hown, hfd, Option.map_none]
      constructor
      · intro h0
        exact congrArg Nat.cast (Descriptors.lowest_eq_zero (hfree 0 h0))
      · intro h1
        exact (Descriptors.lowest_eq_one_or (hfree 1 h1) (.readEnd k)).imp
          (congrArg Nat.cast) (congrArg Nat.cast)
    · exact h.first (by omega) hn

theorem Piping.skip (h : Piping table pipes n k s) (hk : ¬ k < n - 1) :
    Piping table pipes n (k + 1) s where
  free j hj hn := h.free j (by omega) hn
  ends j hj hn := h.ends j (by omega) hn
  others fd hfd := h.others fd fun j hj hn => hfd j (by omega) hn
  garbage j hj := h.garbage j (by omega)
  first _ hn := h.first (by omega) hn

theorem Piping.children {children : List (Descriptors (Description δ))}
    (h : Piping table pipes n k s) : Piping table pipes n k { s with children := children } :=
  ⟨h.free, h.ends, h.others, h.garbage, h.first⟩

/-- `k` children have been started, each behind its own round's pipe. -/
structure Started (table : Descriptors δ) (pipes : Nat → Int × Int) (n k : Nat) (s : Parent δ) :
    Prop where
  piping : Piping table pipes n k s
  length : s.children.length = k
  child : ∀ i child, s.children[i]? = some child →
    ∃ s', Piping table pipes n (i + 1) s' ∧ child = childTable s' n i

/-- The shell in front of the `fork` of its next round. -/
theorem Piping.beforeFork (h : Piping table pipes n k s) :
    Piping table pipes n (k + 1) (if k < n - 1 then Pipes.pipe s k else s) := by
  split
  · rename_i hk
    exact h.pipe hk
  · rename_i hk
    exact h.skip hk

theorem children_beforeFork :
    (if k < n - 1 then pipe s k else s).children = s.children := by
  split <;> rfl

/-- Rounds whose `fork` succeeds. -/
theorem started_rounds_of_forks (table : Descriptors δ) (pipes : Nat → Int × Int) (n k : Nat)
    {forks : Nat → Bool} (hforks : ∀ i, i < k → forks i = true) :
    ∃ s, (List.range k).foldlM (round forks n)
        { table := table.map .shell, pipes := pipes, children := [] } = .ok s ∧
      Started table pipes n k s := by
  induction k with
  | zero => exact ⟨_, rfl, piping_start, rfl, fun i child h => by cases h⟩
  | succ k ih =>
    obtain ⟨s, hs, hstarted⟩ := ih fun i hi => hforks i (Nat.lt_succ_of_lt hi)
    have hround : round forks n s k = .ok { (if k < n - 1 then pipe s k else s) with
        children := (if k < n - 1 then pipe s k else s).children ++
          [childTable (if k < n - 1 then pipe s k else s) n k] } := by
      rw [round, hforks k (Nat.lt_succ_self k), if_pos rfl]
    rw [List.range_succ, List.foldlM_append, hs]
    have hnew := hstarted.piping.beforeFork
    have hold : (if k < n - 1 then pipe s k else s).children = s.children := children_beforeFork
    refine ⟨_, congrArg (Except.bind · pure) hround, hnew.children, ?_, fun i child hchild => ?_⟩
    · simp only [hold, List.length_append, List.length_singleton, hstarted.length]
    · simp only [hold] at hchild
      rcases Nat.lt_trichotomy i k with hlt | rfl | hgt
      · rw [List.getElem?_append_left (by rw [hstarted.length]; exact hlt)] at hchild
        exact hstarted.child i child hchild
      · rw [List.getElem?_append_right (by rw [hstarted.length]), hstarted.length, Nat.sub_self] at hchild
        exact ⟨_, hnew, (Option.some.inj hchild).symm⟩
      · rw [List.getElem?_eq_none (by simp [hstarted.length]; omega)] at hchild
        cases hchild

theorem started_rounds (table : Descriptors δ) (pipes : Nat → Int × Int) (n k : Nat) :
    ∃ s, (List.range k).foldlM (round (fun _ => true) n)
        { table := table.map .shell, pipes := pipes, children := [] } = .ok s ∧
      Started table pipes n k s :=
  started_rounds_of_forks table pipes n k fun _ _ => rfl

theorem length_children (table : Descriptors δ) (pipes : Nat → Int × Int) (n : Nat) :
    (executePipes (fun _ => true) n pipes table).shell.children.length = n := by
  obtain ⟨s, hs, hstarted⟩ := started_rounds table pipes n n
  rw [executePipes]
  simp only [hs]
  exact hstarted.length

/-! ## The children -/

/-- The child `i` has the ends of its neighbours' pipes, every other file of the
shell, and no other end of a pipe. -/
structure Connected (table : Descriptors δ) (n i : Nat) (child : Descriptors (Description δ)) :
    Prop where
  stdin : 0 < i → child.file 0 = some (.readEnd (i - 1))
  stdout : i < n - 1 → child.file 1 = some (.writeEnd i)
  inherited : ∀ fd d, table.file fd = some d → (fd = 0 → i = 0) → (fd = 1 → ¬ i < n - 1) →
    child.file fd = some (.shell d)
  noRead : ∀ fd j, child.file fd = some (.readEnd j) → 0 < i ∧ fd = 0 ∧ j = i - 1
  noWrite : ∀ fd j, child.file fd = some (.writeEnd j) → i < n - 1 ∧ fd = 1 ∧ j = i

/-- Everything that is closed in a child is free in the shell: its own pipes'
ends, and the part of the array that has not been written yet. -/
def NothingOpen (table : Descriptors δ) (pipes : Nat → Int × Int) (n : Nat) : Prop :=
  (∃ d, table.file 0 = some d) ∧ (∃ d, table.file 1 = some d) ∧
    ∀ j, 1 ≤ j → j < n - 1 → table.file (pipes j).1 = none ∧ table.file (pipes j).2 = none

/-- What is in the array nowhere is a file of the shell. -/
theorem Piping.file_of_not_mem {fd : Int} (h : Piping table pipes n k s)
    (hmem : fd ∉ pipeEnds s.pipes (n - 1)) : s.table.file fd = (table.file fd).map .shell :=
  h.others fd fun j _ hn => ⟨fun heq => hmem (mem_pipeEnds.mpr ⟨j, hn, .inl heq⟩),
    fun heq => hmem (mem_pipeEnds.mpr ⟨j, hn, .inr heq⟩)⟩

theorem Piping.file_shell {i : Nat} {fd : Int} {d : Description δ}
    (h : Piping table pipes n (i + 1) s) (hfd : s.table.file fd = some d)
    (hmem : fd ∉ pipeEnds s.pipes (n - 1)) : ∃ x, table.file fd = some x ∧ d = .shell x := by
  have hothers := h.file_of_not_mem hmem
  rw [hfd] at hothers
  obtain ⟨x, hx, heq⟩ := Option.map_eq_some_iff.mp hothers.symm
  exact ⟨x, hx, heq.symm⟩

/-- What the child has before it closes the array. -/
theorem Piping.file_childTable {i : Nat} (h : Piping table pipes n (i + 1) s) (hi : i < n)
    (hopen : NothingOpen table pipes n) (fd : Int) :
    (childTable s n i).file fd =
      if fd ∈ pipeEnds s.pipes (n - 1) then none
      else if i < n - 1 ∧ fd = 1 then some (.writeEnd i)
      else if 0 < i ∧ fd = 0 then some (.readEnd (i - 1))
      else s.table.file fd := by
  obtain ⟨⟨d, hd⟩, -, -⟩ := hopen
  have hread : ∀ x, (if i > 0 then s.table.dup2 (s.pipes (i - 1)).1 0 else s.table).file x =
      if 0 < i ∧ x = 0 then some (.readEnd (i - 1)) else s.table.file x := by
    intro x
    by_cases hpos : 0 < i
    · rw [if_pos hpos, Descriptors.dup2_of_some (h.ends (i - 1) (by omega) (by omega)).1]
      simp only [Descriptors.file_put, hpos, true_and, Int.natCast_zero]
    · rw [if_neg hpos, if_neg (fun hand => hpos hand.1)]
  rw [childTable, file_closePipes]
  congr 1
  by_cases hlast : i < n - 1
  · have hne : (s.pipes i).2 ≠ 0 := by
      intro heq
      have := (h.free i (by omega) hlast).2
      rw [heq, hd] at this
      cases this
    have hwrite := (h.ends i (by omega) hlast).2
    rw [if_pos hlast, Descriptors.dup2_of_some
      (d := .writeEnd i) (by rw [hread, if_neg (fun hand => hne hand.2), hwrite])]
    simp only [Descriptors.file_put, hread, hlast, true_and, Int.natCast_one]
  · rw [if_neg hlast, hread, if_neg (c := i < n - 1 ∧ fd = 1) fun hand => hlast hand.1]

theorem Piping.connected {i : Nat} (h : Piping table pipes n (i + 1) s) (hi : i < n)
    (hopen : NothingOpen table pipes n) : Connected table n i (childTable s n i) := by
  have hfile := h.file_childTable hi hopen
  obtain ⟨⟨d0, h0⟩, ⟨d1, h1⟩, hgarbage⟩ := hopen
  have hkept : ∀ fd d, table.file fd = some d → fd ∉ pipeEnds s.pipes (n - 1) := by
    intro fd d hfd hmem
    obtain ⟨j, hj, heq⟩ := mem_pipeEnds.mp hmem
    have hfree : table.file (s.pipes j).1 = none ∧ table.file (s.pipes j).2 = none := by
      by_cases hji : j < i + 1
      · exact h.free j hji hj
      · rw [h.garbage j (by omega)]
        exact hgarbage j (by omega) hj
    rcases heq with heq | heq
    · rw [heq, hfree.1] at hfd
      cases hfd
    · rw [heq, hfree.2] at hfd
      cases hfd
  constructor
  · intro hpos
    rw [hfile, if_neg (hkept 0 d0 h0), if_neg (by omega), if_pos ⟨hpos, rfl⟩]
  · intro hlast
    rw [hfile, if_neg (hkept 1 d1 h1), if_pos ⟨hlast, rfl⟩]
  · intro fd d hfd hzero hone
    have hmem := hkept fd d hfd
    rw [hfile, if_neg hmem, if_neg (fun hand => hone hand.2 hand.1),
      if_neg (fun hand => by have := hzero hand.2; omega)]
    rw [h.file_of_not_mem hmem, hfd]
    rfl
  · intro fd j hend
    rw [hfile] at hend
    split at hend
    · cases hend
    rename_i hmem
    split at hend
    · cases hend
    split at hend
    · rename_i hand
      exact ⟨hand.1, hand.2, by injection hend with hend; injection hend with hend; exact hend.symm⟩
    · obtain ⟨x, -, heq⟩ := h.file_shell hend hmem
      cases heq
  · intro fd j hend
    rw [hfile] at hend
    split at hend
    · cases hend
    rename_i hmem
    split at hend
    · rename_i hand
      exact ⟨hand.1, hand.2, by injection hend with hend; injection hend with hend; exact hend.symm⟩
    split at hend
    · cases hend
    · obtain ⟨x, -, heq⟩ := h.file_shell hend hmem
      cases heq

/-- A pipeline of one command has no pipes, and its child the files of the shell. -/
theorem Piping.connected_single (h : Piping table pipes 1 1 s) :
    Connected table 1 0 (childTable s 1 0) := by
  have hfile : ∀ fd, (childTable s 1 0).file fd = (table.file fd).map .shell :=
    fun fd => h.others fd fun j _ hn => absurd hn (Nat.not_lt_zero j)
  constructor
  · exact fun hpos => absurd hpos (Nat.lt_irrefl 0)
  · exact fun hlast => absurd hlast (Nat.lt_irrefl 0)
  · intro fd d hfd _ _
    rw [hfile, hfd]
    rfl
  · intro fd j hend
    rw [hfile] at hend
    obtain ⟨x, -, heq⟩ := Option.map_eq_some_iff.mp hend
    cases heq
  · intro fd j hend
    rw [hfile] at hend
    obtain ⟨x, -, heq⟩ := Option.map_eq_some_iff.mp hend
    cases heq

theorem Piping.file_of_mem {i : Nat} {fd : Int} (hmem : fd ∈ pipeEnds s.pipes (n - 1)) :
    (childTable s n i).file fd = none := by
  rw [childTable, file_closePipes, if_pos hmem]

/-- The first two children show that nothing in the array was open in the shell. -/
theorem nothingOpen_of_connected (hn : 1 < n) {s0 s1 : Parent δ}
    (h0 : Piping table pipes n 1 s0) (h1 : Piping table pipes n 2 s1)
    (hc0 : Connected table n 0 (childTable s0 n 0))
    (hc1 : Connected table n 1 (childTable s1 n 1)) : NothingOpen table pipes n := by
  have hstdin : table.file 0 ≠ none := by
    intro hnone
    have hzero := (h1.first (by omega) (by omega)).1 hnone
    have hmem : (0 : Int) ∈ pipeEnds s1.pipes (n - 1) :=
      mem_pipeEnds.mpr ⟨0, by omega, .inl hzero.symm⟩
    have := hc1.stdin Nat.one_pos
    rw [Piping.file_of_mem hmem] at this
    cases this
  have hstdout : table.file 1 ≠ none := by
    intro hnone
    have hone := (h0.first (by omega) (by omega)).2 hnone
    have hmem : (1 : Int) ∈ pipeEnds s0.pipes (n - 1) :=
      mem_pipeEnds.mpr ⟨0, by omega, hone.imp Eq.symm Eq.symm⟩
    have := hc0.stdout (by omega)
    rw [Piping.file_of_mem hmem] at this
    cases this
  have hclosed : ∀ fd, fd ∈ pipeEnds s0.pipes (n - 1) → table.file fd = none := by
    intro fd hmem
    cases hfd : table.file fd with
    | none => rfl
    | some d =>
      have hgone := Piping.file_of_mem (i := 0) hmem
      by_cases hone : fd = 1
      · have := hc0.stdout (by omega)
        rw [← hone, hgone] at this
        cases this
      · have := hc0.inherited fd d hfd (fun _ => rfl) fun heq => absurd heq hone
        rw [hgone] at this
        cases this
  refine ⟨Option.ne_none_iff_exists'.mp hstdin, Option.ne_none_iff_exists'.mp hstdout, ?_⟩
  intro j hj hlast
  have hpipes := h0.garbage j (by omega)
  rw [← hpipes]
  exact ⟨hclosed _ (mem_pipeEnds.mpr ⟨j, hlast, .inl rfl⟩),
    hclosed _ (mem_pipeEnds.mpr ⟨j, hlast, .inr rfl⟩)⟩

/-- The shell has closed every end again. -/
theorem Piping.closed (h : Piping table pipes n n s) :
    closePipes s.pipes (n - 1) s.table = table.map .shell := by
  ext1 fd
  rw [file_closePipes, Descriptors.file_map]
  split
  · rename_i hmem
    obtain ⟨j, hj, heq⟩ := mem_pipeEnds.mp hmem
    have hfree := h.free j (by omega) hj
    rcases heq with rfl | rfl
    · rw [hfree.1]
      rfl
    · rw [hfree.2]
      rfl
  · rename_i hmem
    exact h.file_of_not_mem hmem

/-- Every child is connected; the shell has the files it had, and has waited for
every child. -/
structure Piped (table : Descriptors δ) (n : Nat) (f : Finished δ) : Prop where
  length : f.shell.children.length = n
  connected : ∀ i child, f.shell.children[i]? = some child → Connected table n i child
  shell : f.shell.table = table.map .shell
  waited : f.waited = List.range n

/-- **Pipelines are connected.** Where every `pipe` and `fork` succeeds, the children
of a pipeline of `n` commands are connected exactly when it is one command, or
the shell's standard input and output are open and no descriptor that the array
happens to hold behind its first entry is. -/
theorem executePipes_piped_iff (table : Descriptors δ) (pipes : Nat → Int × Int) (n : Nat)
    (hn : 1 ≤ n) :
    Piped table n (executePipes (fun _ => true) n pipes table) ↔
      n = 1 ∨ NothingOpen table pipes n := by
  obtain ⟨s, hs, hstarted⟩ := started_rounds table pipes n n
  rw [executePipes]
  simp only [hs]
  constructor
  · intro hpiped
    by_cases hone : n = 1
    · exact .inl hone
    · right
      have hlength := hstarted.length
      have hchild : ∀ i, i < n → ∃ s', Piping table pipes n (i + 1) s' ∧
          Connected table n i (childTable s' n i) := by
        intro i hi
        have hget := List.getElem?_eq_getElem (l := s.children) (i := i) (by omega)
        obtain ⟨s', hs', heq⟩ := hstarted.child i _ hget
        refine ⟨s', hs', ?_⟩
        rw [← heq]
        exact hpiped.connected i _ hget
      obtain ⟨s0, h0, hc0⟩ := hchild 0 (by omega)
      obtain ⟨s1, h1, hc1⟩ := hchild 1 (by omega)
      exact nothingOpen_of_connected (by omega) h0 h1 hc0 hc1
  · intro h
    refine ⟨hstarted.length, fun i child hchild => ?_, hstarted.piping.closed, rfl⟩
    have hi : i < n := by
      rw [← hstarted.length]
      exact (List.getElem?_eq_some_iff.mp hchild).1
    obtain ⟨s', hs', rfl⟩ := hstarted.child i child hchild
    rcases h with rfl | hopen
    · obtain rfl : i = 0 := by omega
      exact hs'.connected_single
    · exact hs'.connected hi hopen

/-- A shell with its three standard files. -/
def standardFiles : Descriptors Unit where
  file fd := if 0 ≤ fd ∧ fd < 3 then some () else none
  bounded := by
    refine ⟨3, fun fd hfd => ?_⟩
    split at hfd
    · assumption
    · cases hfd

theorem executePipes_piped_iff_two :
    Piped standardFiles 2 (executePipes (fun _ => true) 2 (fun _ => (0, 0)) standardFiles) :=
  (executePipes_piped_iff standardFiles (fun _ => (0, 0)) 2 (by decide)).mpr
    (.inr ⟨⟨(), rfl⟩, ⟨(), rfl⟩, fun j hj hlast => by omega⟩)

/-- Three commands, and an array of zeros: the first child closes its standard input. -/
theorem executePipes_three_zeros :
    ∃ child,
      (executePipes (fun _ => true) 3 (fun _ => (0, 0)) standardFiles).shell.children[0]? =
        some child ∧ standardFiles.file 0 = some () ∧ child.file 0 = none := by
  obtain ⟨s, hs, hstarted⟩ :=
    started_rounds standardFiles (fun _ => (0, 0)) 3 3
  have hlength := hstarted.length
  have hget := List.getElem?_eq_getElem (l := s.children) (i := 0) (by omega)
  obtain ⟨s', hs', heq⟩ := hstarted.child 0 _ hget
  refine ⟨s.children[0], ?_, rfl, ?_⟩
  · rw [executePipes]
    simp only [hs]
    exact hget
  · rw [heq]
    refine Piping.file_of_mem (mem_pipeEnds.mpr ⟨1, by decide, .inl ?_⟩)
    rw [hs'.garbage 1 (by omega)]

/-! ## Where a fork fails -/

/-- What a caller is left with that is to go on as before: its own files, and no child
that has not been waited for. -/
structure CleanedUp (table : Descriptors δ) (k : Nat) (f : Finished δ) : Prop where
  shell : f.shell.table = table.map .shell
  waited : f.waited = List.range k

/-- The error, with the children and the pipes of the rounds so far left behind. -/
structure LeftBehind (n k : Nat) (f : Finished δ) : Prop where
  ret : f.ret = -1
  children : f.shell.children.length = k
  waited : f.waited = []
  ends : ∀ j, j ≤ k → j < n - 1 → f.shell.table.file (f.shell.pipes j).1 = some (.readEnd j) ∧
    f.shell.table.file (f.shell.pipes j).2 = some (.writeEnd j)

theorem foldlM_round_error {forks : Nat → Bool} (hk : k < n) {start : Parent δ}
    (hs : (List.range k).foldlM (round forks n) start = .ok s) (hfail : forks k = false) :
    (List.range n).foldlM (round forks n) start = .error (if k < n - 1 then pipe s k else s) := by
  have hround : round forks n s k = .error (if k < n - 1 then pipe s k else s) := by
    rw [round, hfail, if_neg Bool.false_ne_true]
  obtain ⟨m, hm⟩ := Nat.exists_eq_add_of_lt hk
  have hrange : List.range n = List.range k ++ k :: (List.range m).map (k + 1 + ·) := by
    rw [hm, Nat.add_right_comm, List.range_add, List.range_succ, List.append_assoc]
    rfl
  rw [hrange, List.foldlM_append, hs]
  change List.foldlM (round forks n) s (k :: _) = _
  rw [List.foldlM_cons, hround]
  rfl

theorem leftBehind_executePipes (table : Descriptors δ) (pipes : Nat → Int × Int)
    {forks : Nat → Bool} (hk : k < n) (hforks : ∀ i, i < k → forks i = true)
    (hfail : forks k = false) : LeftBehind n k (executePipes forks n pipes table) := by
  obtain ⟨s, hs, hstarted⟩ := started_rounds_of_forks table pipes n k hforks
  have hpiping := hstarted.piping.beforeFork
  rw [executePipes]
  simp only [foldlM_round_error hk hs hfail]
  have hchildren : (if k < n - 1 then pipe s k else s).children.length = k := by
    rw [children_beforeFork, hstarted.length]
  exact ⟨rfl, hchildren, rfl, fun j hj hn => hpiping.ends j (by omega) hn⟩

/-- The first pipe is there wherever a second command was to be started. -/
theorem LeftBehind.not_cleanedUp {f : Finished δ} (h : LeftBehind n k f) (hn : 2 ≤ n) :
    ¬ CleanedUp table k f := by
  intro hclean
  have hend := (h.ends 0 (Nat.zero_le k) (by omega)).1
  rw [hclean.shell, Descriptors.file_map] at hend
  obtain ⟨d, -, heq⟩ := Option.map_eq_some_iff.mp hend
  cases heq

/-- **A failing `fork` leaves everything open.** The early return skips the closing and the
waiting: the shell keeps both ends of every pipe made so far and the children unwaited. -/
theorem executePipes_not_cleanedUp (table : Descriptors δ) (pipes : Nat → Int × Int)
    {forks : Nat → Bool} (hn : 2 ≤ n) (hk : k < n) (hforks : ∀ i, i < k → forks i = true)
    (hfail : forks k = false) :
    LeftBehind n k (executePipes forks n pipes table) ∧
      ¬ CleanedUp table k (executePipes forks n pipes table) := by
  have hleft := leftBehind_executePipes table pipes hk hforks hfail
  exact ⟨hleft, hleft.not_cleanedUp hn⟩

/-- Of two commands the second cannot be started: the first one has both ends of its pipe
left in the shell, and nothing waits for it. -/
theorem executePipes_not_cleanedUp_second :
    LeftBehind 2 1 (executePipes (· == 0) 2 (fun _ => (0, 0)) standardFiles) ∧
      ¬ CleanedUp standardFiles 1 (executePipes (· == 0) 2 (fun _ => (0, 0)) standardFiles) :=
  executePipes_not_cleanedUp standardFiles _ (by decide) (by decide) (by decide) rfl

/-- No child is started at all, and the pipe stays open. -/
theorem executePipes_keeps_pipe :
    (executePipes (fun _ => false) 2 (fun _ => (0, 0)) standardFiles).ret = -1 ∧
      ¬ CleanedUp standardFiles 0
        (executePipes (fun _ => false) 2 (fun _ => (0, 0)) standardFiles) := by
  have hforks : ∀ i, i < 0 → (fun _ : Nat => false) i = true :=
    fun i hi => absurd hi (Nat.not_lt_zero i)
  have hleft := leftBehind_executePipes standardFiles (fun _ => (0, 0)) Nat.two_pos hforks rfl
  exact ⟨hleft.ret, hleft.not_cleanedUp (Nat.le_refl 2)⟩

end Shell.Pipes
