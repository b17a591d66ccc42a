import Shell.AssignmentSplit
import Shell.HashtableFork
import Shell.HashtableGetn

/-! # The table of the shell variables (vars.c over hashtable.c)

At its start the shell puts the environment into the table, an entry at a time. Later
assignments, exports, removals and forks may lose variables; none of them mixes up what
has been put. -/
namespace Shell.VariableTable
open Shell.CTypes Shell.Stringbuilder Shell.Exec Shell.Hashtable Shell.AssignmentSplit Shell.Lib

/-- The loop of `var_init_from_environ`, each entry with what `malloc` hands out for its two
parts; `none` where a part reads as no C string. -/
def varInitFromEnviron : List (Str × (Cells × Cells)) → HashTable → Option HashTable
  | [], t => some t
  | (ei, new) :: rest, t => do
    let buf := assignmentSplit new ei
    varInitFromEnviron rest (htPut t (← buf.1.cstr) (← buf.2.cstr) true)

/-! ## The import of the environment -/

/-- An entry of `environ`, and the new blocks for its parts. -/
structure Entry where
  setting : Variables.Setting
  new : Cells × Cells

def Entry.name (e : Entry) : Str := e.setting.name

def Entry.value (e : Entry) : Str := e.setting.value

def Entry.raw (e : Entry) : Str × (Cells × Cells) := (e.setting.text, e.new)

def Entry.node (e : Entry) : BucketNode := ⟨e.name, e.value, true⟩

/-- Every name of the environment has its value and is exported, and no other is bound. -/
structure Imported (environ : List Entry) (t : HashTable) : Prop where
  values : ∀ e ∈ environ, htGet t e.name = some e.value
  exported : ∀ e ∈ environ, htGetExported t e.name = some true
  others : ∀ name, name ∉ environ.map Entry.name → htContains t name = false

/-- What the block for the value reads as. -/
def Entry.read (e : Entry) : Option Str := (assignmentSplit e.new e.setting.text).2.cstr

/-- The node that the entry puts into the table. -/
def Entry.put (e : Entry) : BucketNode := ⟨e.name, e.read.getD [], true⟩

theorem Entry.equals (e : Entry) : chr '=' ∈ e.setting.text :=
  List.mem_append_right _ List.mem_cons_self

theorem Entry.nulFree (e : Entry) : NulFree e.setting.text :=
  List.forall_mem_append.mpr ⟨e.setting.nameNulFree,
    List.forall_mem_cons.mpr ⟨by decide, e.setting.valueNulFree⟩⟩

theorem Entry.parts (e : Entry) :
    beforeEquals e.setting.text = e.name ∧ afterEquals e.setting.text = e.value := by
  have hscan := scanTo_equals e.equals
  rw [Variables.Setting.text, Expand.scanTo_append e.setting.noEquals] at hscan
  obtain ⟨hname, hvalue⟩ := Prod.mk.inj hscan
  exact ⟨hname.symm, (Option.some.inj hvalue).symm⟩

theorem Entry.read_iff (e : Entry) : e.read = some e.value ↔ e.new.2 e.value.length = 0 := by
  have hvalue := assignmentSplit_value e.equals e.nulFree e.new e.value
  rw [e.parts.2] at hvalue
  exact hvalue.trans blockHolds_self_iff

theorem varInitFromEnviron_cons (e : Entry) (rest : List (Str × (Cells × Cells))) (t : HashTable) :
    varInitFromEnviron (e.raw :: rest) t =
      e.read.bind fun value => varInitFromEnviron rest (htPut t e.name value true) := by
  have hname := assignmentSplit_name e.equals e.nulFree e.new
  rw [e.parts.1] at hname
  simp only [varInitFromEnviron, Entry.raw, hname, Option.bind_eq_bind, Option.bind_some]
  rfl

/-- The import puts the entries as they read, in their order. -/
theorem varInitFromEnviron_iff (environ : List Entry) (t t' : HashTable) :
    varInitFromEnviron (environ.map Entry.raw) t = some t' ↔
      (∀ e ∈ environ, e.read.isSome = true) ∧ t' = putAll t (environ.map Entry.put) := by
  induction environ generalizing t with
  | nil =>
    constructor
    · intro h
      exact ⟨fun e he => absurd he List.not_mem_nil, (Option.some.inj h).symm⟩
    · intro h
      rw [h.2]
      rfl
  | cons e environ ih =>
    rw [List.map_cons, varInitFromEnviron_cons, List.forall_mem_cons, List.map_cons]
    cases hread : e.read with
    | none =>
      constructor
      · intro h
        cases h
      · intro h
        exact absurd h.1.1 Bool.false_ne_true
    | some value =>
      have hput : putAll t (e.put :: environ.map Entry.put) =
          putAll (htPut t e.name value true) (environ.map Entry.put) := by
        rw [Entry.put, hread]
        rfl
      rw [Option.bind_some, ih, hput, Option.isSome_some, eq_self, true_and]

theorem Entry.put_eq_node (e : Entry) (h : e.read = some e.value) : e.put = e.node := by
  rw [Entry.put, h]
  rfl

theorem keys_put (environ : List Entry) :
    (environ.map Entry.put).map BucketNode.key = environ.map Entry.name :=
  List.map_map

variable {environ : List Entry} {t : HashTable}

theorem Imported.found (h : Imported environ t) {e : Entry} (he : e ∈ environ) :
    ∃ n, htFind t e.name = some n ∧ n.value = e.value :=
  Option.map_eq_some_iff.mp (h.values e he)

/-- An import that is right was granted all its resizes. -/
theorem Imported.room (hnames : (environ.map Entry.name).Nodup)
    (h : Imported environ (putAll htNew (environ.map Entry.put))) :
    ∀ i < (environ.map Entry.put).length, resizes i = true → (growth i).2 * 2 < maxCapacity := by
  by_contra hrefused
  obtain ⟨n, hn, hlost⟩ := exists_lost (keys_put environ ▸ hnames) hrefused
  obtain ⟨e, he, rfl⟩ := List.mem_map.mp hn
  obtain ⟨m, hm, -⟩ := h.found he
  exact Option.some_ne_none m (hm.symm.trans hlost)

theorem imported_iff (hnames : (environ.map Entry.name).Nodup)
    (hread : ∀ e ∈ environ, e.read.isSome = true) :
    Imported environ (putAll htNew (environ.map Entry.put)) ↔
      (∀ e ∈ environ, e.read = some e.value) ∧ Refills (environ.map Entry.node) := by
  have hkeys : ((environ.map Entry.put).map BucketNode.key).Nodup := keys_put environ ▸ hnames
  constructor
  · intro h
    have hroom := h.room hnames
    have hfilled := filled_putAll _ hkeys hroom
    have hfind := fun e (he : e ∈ environ) =>
      hfilled.htFind_of_mem hkeys (List.mem_map_of_mem (f := Entry.put) he)
    have hvalues : ∀ e ∈ environ, e.read = some e.value := by
      intro e he
      obtain ⟨m, hm, hvalue⟩ := h.found he
      have hput := hfind e he
      have hname : e.put.key = e.name := rfl
      rw [hname, hm] at hput
      split at hput
      · cases hput
      · obtain rfl := Option.some.inj hput
        obtain ⟨text, htext⟩ := Option.isSome_iff_exists.mp (hread e he)
        rw [← hvalue, Entry.put, htext]
        rfl
    have hnodes : environ.map Entry.put = environ.map Entry.node :=
      List.map_congr_left fun e he => e.put_eq_node (hvalues e he)
    refine ⟨hvalues, hnodes ▸ ⟨hroom, ?_⟩⟩
    cases hdisplaced : displaced (environ.map Entry.put) with
    | none => rfl
    | some k =>
      obtain ⟨n, hn, rfl⟩ := List.mem_map.mp (displaced_mem hdisplaced)
      obtain ⟨e, he, rfl⟩ := List.mem_map.mp hn
      obtain ⟨m, hm, -⟩ := h.found he
      have hlost := hfind e he
      rw [if_pos hdisplaced] at hlost
      exact absurd (hm.symm.trans hlost) (Option.some_ne_none m)
  · intro h
    obtain ⟨hvalues, hrefills⟩ := h
    have hnodes : environ.map Entry.put = environ.map Entry.node :=
      List.map_congr_left fun e he => e.put_eq_node (hvalues e he)
    rw [hnodes] at hkeys ⊢
    have hfilled := filled_putAll _ hkeys hrefills.1
    have hfind : ∀ e ∈ environ,
        htFind (putAll htNew (environ.map Entry.node)) e.name = some e.node := by
      intro e he
      have hnode := hfilled.htFind_of_mem hkeys (List.mem_map_of_mem (f := Entry.node) he)
      rwa [hrefills.2, if_neg (Option.some_ne_none _).symm] at hnode
    refine ⟨fun e he => ?_, fun e he => ?_, fun name hname => ?_⟩
    · rw [htGet, hfind e he]
      rfl
    · rw [htGetExported, hfind e he]
      rfl
    · have hother : name ∉ (environ.map Entry.node).map BucketNode.key := by
        rwa [List.map_map]
      rw [htContains, htGet, hfilled.htFind_of_not_mem hother]
      rfl

/-- **When the shell starts with its environment.** For different names it does exactly
when the byte behind every value happens to be NUL in its block, every resize on the way is
granted, and the last of them displaces no name. -/
theorem varInitFromEnviron_imports_iff (hnames : (environ.map Entry.name).Nodup) :
    (∃ t, varInitFromEnviron (environ.map Entry.raw) htNew = some t ∧ Imported environ t) ↔
      (∀ e ∈ environ, e.new.2 e.value.length = 0) ∧ Refills (environ.map Entry.node) := by
  have hzero : (∀ e ∈ environ, e.new.2 e.value.length = 0) ↔
      ∀ e ∈ environ, e.read = some e.value :=
    forall₂_congr fun e _ => e.read_iff.symm
  rw [hzero]
  constructor
  · intro h
    obtain ⟨t, hinit, himported⟩ := h
    obtain ⟨hread, rfl⟩ := (varInitFromEnviron_iff environ htNew t).mp hinit
    exact (imported_iff hnames hread).mp himported
  · intro h
    have hread : ∀ e ∈ environ, e.read.isSome = true := by
      intro e he
      rw [h.1 e he]
      rfl
    exact ⟨_, (varInitFromEnviron_iff environ htNew _).mpr ⟨hread, rfl⟩,
      (imported_iff hnames hread).mpr h⟩

/-- `a=1` and `b=2` in blocks of zeros. -/
theorem varInitFromEnviron_imports_two : ∃ environ t,
    environ.map (fun e => e.setting.text) = [str "a=1", str "b=2"] ∧
      varInitFromEnviron (environ.map Entry.raw) htNew = some t ∧ Imported environ t := by
  let zeros : Cells × Cells := (fun _ => 0, fun _ => 0)
  let a : Entry := ⟨⟨str "a", str "1", by decide, by decide, by decide⟩, zeros⟩
  let b : Entry := ⟨⟨str "b", str "2", by decide, by decide, by decide⟩, zeros⟩
  have hnames : ([a, b].map Entry.name).Nodup := by decide
  obtain ⟨t, hinit, himported⟩ := (varInitFromEnviron_imports_iff hnames).mpr
    ⟨List.forall_mem_cons.mpr ⟨rfl, List.forall_mem_singleton.mpr rfl⟩,
      refills_of_length_le (by decide)⟩
  exact ⟨[a, b], t, rfl, hinit, himported⟩

/-! ## Every lookup of every run -/

/-- What is done to the table. -/
inductive Event
  | entry (ei : Str) (new : Cells × Cells)
  | varAssign (name value : Str)
  | varExport (name value : Str)
  | varUnassign (name : Str)
  | forkExported

/-- The node that goes into the table. -/
def Event.put : Event → Option BucketNode
  | .entry ei new => do
    let buf := assignmentSplit new ei
    return ⟨← buf.1.cstr, ← buf.2.cstr, true⟩
  | .varAssign name value => some ⟨name, value, false⟩
  | .varExport name value => some ⟨name, value, true⟩
  | .varUnassign _ => none
  | .forkExported => none

/-- A call that returns. -/
def Returns (t : HashTable) : Event → HashTable → Prop
  | .entry ei new, t' => varInitFromEnviron [(ei, new)] t = some t'
  | .varAssign name value, t' => t' = varAssign t name value
  | .varExport name value, t' => t' = varExport t name value
  | .varUnassign name, t' => ∃ result, varUnassign t name = some (result, t')
  | .forkExported, t' => ∃ items m, forkExported { table := t, items := items } = some m ∧
      m.table = t'

/-- One of the calls has put the node. -/
def Put (steps : List (HashTable × Event)) (n : BucketNode) : Prop :=
  ∃ step ∈ steps, step.2.put = some n

/-- The table gives nothing that has not been put into it: a value only under the name
that it was put under, or under the front of it in `var_lookupn`; and no name is exported
that was not put so with the value it has. -/
structure Genuine (steps : List (HashTable × Event)) (t : HashTable) : Prop where
  lookup : ∀ name value, htGet t name = some value →
    ∃ exported, Put steps ⟨name, value, exported⟩
  lookupn : ∀ name count value, count ≤ name.length → htGetn t name count = some value →
    ∃ whole exported, name.take count <+: whole ∧ Put steps ⟨whole, value, exported⟩
  exported : ∀ name, htGetExported t name = some true →
    ∃ value, htGet t name = some value ∧ Put steps ⟨name, value, true⟩

/-! ### The nodes behind a call -/

variable {n new : BucketNode}

theorem mem_putAt {hash : Nat} (h : n ∈ (putAt t hash new).nodes) : n = new ∨ n ∈ t.nodes := by
  obtain ⟨b, hb, hn⟩ := List.mem_flatMap.mp h
  obtain ⟨i, hi⟩ := List.mem_iff_getElem?.mp hb
  simp only [putAt, List.getElem?_modify] at hi
  obtain ⟨old, hold, rfl⟩ := Option.map_eq_some_iff.mp hi
  have hmem : old ∈ t.buckets := List.mem_of_getElem? hold
  split at hn
  · obtain hnew | hnode := mem_chainPut hn
    · exact .inl hnew
    · exact .inr (List.mem_flatMap.mpr ⟨old, hmem, hnode⟩)
  · exact .inr (List.mem_flatMap.mpr ⟨old, hmem, hn⟩)

theorem mem_foldl {f : HashTable → BucketNode → HashTable}
    (hf : ∀ t new, ∀ n ∈ (f t new).nodes, n = new ∨ n ∈ t.nodes) (ns : List BucketNode)
    {t : HashTable} (h : n ∈ (ns.foldl f t).nodes) : n ∈ ns ∨ n ∈ t.nodes := by
  induction ns generalizing t with
  | nil => exact .inr h
  | cons m ns ih =>
    obtain hns | hstep := ih h
    · exact .inl (List.mem_cons_of_mem m hns)
    · obtain rfl | hold := hf t m n hstep
      · exact .inl List.mem_cons_self
      · exact .inr hold

/-- By the depth of the resizes: one puts only nodes that are in the table. -/
theorem mem_htPutDepth (depth : Nat) (t : HashTable) (new : BucketNode) :
    ∀ n ∈ (htPutDepth depth t new).nodes, n = new ∨ n ∈ t.nodes := by
  induction depth generalizing t new with
  | zero => exact fun n h => .inr h
  | succ depth ih =>
    intro n h
    rw [htPutDepth] at h
    split at h
    · unfold hashtableResize at h
      split at h
      · rename_i hrefused
        exact .inr h
      · rename_i t' hresize
        split at hresize
        · cases hresize
        · obtain rfl := Option.some.inj hresize
          obtain hnew | hmem := mem_putAt h
          · exact .inl hnew
          · obtain hold | hempty := mem_foldl ih _ hmem
            · exact .inr hold
            · have hnil : (emptied t (t.capacity * 2)).nodes = [] := emptied_nodes t _
              rw [emptied] at hnil
              rw [hnil] at hempty
              cases hempty
    · exact mem_putAt h

theorem mem_unlink {key : Str} {nodes nodes' : List BucketNode} (h : unlink key nodes = some nodes')
    (hn : n ∈ nodes') : n ∈ nodes := by
  induction nodes generalizing nodes' with
  | nil =>
    obtain rfl := Option.some.inj h
    exact hn
  | cons m nodes ih =>
    rw [unlink] at h
    split at h
    · split at h
      · cases h
      · obtain rfl := Option.some.inj h
        exact List.mem_cons_of_mem m hn
    · obtain ⟨rest, hrest, rfl⟩ := Option.map_eq_some_iff.mp h
      obtain rfl | hn := List.mem_cons.mp hn
      · exact List.mem_cons_self
      · exact List.mem_cons_of_mem m (ih hrest hn)

theorem mem_htRemove {t' : HashTable} {key : Str} (h : htRemove t key = some t')
    (hmem : n ∈ t'.nodes) : n ∈ t.nodes := by
  obtain ⟨found, -, h⟩ := Option.bind_eq_some_iff.mp h
  obtain ⟨b, hb, rfl⟩ := Option.map_eq_some_iff.mp h
  obtain ⟨b', hb', hn⟩ := List.mem_flatMap.mp hmem
  obtain hold | rfl := List.mem_or_eq_of_mem_set hb'
  · exact List.mem_flatMap.mpr ⟨b', hold, hn⟩
  · have hchain : n ∈ t.chain (slot key t.capacity) := by
      unfold blistRemove at hb
      split at hb
      · obtain rfl := Option.some.inj hb
        exact hn
      · obtain ⟨nodes, hunlink, rfl⟩ := Option.map_eq_some_iff.mp hb
        exact mem_unlink hunlink hn
    exact (chain_sublist_nodes t _).subset hchain

/-! ### Runs -/

variable {t' : HashTable}

theorem mem_htPut {key value : Str} {exported : Bool} (h : n ∈ (htPut t key value exported).nodes) :
    n = ⟨key, value, exported⟩ ∨ n ∈ t.nodes :=
  mem_htPutDepth 31 t _ n h

/-- An entry is put as its two parts read. -/
theorem returns_entry {ei : Str} {new : Cells × Cells} (h : Returns t (.entry ei new) t') :
    ∃ name value, (Event.entry ei new).put = some ⟨name, value, true⟩ ∧
      t' = varExport t name value := by
  obtain ⟨name, hname, h⟩ := Option.bind_eq_some_iff.mp h
  obtain ⟨value, hvalue, h⟩ := Option.bind_eq_some_iff.mp h
  refine ⟨name, value, ?_, (Option.some.inj h).symm⟩
  simp only [Event.put, hname, hvalue]
  rfl

theorem returns_fork (hz : ∃ j, Sized j t) (h : Returns t .forkExported t') :
    t' = putAll htNew (exportedNodes t) := by
  obtain ⟨items, m, hfork, rfl⟩ := h
  obtain ⟨j, hz⟩ := hz
  obtain ⟨items', heq⟩ := forkExported_eq items hz.length
  rw [Option.some.inj (hfork.symm.trans heq)]

theorem sized_putAll (ns : List BucketNode) {t : HashTable} (hz : ∃ j, Sized j t) :
    ∃ j, Sized j (putAll t ns) := by
  induction ns generalizing t with
  | nil => exact hz
  | cons n ns ih => exact ih (@sized_call _ _ (.put n.key n.value n.exported) hz rfl)

theorem sized_returns {e : Event} (hz : ∃ j, Sized j t) (h : Returns t e t') :
    ∃ j, Sized j t' := by
  cases e with
  | entry ei new =>
    obtain ⟨name, value, -, rfl⟩ := returns_entry h
    exact @sized_call _ _ (.put name value true) hz rfl
  | varAssign name value => exact @sized_call _ _ (.put name value false) hz h
  | varExport name value => exact @sized_call _ _ (.put name value true) hz h
  | varUnassign name =>
    obtain ⟨result, h⟩ := h
    unfold varUnassign at h
    split at h
    · obtain ⟨removed, hremove, heq⟩ := Option.map_eq_some_iff.mp h
      obtain rfl := congrArg Prod.snd heq
      exact @sized_call _ _ (.remove name) hz hremove
    · obtain rfl := congrArg Prod.snd (Option.some.inj h)
      exact hz
  | forkExported =>
    obtain rfl := returns_fork hz h
    exact sized_putAll _ ⟨0, sized_new⟩

/-- A call leaves no node but its own and those it finds. -/
theorem mem_returns {e : Event} (hz : ∃ j, Sized j t) (h : Returns t e t') (hn : n ∈ t'.nodes) :
    e.put = some n ∨ n ∈ t.nodes := by
  cases e with
  | entry ei new =>
    obtain ⟨name, value, hput, rfl⟩ := returns_entry h
    obtain rfl | hold := mem_htPut hn
    · exact .inl hput
    · exact .inr hold
  | varAssign name value =>
    obtain rfl := h
    obtain rfl | hold := mem_htPut hn
    · exact .inl rfl
    · exact .inr hold
  | varExport name value =>
    obtain rfl := h
    obtain rfl | hold := mem_htPut hn
    · exact .inl rfl
    · exact .inr hold
  | varUnassign name =>
    obtain ⟨result, h⟩ := h
    unfold varUnassign at h
    split at h
    · obtain ⟨removed, hremove, heq⟩ := Option.map_eq_some_iff.mp h
      obtain rfl := congrArg Prod.snd heq
      exact .inr (mem_htRemove hremove hn)
    · obtain rfl := congrArg Prod.snd (Option.some.inj h)
      exact .inr hn
  | forkExported =>
    obtain rfl := returns_fork hz h
    obtain hexported | hnew := mem_foldl (fun _ _ _ => mem_htPut) _ hn
    · exact .inr (List.mem_filter.mp hexported).1
    · cases hnew

/-- By induction on the run. -/
theorem put_of_mem {steps : List (HashTable × Event)} (hz : ∃ j, Sized j t)
    (h : Runs.Path Returns t steps t') (hn : n ∈ t'.nodes) : Put steps n ∨ n ∈ t.nodes := by
  induction h with
  | done => exact .inr hn
  | @next s s' u e steps hfirst hrest ih =>
    obtain ⟨step, hstep, hput⟩ | hold := ih (sized_returns hz hfirst) hn
    · exact .inl ⟨step, List.mem_cons_of_mem _ hstep, hput⟩
    · obtain hput | hmem := mem_returns hz hfirst hold
      · exact .inl ⟨(s, e), List.mem_cons_self, hput⟩
      · exact .inr hmem

/-- **Variables may be lost, but they are not mixed up**, in any run of imports,
assignments, exports, removals and forks, resizes and overwrites included. -/
theorem genuine_of_run {steps : List (HashTable × Event)} (h : Runs.Path Returns htNew steps t) :
    Genuine steps t := by
  have hput : ∀ i, ∀ n ∈ t.chain i, Put steps n := by
    intro i n hn
    obtain hput | hnew := put_of_mem ⟨0, sized_new⟩ h ((chain_sublist_nodes t i).subset hn)
    · exact hput
    · cases hnew
  have hfound : ∀ name n, htFind t name = some n → n.key = name ∧ Put steps n := by
    intro name n hfind
    exact ⟨by simpa using List.find?_some hfind, hput _ n (List.mem_of_find?_eq_some hfind)⟩
  refine ⟨fun name value hget => ?_, fun name count value hcount hget => ?_, fun name hget => ?_⟩
  · obtain ⟨n, hfind, rfl⟩ := Option.map_eq_some_iff.mp hget
    obtain ⟨rfl, hn⟩ := hfound name n hfind
    exact ⟨n.exported, hn⟩
  · obtain ⟨n, hfind, rfl⟩ := Option.map_eq_some_iff.mp hget
    have hstarts := List.find?_some hfind
    have hfront : name.take count <+: n.key := by
      rw [← strncmpEq_iff_prefix hcount]
      exact hstarts
    exact ⟨n.key, n.exported, hfront, hput _ n (List.mem_of_find?_eq_some hfind)⟩
  · obtain ⟨n, hfind, hexported⟩ := Option.map_eq_some_iff.mp hget
    obtain ⟨rfl, hn⟩ := hfound name n hfind
    refine ⟨n.value, by rw [htGet, hfind]; rfl, ?_⟩
    rw [← hexported]
    exact hn

/-- `a` is imported and assigned, and the fork drops what is not exported. -/
theorem genuine_of_run_forked : ∃ steps t, Runs.Path Returns htNew steps t ∧ steps.length = 3 ∧
    Genuine steps t := by
  let zeros : Cells × Cells := (fun _ => 0, fun _ => 0)
  have hname : (assignmentSplit zeros (str "a=1")).1.cstr = some (str "a") := by decide
  have hvalue : (assignmentSplit zeros (str "a=1")).2.cstr = some (str "1") := by decide
  have hentry : Returns htNew (.entry (str "a=1") zeros) (varExport htNew (str "a") (str "1")) := by
    simp only [Returns, varInitFromEnviron, hname, hvalue, Option.bind_eq_bind, Option.bind_some,
      varExport]
  have hassign : Returns (varExport htNew (str "a") (str "1")) (.varAssign (str "a") (str "2"))
      (varAssign (varExport htNew (str "a") (str "1")) (str "a") (str "2")) := rfl
  generalize varAssign (varExport htNew (str "a") (str "1")) (str "a") (str "2") = t at hassign
  obtain ⟨j, hz⟩ := sized_returns (sized_returns ⟨0, sized_new⟩ hentry) hassign
  obtain ⟨items, hfork⟩ := forkExported_eq [] hz.length
  have hforked : Returns t .forkExported (putAll htNew (exportedNodes t)) := ⟨[], _, hfork, rfl⟩
  have hrun := Runs.Path.next hentry (.next hassign (.next hforked .done))
  exact ⟨_, _, hrun, rfl, genuine_of_run hrun⟩

end Shell.VariableTable
