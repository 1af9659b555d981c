import DistKvRaft.MapReduce.Records
import Mathlib.Data.List.Count

/-!
# The MapReduce coordinator

The coordinator hands out map tasks in order, opens the reduce phase once its counter of finished
map tasks reaches the number of input files, and records the tasks that were reported.  Each
handler is one step here.  `Valid` ties the counters, the completion flags and the two phases
together, and every handler keeps it.

`CheckLastMapDone` and `CheckLastReduceDone` are one function of the kind of task, and so are the
fields they use.
-/

namespace DistKvRaft.MapReduce

open Go

structure MapReply where
  nReduce : ℕ
  filename : GoString
  maptaskId : ℕ
  deriving DecidableEq

structure ReduceReply where
  reducetaskId : ℕ
  reducefiles : List GoString
  deriving DecidableEq

/-- The answer to a request for a task: the error `io.EOF`, the task number `-1`, or a task. -/
inductive Answer (Reply : Type)
  | eof
  | notReady
  | task (reply : Reply)
  deriving DecidableEq

structure Coordinator where
  filenames : List GoString
  counterMap : ℕ
  counterReduce : ℕ
  nReduce : ℕ
  doneMap : ℕ
  doneReduce : ℕ
  workerBook : List (ℕ × GoString)
  mapComplete : List Bool
  reduceComplete : List Bool

def makeCoordinator (files : List GoString) (nReduce : ℕ) : Coordinator where
  filenames := files
  counterMap := 0
  counterReduce := 0
  nReduce := nReduce
  doneMap := 0
  doneReduce := 0
  workerBook := []
  mapComplete := List.replicate files.length false
  reduceComplete := List.replicate nReduce false

/-- The socket a worker listens on. -/
def workerSocket (pid : ℕ) : GoString := ascii "/var/tmp/5840-mr-w-" ++ itoa pid

namespace Coordinator

variable (c : Coordinator)

/-! ## Fields by kind of task -/

/-- The number of tasks of a kind. -/
def size : Kind → ℕ
  | .map => c.filenames.length
  | .reduce => c.nReduce

/-- The number of tasks of a kind that were handed out. -/
def counter : Kind → ℕ
  | .map => c.counterMap
  | .reduce => c.counterReduce

/-- The completion flags of a kind. -/
def complete : Kind → List Bool
  | .map => c.mapComplete
  | .reduce => c.reduceComplete

/-- The counter of finished tasks of a kind. -/
def doneCount : Kind → ℕ
  | .map => c.doneMap
  | .reduce => c.doneReduce

/-- Store `true` in the flag of a task. -/
def markComplete (task : Task) : Coordinator :=
  match task.kind with
  | .map => { c with mapComplete := c.mapComplete.set task.id true }
  | .reduce => { c with reduceComplete := c.reduceComplete.set task.id true }

/-- Add one to the counter of finished tasks. -/
def countDone : Kind → Coordinator
  | .map => { c with doneMap := c.doneMap + 1 }
  | .reduce => { c with doneReduce := c.doneReduce + 1 }

/-- The flag of the task is set. -/
def IsComplete (task : Task) : Prop := (c.complete task.kind)[task.id]? = some true

instance (task : Task) : Decidable (c.IsComplete task) := inferInstanceAs (Decidable (_ = _))

/-! ## Handlers -/

/-- `Done`. -/
def done : Bool := c.doneMap = c.filenames.length ∧ c.doneReduce = c.nReduce

def registerWorker (workerId : ℕ) (workerAddr : GoString) : Coordinator :=
  { c with
    workerBook := (workerId, workerAddr) :: c.workerBook.filter fun entry ↦ entry.1 ≠ workerId }

/-- The part of `GiveMapTask` under the lock; `none` where the index is out of range. -/
def giveMapTaskLocked : Option (Coordinator × MapReply) :=
  (c.filenames[c.counterMap]?).map fun filename ↦
    ({ c with counterMap := c.counterMap + 1 }, ⟨c.nReduce, filename, c.counterMap⟩)

/-- `GiveMapTask`. -/
def giveMapTask : Option (Coordinator × Answer MapReply) :=
  if c.counterMap ≥ c.filenames.length then some (c, .eof)
  else c.giveMapTaskLocked.map fun given ↦ (given.1, .task given.2)

/-- The part of `GiveReduceTask` under the lock. -/
def giveReduceTaskLocked : Coordinator × ReduceReply :=
  ({ c with counterReduce := c.counterReduce + 1 },
    ⟨c.counterReduce, reduceFiles c.counterMap c.counterReduce⟩)

/-- `GiveReduceTask`. -/
def giveReduceTask : Coordinator × Answer ReduceReply :=
  if ¬ c.doneMap = c.filenames.length then (c, .notReady)
  else if c.counterReduce ≥ c.nReduce then (c, .eof)
  else (c.giveReduceTaskLocked.1, .task c.giveReduceTaskLocked.2)

/-- `CheckLastMapDone` and `CheckLastReduceDone`: record a reported task, and say whether all tasks
of its kind are finished; `none` where the index is out of range. -/
def checkLastDone (task : Task) : Option (Coordinator × Bool) :=
  ((c.complete task.kind)[task.id]?).map fun flag ↦
    let c' := if flag then c else (c.markComplete task).countDone task.kind
    (c', c'.doneCount task.kind = c'.size task.kind)

def checkLastMapDone (maptaskId : ℕ) : Option (Coordinator × Bool) :=
  c.checkLastDone (.map maptaskId)

def checkLastReduceDone (reducetaskId : ℕ) : Option (Coordinator × Bool) :=
  c.checkLastDone (.reduce reducetaskId)

/-- The visit of `worker_book`: the first worker that answers a dial, and those that did not. -/
def probe (dials : ℕ → Bool) : List (ℕ × GoString) → Option (ℕ × GoString) × List ℕ
  | [] => (none, [])
  | entry :: entries =>
    if dials entry.1 then (some entry, [])
    else ((probe dials entries).1, entry.1 :: (probe dials entries).2)

/-- `callWorker` up to the sending of the request: the worker that is called, and `none` where the
coordinator ends in `log.Fatal`.  The book is visited in the order `visit`; `dials` tells who
answers the probing dial and `redials` who answers the second one. -/
def callWorker (dials redials : ℕ → Bool) (visit : List (ℕ × GoString)) :
    Coordinator × Option ℕ :=
  let (chosen, toDelete) := probe dials visit
  let c' := { c with workerBook := c.workerBook.filter fun entry ↦ entry.1 ∉ toDelete }
  match chosen with
  | none => (c', none)
  | some (pid, addr) => if addr ≠ [] ∧ redials pid then (c', some pid) else (c', none)

/-! ## What the two halves of a report change -/

section Report

variable {c} (task : Task) (kind kind' : Kind)

@[simp]
theorem complete_markComplete : (c.markComplete task).complete kind =
    if kind = task.kind then (c.complete kind).set task.id true else c.complete kind := by
  obtain ⟨kind', id⟩ := task
  cases kind <;> cases kind' <;> rfl

@[simp]
theorem doneCount_markComplete : (c.markComplete task).doneCount kind = c.doneCount kind := by
  obtain ⟨kind', id⟩ := task
  cases kind <;> cases kind' <;> rfl

@[simp]
theorem size_markComplete : (c.markComplete task).size kind = c.size kind := by
  obtain ⟨kind', id⟩ := task
  cases kind <;> cases kind' <;> rfl

@[simp]
theorem complete_countDone : (c.countDone kind').complete kind = c.complete kind := by
  cases kind <;> cases kind' <;> rfl

@[simp]
theorem doneCount_countDone : (c.countDone kind').doneCount kind =
    if kind = kind' then c.doneCount kind + 1 else c.doneCount kind := by
  cases kind <;> cases kind' <;> rfl

@[simp]
theorem size_countDone : (c.countDone kind').size kind = c.size kind := by
  cases kind <;> cases kind' <;> rfl

end Report

/-! ## The invariant of the handlers -/

/-- Counters, flags and phases fit together. -/
structure Valid : Prop where
  counter_le : ∀ kind, c.counter kind ≤ c.size kind
  length_complete : ∀ kind, (c.complete kind).length = c.size kind
  doneCount_eq : ∀ kind, c.doneCount kind = (c.complete kind).count true
  id_lt : ∀ task, c.IsComplete task → task.id < c.counter task.kind
  phases : 0 < c.counterReduce → c.doneMap = c.filenames.length
  addresses : ∀ entry ∈ c.workerBook, entry.2 ≠ []

variable {c} {task : Task} {kind : Kind}

theorem valid_makeCoordinator (files : List GoString) (nReduce : ℕ) :
    (makeCoordinator files nReduce).Valid where
  counter_le kind := by cases kind <;> simp [counter, makeCoordinator]
  length_complete kind := by cases kind <;> simp [complete, size, makeCoordinator]
  doneCount_eq kind := by
    cases kind <;> simp [complete, doneCount, makeCoordinator, List.count_replicate]
  id_lt task h := by
    obtain ⟨kind, id⟩ := task
    cases kind <;> simp [IsComplete, complete, makeCoordinator, List.getElem?_replicate] at h
  phases h := by simp [makeCoordinator] at h
  addresses := by simp [makeCoordinator]

/-- When the counter of finished tasks reaches their number, every flag is set. -/
theorem Valid.isComplete_of_doneCount (hc : c.Valid) (h : c.doneCount kind = c.size kind) {id : ℕ}
    (hid : id < c.size kind) : c.IsComplete ⟨kind, id⟩ := by
  have hall : ∀ flag ∈ c.complete kind, true = flag := by
    rw [← List.count_eq_length, ← hc.doneCount_eq, h, hc.length_complete]
  have hlt : id < (c.complete kind).length := by rwa [hc.length_complete]
  rw [IsComplete, List.getElem?_eq_getElem hlt, ← hall _ (List.getElem_mem hlt)]

/-- The job is done exactly when all flags are set. -/
theorem Valid.done_iff (hc : c.Valid) :
    c.done = true ↔ ∀ kind, ∀ id < c.size kind, c.IsComplete ⟨kind, id⟩ := by
  have hdone : c.done = true ↔ ∀ kind, c.doneCount kind = c.size kind := by
    rw [done, decide_eq_true_iff]
    exact ⟨fun h kind ↦ by cases kind; exacts [h.1, h.2], fun h ↦ ⟨h .map, h .reduce⟩⟩
  rw [hdone]
  refine ⟨fun h kind id hid ↦ hc.isComplete_of_doneCount (h kind) hid, fun h kind ↦ ?_⟩
  rw [hc.doneCount_eq, ← hc.length_complete, List.count_eq_length]
  intro flag hflag
  obtain ⟨id, hid, rfl⟩ := List.getElem_of_mem hflag
  have hset : (c.complete kind)[id]? = some true := h kind id (hc.length_complete kind ▸ hid)
  rw [List.getElem?_eq_getElem hid] at hset
  exact (Option.some.inj hset).symm

/-- When all tasks of a kind are finished, all were handed out. -/
theorem Valid.counter_eq_of_doneCount (hc : c.Valid) (h : c.doneCount kind = c.size kind) :
    c.counter kind = c.size kind := by
  refine Nat.le_antisymm (hc.counter_le kind) ?_
  by_contra hlt
  have hcomplete : c.IsComplete ⟨kind, c.counter kind⟩ := hc.isComplete_of_doneCount h (by omega)
  exact lt_irrefl _ (hc.id_lt _ hcomplete)

/-- In the reduce phase all map tasks are complete. -/
theorem Valid.isComplete_map (hc : c.Valid) (h : 0 < c.counterReduce) {i : ℕ}
    (hi : i < c.filenames.length) : c.IsComplete (.map i) := by
  have hdone : c.doneCount .map = c.size .map := hc.phases h
  exact hc.isComplete_of_doneCount hdone hi

/-- The files of a reduce task are those of all map tasks. -/
theorem Valid.reducefiles_eq (hc : c.Valid) (hmap : c.doneMap = c.filenames.length) :
    c.giveReduceTaskLocked.2.reducefiles = reduceFiles c.filenames.length c.counterReduce := by
  have hcounter : c.counter .map = c.size .map := hc.counter_eq_of_doneCount hmap
  exact congrArg (reduceFiles · c.counterReduce) hcounter

theorem Valid.registerWorker (hc : c.Valid) (workerId : ℕ) {workerAddr : GoString}
    (haddr : workerAddr ≠ []) : (c.registerWorker workerId workerAddr).Valid where
  counter_le := hc.counter_le
  length_complete := hc.length_complete
  doneCount_eq := hc.doneCount_eq
  id_lt := hc.id_lt
  phases := hc.phases
  addresses entry hentry := by
    rcases List.mem_cons.mp hentry with rfl | hentry
    · exact haddr
    · exact hc.addresses entry (List.mem_filter.mp hentry).1

theorem Valid.giveMapTaskLocked (hc : c.Valid) {c' : Coordinator} {reply : MapReply}
    (h : c.giveMapTaskLocked = some (c', reply)) : c'.Valid := by
  obtain ⟨filename, hfilename, heq⟩ := Option.map_eq_some_iff.mp h
  cases heq
  have hlt := (List.getElem?_eq_some_iff.mp hfilename).1
  refine ⟨fun kind ↦ ?_, hc.length_complete, hc.doneCount_eq, fun task htask ↦ ?_, hc.phases,
    hc.addresses⟩
  · cases kind with
    | map => exact hlt
    | reduce => exact hc.counter_le .reduce
  · have hid := hc.id_lt task htask
    obtain ⟨kind, id⟩ := task
    cases kind with
    | map => exact Nat.lt_succ_of_lt hid
    | reduce => exact hid

theorem Valid.giveReduceTaskLocked (hc : c.Valid) (hmap : c.doneMap = c.filenames.length)
    (hlt : c.counterReduce < c.nReduce) : c.giveReduceTaskLocked.1.Valid := by
  refine ⟨fun kind ↦ ?_, hc.length_complete, hc.doneCount_eq, fun task htask ↦ ?_, fun _ ↦ hmap,
    hc.addresses⟩
  · cases kind with
    | map => exact hc.counter_le .map
    | reduce => exact hlt
  · have hid := hc.id_lt task htask
    obtain ⟨kind, id⟩ := task
    cases kind with
    | map => exact hid
    | reduce => exact Nat.lt_succ_of_lt hid

/-- A report of a task that was recorded before changes nothing; the first one sets the flag and
counts it. -/
theorem checkLastDone_eq_some {c' : Coordinator} {all : Bool}
    (h : c.checkLastDone task = some (c', all)) :
    c.IsComplete task ∧ c' = c ∨ (c.complete task.kind)[task.id]? = some false ∧
      c' = (c.markComplete task).countDone task.kind := by
  obtain ⟨flag, hflag, heq⟩ := Option.map_eq_some_iff.mp h
  cases heq
  cases flag with
  | true => exact Or.inl ⟨hflag, rfl⟩
  | false => exact Or.inr ⟨hflag, rfl⟩

/-- After the report of a task of the job, its flag is set and the others are as before. -/
theorem isComplete_checkLastDone {c' : Coordinator} {all : Bool}
    (h : c.checkLastDone task = some (c', all)) (other : Task) :
    c'.IsComplete other ↔ other = task ∨ c.IsComplete other := by
  rcases checkLastDone_eq_some h with ⟨hcomplete, rfl⟩ | ⟨hflag, rfl⟩
  · constructor
    · exact Or.inr
    · rintro (rfl | hother)
      · exact hcomplete
      · exact hother
  · have hlt := (List.getElem?_eq_some_iff.mp hflag).1
    obtain ⟨kind, id⟩ := task
    obtain ⟨kind', id'⟩ := other
    by_cases hkind : kind' = kind
    · subst hkind
      by_cases hid : id' = id
      · subst hid
        simp [IsComplete, List.getElem?_set_self hlt]
      · simp [IsComplete, List.getElem?_set_ne (Ne.symm hid), hid]
    · simp [IsComplete, hkind]

/-- A report leaves everything but the flags and the counters of finished tasks alone. -/
theorem checkLastDone_frame {c' : Coordinator} {all : Bool}
    (h : c.checkLastDone task = some (c', all)) :
    ∃ doneMap doneReduce mapComplete reduceComplete,
      c' = { c with doneMap, doneReduce, mapComplete, reduceComplete } := by
  rcases checkLastDone_eq_some h with ⟨-, rfl⟩ | ⟨-, rfl⟩
  · exact ⟨_, _, _, _, rfl⟩
  · obtain ⟨kind, id⟩ := task
    cases kind <;> exact ⟨_, _, _, _, rfl⟩

/-- The first report of a task adds one to the set flags and one to the counter. -/
theorem Valid.doneCount_report (hc : c.Valid)
    (hflag : (c.complete task.kind)[task.id]? = some false)
    (kind : Kind) : ((c.markComplete task).countDone task.kind).doneCount kind =
      (((c.markComplete task).countDone task.kind).complete kind).count true := by
  obtain ⟨hlt, hget⟩ := List.getElem?_eq_some_iff.mp hflag
  by_cases hkind : kind = task.kind
  · subst hkind
    simp [hc.doneCount_eq, List.count_set hlt, hget]
  · simp [hkind, hc.doneCount_eq]

theorem Valid.checkLastDone (hc : c.Valid) (hid : task.id < c.counter task.kind) {c' : Coordinator}
    {all : Bool} (h : c.checkLastDone task = some (c', all)) : c'.Valid := by
  have hcomplete := isComplete_checkLastDone h
  obtain ⟨_, _, _, _, hframe⟩ := checkLastDone_frame h
  have hcounter (kind : Kind) : c'.counter kind = c.counter kind := by
    cases kind <;> rw [hframe] <;> rfl
  rcases checkLastDone_eq_some h with ⟨-, rfl⟩ | ⟨hflag, hc'⟩
  · exact hc
  refine ⟨fun kind ↦ ?_, fun kind ↦ ?_, fun kind ↦ ?_, fun other hother ↦ ?_, fun hpos ↦ ?_, ?_⟩
  · rw [hcounter, hc']
    simpa using hc.counter_le kind
  · rw [hc']
    have hlength := hc.length_complete kind
    by_cases hkind : kind = task.kind
    · simpa [hkind] using hkind ▸ hlength
    · simpa [hkind] using hlength
  · rw [hc']
    exact hc.doneCount_report hflag kind
  · rw [hcounter]
    rcases (hcomplete other).mp hother with rfl | hother
    · exact hid
    · exact hc.id_lt other hother
  · have hpos' : 0 < c.counterReduce := by rw [hframe] at hpos; exact hpos
    obtain ⟨kind, id⟩ := task
    cases kind with
    | map =>
      -- All flags of map tasks are set in the reduce phase, so this was not a first report.
      have hlt : id < c.filenames.length := hid.trans_le (hc.counter_le .map)
      have hset : c.IsComplete (.map id) := hc.isComplete_map hpos' hlt
      exact absurd (hflag.symm.trans hset) (by simp)
    | reduce => rw [hc']; exact hc.phases hpos'
  · rw [hframe]
    exact hc.addresses

theorem callWorker_fst (dials redials : ℕ → Bool) (visit : List (ℕ × GoString)) :
    (c.callWorker dials redials visit).1 =
      { c with workerBook := c.workerBook.filter fun entry ↦ entry.1 ∉ (probe dials visit).2 } := by
  unfold callWorker
  dsimp only
  split
  · rfl
  · split_ifs <;> rfl

theorem Valid.callWorker (hc : c.Valid) (dials redials : ℕ → Bool) (visit : List (ℕ × GoString)) :
    (c.callWorker dials redials visit).1.Valid := by
  rw [callWorker_fst]
  exact ⟨hc.counter_le, hc.length_complete, hc.doneCount_eq, hc.id_lt, hc.phases,
    fun entry hentry ↦ hc.addresses entry (List.mem_filter.mp hentry).1⟩

theorem probe_fst (dials : ℕ → Bool) (visit : List (ℕ × GoString)) :
    (probe dials visit).1 = visit.find? fun entry ↦ dials entry.1 := by
  induction visit with
  | nil => rfl
  | cons entry visit ih =>
    rw [probe, List.find?_cons]
    cases hdial : dials entry.1 <;> simp [ih]

/-- The call goes to the first worker in the order of the visit that answers the probing dial, if it
answers the second one too. -/
theorem callWorker_snd (dials redials : ℕ → Bool) (visit : List (ℕ × GoString)) :
    (c.callWorker dials redials visit).2 =
      (visit.find? fun entry ↦ dials entry.1).bind fun entry ↦
        if entry.2 ≠ [] ∧ redials entry.1 then some entry.1 else none := by
  rw [← probe_fst]
  unfold callWorker
  dsimp only
  cases (probe dials visit).1 with
  | none => rfl
  | some entry =>
    dsimp only [Option.bind_some]
    split_ifs <;> rfl

/-- A call in which every worker that answers once answers again: it reaches a worker that answers
if there is one in the book, and ends the coordinator otherwise. -/
theorem Valid.callWorker_snd (hc : c.Valid) (dials : ℕ → Bool) {visit : List (ℕ × GoString)}
    (hvisit : visit.Perm c.workerBook) :
    (∃ pid, (c.callWorker dials dials visit).2 = some pid ∧ dials pid = true) ∨
      (c.callWorker dials dials visit).2 = none ∧
        ∀ entry ∈ c.workerBook, dials entry.1 = false := by
  rw [Coordinator.callWorker_snd]
  cases hfind : visit.find? (fun entry ↦ dials entry.1) with
  | none =>
    refine Or.inr ⟨rfl, fun entry hentry ↦ ?_⟩
    simpa using List.find?_eq_none.mp hfind entry (hvisit.mem_iff.mpr hentry)
  | some entry =>
    have hdial : dials entry.1 = true := (List.find?_eq_some_iff_append.mp hfind).1
    have haddr := hc.addresses entry (hvisit.mem_iff.mp (List.mem_of_find?_eq_some hfind))
    exact Or.inl ⟨entry.1, by simp [hdial, haddr], hdial⟩

end Coordinator

end DistKvRaft.MapReduce
