import DistKvRaft.MapReduce.Execution

/-!
# Coordinator, workers and the working directory together

One machine for a whole MapReduce job: the coordinator with its monitors, the executions that the
workers run, the reports under way and the shared directory.  A handler call and a wake-up of a
monitor are one step each; executions take one file-level step at a time, in any interleaving.
Workers crash at any moment, and a report that was sent may be delivered late or several times.

The time a monitor sleeps, or waits for the worker it called, is not modelled: it may wake at any
moment.  A dial reaches a worker exactly when the worker has not crashed, and since a wake-up is one
step, both dials of `callWorker` find the worker in the same state.  What can happen inside these
steps is the subject of other modules: two reports of one task that overlap, in `Reports`, and a
crash between the two dials, in `Reissue`.
-/

namespace DistKvRaft.MapReduce

open Go FileStore

/-- An execution goes on until its report is sent, unless its worker crashes before. -/
inductive Status
  | running
  | reported
  | crashed
  deriving DecidableEq

structure Execution where
  worker : ℕ
  phase : Phase
  status : Status

/-- A worker crash ends the executions of the worker that are still running. -/
def Execution.crash (worker : ℕ) (e : Execution) : Execution :=
  if e.worker = worker ∧ e.status = .running then { e with status := .crashed } else e

/-- A running `spawn_map_monitor` or `spawn_reduce_monitor`. -/
inductive Monitor
  | map (taskId : ℕ)
  | reduce (reply : ReduceReply)

namespace Monitor

def task : Monitor → Task
  | .map taskId => .map taskId
  | .reduce reply => .reduce reply.reducetaskId

/-- What `callWorkerRedoMap` and `callWorkerRedoReduce` ask a worker to execute; `none` where the
index is out of range. -/
def redo (c : Coordinator) : Monitor → Option Phase
  | .map taskId => (c.filenames[taskId]?).map fun filename ↦ .ofMap ⟨c.nReduce, filename, taskId⟩
  | .reduce reply => some (.ofReduce reply)

end Monitor

/-- The state of a job.  `given` records the tasks in the order they were handed out. -/
structure Cluster where
  coordinator : Coordinator
  exited : Bool
  crashed : List ℕ
  given : List Task
  monitors : List Monitor
  executions : List Execution
  reports : List Task
  dir : Dir

inductive Event
  | registerWorker (worker : ℕ)
  | giveMapTask (worker : ℕ)
  | giveReduceTask (worker : ℕ)
  /-- the next file-level step of execution `k` -/
  | advance (k : ℕ)
  /-- execution `k` sends its report -/
  | report (k : ℕ)
  /-- a report reaches the coordinator -/
  | deliver (task : Task)
  /-- monitor `m` wakes and visits `worker_book` in the given order if it has to -/
  | wake (m : ℕ) (visit : List (ℕ × GoString))
  | crash (worker : ℕ)

namespace Cluster

/-- The coordinator process ends, by `log.Fatal` or by a panic, and its goroutines with it. -/
def exit (s : Cluster) : Cluster := { s with exited := true, monitors := [] }

/-- A worker begins an execution, unless it has crashed by then. -/
def start (s : Cluster) (worker : ℕ) (phase : Phase) : Cluster :=
  { s with executions := s.executions ++
      [⟨worker, phase, if worker ∈ s.crashed then .crashed else .running⟩] }

/-- A task is handed out, its monitor started, and the worker begins to execute it. -/
def assign (s : Cluster) (worker : ℕ) (c : Coordinator) (monitor : Monitor) (phase : Phase) :
    Cluster :=
  { s.start worker phase with
    coordinator := c
    given := s.given ++ [monitor.task]
    monitors := s.monitors ++ [monitor] }

def crashWorker (s : Cluster) (worker : ℕ) : Cluster :=
  { s with
    crashed := worker :: s.crashed
    executions := s.executions.map (Execution.crash worker) }

/-- The next step of an execution; a worker that ends in `log.Fatalf` is a crashed worker. -/
def advance (job : Job) (s : Cluster) (k : ℕ) (e : Execution) : Option Cluster :=
  match e.phase.advance job s.dir with
  | .ok (phase, d) => some { s with executions := s.executions.set k { e with phase }, dir := d }
  | .error .fatal => some (s.crashWorker e.worker)
  | .error .finished => none

/-- A wake-up of monitor `m`: it ends if the task is complete and has it executed again if not. -/
def wake (s : Cluster) (m : ℕ) (monitor : Monitor) (visit : List (ℕ × GoString)) : Cluster :=
  match (s.coordinator.complete monitor.task.kind)[monitor.task.id]?,
      monitor.redo s.coordinator with
  | some true, _ => { s with monitors := s.monitors.eraseIdx m }
  | some false, some phase =>
    match s.coordinator.callWorker (· ∉ s.crashed) (· ∉ s.crashed) visit with
    | (c, some worker) => { s with coordinator := c }.start worker phase
    | (c, none) => { s with coordinator := c }.exit
  | _, _ => s.exit

def step (job : Job) (s : Cluster) : Event → Option Cluster
  | .registerWorker worker =>
    if s.exited then none
    else some { s with coordinator := s.coordinator.registerWorker worker (workerSocket worker) }
  | .giveMapTask worker =>
    if s.exited then none
    else match s.coordinator.giveMapTask with
      | none => some s.exit
      | some (c, .task reply) => some (s.assign worker c (.map reply.maptaskId) (.ofMap reply))
      | some (c, _) => some { s with coordinator := c }
  | .giveReduceTask worker =>
    if s.exited then none
    else match s.coordinator.giveReduceTask with
      | (c, .task reply) => some (s.assign worker c (.reduce reply) (.ofReduce reply))
      | (c, _) => some { s with coordinator := c }
  | .advance k =>
    match s.executions[k]? with
    | some e => if e.status = .running then s.advance job k e else none
    | none => none
  | .report k =>
    match s.executions[k]? with
    | some e =>
      if e.status = .running ∧ e.phase.isFinished then
        some { s with
          executions := s.executions.set k { e with status := .reported }
          reports := s.reports ++ [e.phase.task] }
      else none
    | none => none
  | .deliver task =>
    if s.exited = false ∧ task ∈ s.reports then
      match s.coordinator.checkLastDone task with
      | some (c, _) => some { s with coordinator := c }
      | none => some s.exit
    else none
  | .wake m visit =>
    match s.monitors[m]? with
    | some monitor =>
      if visit.Perm s.coordinator.workerBook then some (s.wake m monitor visit) else none
    | none => none
  | .crash worker => some (s.crashWorker worker)

/-- Before the first request. -/
def initial (job : Job) (d : Dir) : Cluster where
  coordinator := makeCoordinator job.filenames job.nReduce
  exited := false
  crashed := []
  given := []
  monitors := []
  executions := []
  reports := []
  dir := d

/-- Some execution of the task has written all its files. -/
def Executed (s : Cluster) (task : Task) : Prop :=
  ∃ e ∈ s.executions, e.phase.task = task ∧ e.phase.isFinished = true

/-- Some execution of the task has written all its files and sent its report. -/
def Reported (s : Cluster) (task : Task) : Prop :=
  ∃ e ∈ s.executions, e.phase.task = task ∧ e.phase.isFinished = true ∧ e.status = .reported

end Cluster

/-- The machine of a job in a working directory. -/
def Job.cluster (job : Job) (d : Dir) : Machine Cluster Event := ⟨.initial job d, Cluster.step job⟩

namespace Cluster

/-! ## Reports are never withdrawn -/

section Reported

variable {s : Cluster} {task : Task}

theorem Reported.executed (h : s.Reported task) : s.Executed task :=
  h.imp fun _ he ↦ ⟨he.1, he.2.1, he.2.2.1⟩

theorem Reported.start (h : s.Reported task) (worker : ℕ) (phase : Phase) :
    (s.start worker phase).Reported task :=
  h.imp fun _ he ↦ ⟨List.mem_append_left _ he.1, he.2⟩

/-- A step of a running execution does not touch an execution that has reported. -/
theorem Reported.set (h : s.Reported task) {k : ℕ} {e : Execution}
    (he : s.executions[k]? = some e) (hrunning : e.status = .running) (e' : Execution) :
    ∃ x ∈ s.executions.set k e', x.phase.task = task ∧ x.phase.isFinished = true ∧
      x.status = .reported := by
  obtain ⟨x, hx, htask, hfinished, hstatus⟩ := h
  obtain ⟨j, hj⟩ := List.mem_iff_getElem?.mp hx
  have hne : k ≠ j := by
    rintro rfl
    rw [he] at hj
    cases hj
    rw [hrunning] at hstatus
    cases hstatus
  rw [← List.getElem?_set_ne hne (a := e')] at hj
  exact ⟨x, List.mem_of_getElem? hj, htask, hfinished, hstatus⟩

theorem Reported.crashWorker (h : s.Reported task) (worker : ℕ) :
    (s.crashWorker worker).Reported task := by
  obtain ⟨x, hx, htask, hfinished, hstatus⟩ := h
  refine ⟨x, List.mem_map.mpr ⟨x, hx, ?_⟩, htask, hfinished, hstatus⟩
  simp [Execution.crash, hstatus]

end Reported

/-! ## What a step can do -/

/-- An index of the coordinator is out of range. -/
def OutOfRange (s : Cluster) : Prop :=
  (∃ task ∈ s.reports, (s.coordinator.complete task.kind)[task.id]? = none) ∨
    ∃ monitor ∈ s.monitors, (s.coordinator.complete monitor.task.kind)[monitor.task.id]? = none ∨
      monitor.redo s.coordinator = none

/-- The steps of the machine, one case for each outcome. -/
inductive Transition (job : Job) (s : Cluster) : Event → Cluster → Prop
  | register (worker : ℕ) :
      Transition job s (.registerWorker worker)
        { s with coordinator := s.coordinator.registerWorker worker (workerSocket worker) }
  | noTask (event : Event) : Transition job s event s
  | giveMap (worker : ℕ) {c : Coordinator} {reply : MapReply}
      (h : s.coordinator.giveMapTaskLocked = some (c, reply)) :
      Transition job s (.giveMapTask worker)
        (s.assign worker c (.map reply.maptaskId) (.ofMap reply))
  | giveReduce (worker : ℕ) (hmap : s.coordinator.doneMap = s.coordinator.filenames.length)
      (hlt : s.coordinator.counterReduce < s.coordinator.nReduce) :
      Transition job s (.giveReduceTask worker)
        (s.assign worker s.coordinator.giveReduceTaskLocked.1
          (.reduce s.coordinator.giveReduceTaskLocked.2)
          (.ofReduce s.coordinator.giveReduceTaskLocked.2))
  | advance {k : ℕ} {e : Execution} {phase : Phase} {d : Dir} (he : s.executions[k]? = some e)
      (hrunning : e.status = .running) (h : Phase.FileStep job s.dir e.phase phase d) :
      Transition job s (.advance k)
        { s with executions := s.executions.set k { e with phase }, dir := d }
  | crash (event : Event) (worker : ℕ) : Transition job s event (s.crashWorker worker)
  | report {k : ℕ} {e : Execution} (he : s.executions[k]? = some e)
      (hrunning : e.status = .running) (hfinished : e.phase.isFinished = true) :
      Transition job s (.report k)
        { s with
          executions := s.executions.set k { e with status := .reported }
          reports := s.reports ++ [e.phase.task] }
  | deliver {task : Task} (htask : task ∈ s.reports) {c : Coordinator} {all : Bool}
      (h : s.coordinator.checkLastDone task = some (c, all)) :
      Transition job s (.deliver task) { s with coordinator := c }
  | endMonitor {m : ℕ} {monitor : Monitor} (visit : List (ℕ × GoString))
      (hmonitor : s.monitors[m]? = some monitor)
      (hcomplete : s.coordinator.IsComplete monitor.task) :
      Transition job s (.wake m visit) { s with monitors := s.monitors.eraseIdx m }
  | redo {m : ℕ} {monitor : Monitor} {visit : List (ℕ × GoString)} {phase : Phase} {worker : ℕ}
      (hmonitor : s.monitors[m]? = some monitor)
      (hredo : monitor.redo s.coordinator = some phase) :
      Transition job s (.wake m visit)
        ({ s with coordinator :=
            (s.coordinator.callWorker (· ∉ s.crashed) (· ∉ s.crashed) visit).1 }.start worker phase)
  | fatal {m : ℕ} {visit : List (ℕ × GoString)} (hvisit : visit.Perm s.coordinator.workerBook)
      (h : (s.coordinator.callWorker (· ∉ s.crashed) (· ∉ s.crashed) visit).2 = none) :
      Transition job s (.wake m visit)
        { s with coordinator :=
            (s.coordinator.callWorker (· ∉ s.crashed) (· ∉ s.crashed) visit).1 }.exit
  | panic (event : Event) (h : s.OutOfRange) : Transition job s event s.exit

variable {job : Job} {s t : Cluster}

theorem transition_giveMapTask {worker : ℕ} (h : s.step job (.giveMapTask worker) = some t) :
    Transition job s (.giveMapTask worker) t := by
  simp only [step] at h
  split at h
  · cases h
  · unfold Coordinator.giveMapTask at h
    split_ifs at h with heof
    · cases h
      exact .noTask _
    · cases hgive : s.coordinator.giveMapTaskLocked with
      | none =>
        have hnone : s.coordinator.filenames[s.coordinator.counterMap]? = none :=
          Option.map_eq_none_iff.mp hgive
        exact absurd (List.getElem?_eq_none_iff.mp hnone) heof
      | some given =>
        obtain ⟨c, reply⟩ := given
        rw [hgive] at h
        cases h
        exact .giveMap worker hgive

theorem transition_giveReduceTask {worker : ℕ} (h : s.step job (.giveReduceTask worker) = some t) :
    Transition job s (.giveReduceTask worker) t := by
  simp only [step] at h
  split at h
  · cases h
  · unfold Coordinator.giveReduceTask at h
    split_ifs at h with hmap heof
    · cases h
      exact .noTask _
    · cases h
      exact .giveReduce worker hmap (not_le.mp heof)
    · cases h
      exact .noTask _

theorem transition_wake {m : ℕ} {visit : List (ℕ × GoString)}
    (h : s.step job (.wake m visit) = some t) : Transition job s (.wake m visit) t := by
  simp only [step] at h
  split at h
  · next monitor hmonitor =>
    split_ifs at h with hvisit
    cases h
    have hmem := List.mem_of_getElem? hmonitor
    unfold wake
    cases hflag : (s.coordinator.complete monitor.task.kind)[monitor.task.id]? with
    | none => exact .panic _ (Or.inr ⟨monitor, hmem, Or.inl hflag⟩)
    | some flag =>
      cases flag with
      | true => exact .endMonitor visit hmonitor hflag
      | false =>
        cases hredo : monitor.redo s.coordinator with
        | none => exact .panic _ (Or.inr ⟨monitor, hmem, Or.inr hredo⟩)
        | some phase =>
          dsimp only
          split
          · next c worker hcall =>
            have hc : _ = c := congrArg Prod.fst hcall
            exact hc ▸ .redo hmonitor hredo
          · next c hcall =>
            have hc : _ = c := congrArg Prod.fst hcall
            exact hc ▸ .fatal hvisit (congrArg Prod.snd hcall)
  · cases h

/-- A wake-up for an incomplete task that reaches a worker starts an execution there. -/
theorem wake_eq_start {m : ℕ} {monitor : Monitor} {visit : List (ℕ × GoString)} {phase : Phase}
    {worker : ℕ}
    (hflag : (s.coordinator.complete monitor.task.kind)[monitor.task.id]? = some false)
    (hredo : monitor.redo s.coordinator = some phase)
    (hcall : (s.coordinator.callWorker (· ∉ s.crashed) (· ∉ s.crashed) visit).2 = some worker) :
    s.wake m monitor visit =
      { s with coordinator :=
          (s.coordinator.callWorker (· ∉ s.crashed) (· ∉ s.crashed) visit).1 }.start worker
        phase := by
  unfold wake
  rw [hflag, hredo]
  dsimp only
  split
  · next c pid heq =>
    rw [heq] at hcall ⊢
    cases hcall
    rfl
  · next c heq =>
    rw [heq] at hcall
    cases hcall

theorem transition_of_step {event : Event} (h : s.step job event = some t) :
    Transition job s event t := by
  cases event with
  | registerWorker worker =>
    simp only [step] at h
    split at h
    · cases h
    · cases h
      exact .register worker
  | giveMapTask worker => exact transition_giveMapTask h
  | giveReduceTask worker => exact transition_giveReduceTask h
  | advance k =>
    simp only [step] at h
    split at h
    · next e he =>
      split_ifs at h with hrunning
      unfold Cluster.advance at h
      split at h
      · next phase d hadvance =>
        cases h
        exact .advance he hrunning (Phase.fileStep_of_advance hadvance)
      · cases h
        exact .crash _ e.worker
      · cases h
    · cases h
  | report k =>
    simp only [step] at h
    split at h
    · next e he =>
      split_ifs at h with hfinished
      cases h
      exact .report he hfinished.1 hfinished.2
    · cases h
  | deliver task =>
    simp only [step] at h
    split_ifs at h with hdeliver
    split at h
    · next c all hcheck =>
      cases h
      exact .deliver hdeliver.2 hcheck
    · next hcheck =>
      cases h
      exact .panic _ (Or.inl ⟨task, hdeliver.2, Option.map_eq_none_iff.mp hcheck⟩)
  | wake m visit => exact transition_wake h
  | crash worker =>
    cases h
    exact .crash _ worker

end Cluster

end DistKvRaft.MapReduce
