import DistKvRaft.MapReduce.Cluster

/-!
# The phases of a MapReduce job

`Consistent` ties the coordinator's counters and flags to the executions, reports and monitors
outside of it, and every step of the system keeps it.  It follows that the reduce phase begins only
after every map task was executed, that no task is handed out twice, that a task which is handed
out and not complete keeps its monitor for as long as the coordinator runs, and that the job is
done only when every task was executed.
-/

namespace DistKvRaft.MapReduce

open Go FileStore

/-- The execution was given the arguments of its task. -/
def Phase.Assigned (job : Job) : Phase → Prop
  | .mapping reply | .bucketing reply _ _ =>
    job.filenames[reply.maptaskId]? = some reply.filename ∧ reply.nReduce = job.nReduce
  | .reading reply _ _ | .writing reply _ _ =>
    reply.reducefiles = reduceFiles job.filenames.length reply.reducetaskId

/-- The monitor re-issues the arguments of its task. -/
def Monitor.Assigned (job : Job) : Monitor → Prop
  | .map taskId => taskId < job.filenames.length
  | .reduce reply => reply.reducefiles = reduceFiles job.filenames.length reply.reducetaskId

theorem Phase.FileStep.assigned {job : Job} {d d' : Dir} {phase phase' : Phase}
    (h : Phase.FileStep job d phase phase' d') (hphase : phase.Assigned job) :
    phase'.Assigned job := by
  cases h <;> exact hphase

theorem Monitor.redo_eq_some {job : Job} {c : Coordinator} (hfiles : c.filenames = job.filenames)
    (hn : c.nReduce = job.nReduce) {monitor : Monitor} (h : monitor.Assigned job) :
    ∃ phase, monitor.redo c = some phase ∧ phase.task = monitor.task ∧ phase.Assigned job := by
  cases monitor with
  | map taskId =>
    obtain ⟨filename, hget⟩ : ∃ filename, job.filenames[taskId]? = some filename :=
      ⟨_, List.getElem?_eq_getElem h⟩
    exact ⟨.ofMap ⟨c.nReduce, filename, taskId⟩, by rw [redo, hfiles, hget]; rfl, rfl, hget, hn⟩
  | reduce reply => exact ⟨_, rfl, rfl, h⟩

namespace Cluster

structure Consistent (job : Job) (s : Cluster) : Prop where
  filenames : s.coordinator.filenames = job.filenames
  nReduce : s.coordinator.nReduce = job.nReduce
  valid : s.coordinator.Valid
  given_nodup : s.given.Nodup
  mem_given : ∀ task, task ∈ s.given ↔ task.id < s.coordinator.counter task.kind
  monitors : ∀ monitor ∈ s.monitors, monitor.task ∈ s.given ∧ monitor.Assigned job
  monitored : s.exited = false → ∀ task ∈ s.given, ¬ s.coordinator.IsComplete task →
    ∃ monitor ∈ s.monitors, monitor.task = task
  executions : ∀ e ∈ s.executions, e.phase.task ∈ s.given ∧ e.phase.Assigned job
  reports : ∀ task ∈ s.reports, s.Reported task
  complete : ∀ task, s.coordinator.IsComplete task → s.Reported task

variable {job : Job} {s t : Cluster}

theorem consistent_initial (job : Job) (d : Dir) : (initial job d).Consistent job where
  filenames := rfl
  nReduce := rfl
  valid := Coordinator.valid_makeCoordinator _ _
  given_nodup := List.nodup_nil
  mem_given task := by
    obtain ⟨kind, id⟩ := task
    cases kind <;> simp [initial, makeCoordinator, Coordinator.counter]
  monitors := by simp [initial]
  monitored := by simp [initial]
  executions := by simp [initial]
  reports := by simp [initial]
  complete task h := by
    have hid := (Coordinator.valid_makeCoordinator job.filenames job.nReduce).id_lt task h
    obtain ⟨kind, id⟩ := task
    cases kind <;> simp [makeCoordinator, Coordinator.counter] at hid

/-- Handing out the next task of its kind. -/
theorem Consistent.assign (hs : s.Consistent job) (worker : ℕ) {c : Coordinator}
    {monitor : Monitor} {phase : Phase} (hfiles : c.filenames = s.coordinator.filenames)
    (hn : c.nReduce = s.coordinator.nReduce) (hvalid : c.Valid)
    (hcomplete : ∀ task, c.IsComplete task ↔ s.coordinator.IsComplete task)
    (hnext : monitor.task.id = s.coordinator.counter monitor.task.kind)
    (hcounter : ∀ kind, c.counter kind =
      if kind = monitor.task.kind then s.coordinator.counter kind + 1
      else s.coordinator.counter kind)
    (hmonitor : monitor.Assigned job) (htask : phase.task = monitor.task)
    (hphase : phase.Assigned job) : (s.assign worker c monitor phase).Consistent job where
  filenames := hfiles.trans hs.filenames
  nReduce := hn.trans hs.nReduce
  valid := hvalid
  given_nodup := by
    have hfresh : monitor.task ∉ s.given := by
      rw [hs.mem_given, hnext]
      exact lt_irrefl _
    simpa [Cluster.assign] using hs.given_nodup.concat hfresh
  mem_given task := by
    have hmem : task ∈ (s.assign worker c monitor phase).given ↔
        task ∈ s.given ∨ task = monitor.task := by
      simp [Cluster.assign]
    rw [hmem, hs.mem_given, show (s.assign worker c monitor phase).coordinator = c from rfl,
      hcounter]
    obtain ⟨kind, id⟩ := task
    by_cases hkind : kind = monitor.task.kind
    · subst hkind
      have heq : (⟨monitor.task.kind, id⟩ : Task) = monitor.task ↔ id = monitor.task.id := by
        simp [Task.ext_iff]
      rw [heq, if_pos rfl, hnext]
      exact Nat.lt_succ_iff_lt_or_eq.symm
    · have hne : (⟨kind, id⟩ : Task) ≠ monitor.task := fun h ↦ hkind (h ▸ rfl)
      simp [hkind, hne]
  monitors monitor' hmonitor' := by
    rcases List.mem_append.mp hmonitor' with hmem | hmem
    · exact (hs.monitors monitor' hmem).imp (List.mem_append_left _) id
    · rw [List.mem_singleton.mp hmem]
      exact ⟨List.mem_append_right _ (List.mem_singleton_self _), hmonitor⟩
  monitored hup task hgiven hincomplete := by
    rcases List.mem_append.mp hgiven with hmem | hmem
    · obtain ⟨monitor', hmonitor', heq⟩ :=
        hs.monitored hup task hmem (hincomplete ∘ (hcomplete task).mpr)
      exact ⟨monitor', List.mem_append_left _ hmonitor', heq⟩
    · exact ⟨monitor, List.mem_append_right _ (List.mem_singleton_self _),
        (List.mem_singleton.mp hmem).symm⟩
  executions e he := by
    rcases List.mem_append.mp he with hmem | hmem
    · exact (hs.executions e hmem).imp (List.mem_append_left _) id
    · rw [List.mem_singleton.mp hmem]
      exact ⟨List.mem_append_right _ (by simp [htask]), hphase⟩
  reports task htask' := (hs.reports task htask').start worker phase
  complete task htask' := (hs.complete task ((hcomplete task).mp htask')).start worker phase

theorem Consistent.giveMap (hs : s.Consistent job) (worker : ℕ) {c : Coordinator}
    {reply : MapReply} (h : s.coordinator.giveMapTaskLocked = some (c, reply)) :
    (s.assign worker c (.map reply.maptaskId) (.ofMap reply)).Consistent job := by
  have hvalid := hs.valid.giveMapTaskLocked h
  obtain ⟨filename, hfilename, heq⟩ := Option.map_eq_some_iff.mp h
  cases heq
  rw [hs.filenames] at hfilename
  have hlt := (List.getElem?_eq_some_iff.mp hfilename).1
  refine hs.assign worker rfl rfl hvalid (fun _ ↦ Iff.rfl) rfl (fun kind ↦ ?_) hlt rfl
    ⟨hfilename, hs.nReduce⟩
  cases kind <;> rfl

theorem Consistent.giveReduce (hs : s.Consistent job) (worker : ℕ)
    (hmap : s.coordinator.doneMap = s.coordinator.filenames.length)
    (hlt : s.coordinator.counterReduce < s.coordinator.nReduce) :
    (s.assign worker s.coordinator.giveReduceTaskLocked.1
      (.reduce s.coordinator.giveReduceTaskLocked.2)
      (.ofReduce s.coordinator.giveReduceTaskLocked.2)).Consistent job := by
  have hfiles := hs.valid.reducefiles_eq hmap
  rw [hs.filenames] at hfiles
  refine hs.assign worker rfl rfl (hs.valid.giveReduceTaskLocked hmap hlt) (fun _ ↦ Iff.rfl) rfl
    (fun kind ↦ ?_) hfiles rfl hfiles
  cases kind <;> rfl

/-- A step that leaves the coordinator and its monitors alone. -/
theorem Consistent.of_executions (hs : s.Consistent job) {executions : List Execution}
    {reports : List Task} {crashed : List ℕ} {d : Dir}
    (hexecutions : ∀ e ∈ executions, e.phase.task ∈ s.given ∧ e.phase.Assigned job)
    (hkept : ∀ task, s.Reported task → { s with executions }.Reported task)
    (hreports : ∀ task ∈ reports, task ∈ s.reports ∨ { s with executions }.Reported task) :
    { s with executions, reports, crashed, dir := d }.Consistent job where
  filenames := hs.filenames
  nReduce := hs.nReduce
  valid := hs.valid
  given_nodup := hs.given_nodup
  mem_given := hs.mem_given
  monitors := hs.monitors
  monitored := hs.monitored
  executions := hexecutions
  reports task htask := (hreports task htask).elim (fun h ↦ hkept task (hs.reports task h)) id
  complete task htask := hkept task (hs.complete task htask)

theorem Consistent.advance (hs : s.Consistent job) {k : ℕ} {e : Execution} {phase : Phase} {d : Dir}
    (he : s.executions[k]? = some e) (hrunning : e.status = .running)
    (h : Phase.FileStep job s.dir e.phase phase d) :
    { s with executions := s.executions.set k { e with phase }, dir := d }.Consistent job := by
  refine hs.of_executions (fun x hx ↦ ?_) (fun task htask ↦ htask.set he hrunning _)
    fun _ ↦ Or.inl
  rcases List.mem_or_eq_of_mem_set hx with hx | rfl
  · exact hs.executions x hx
  · obtain ⟨hgiven, hassigned⟩ := hs.executions e (List.mem_of_getElem? he)
    exact ⟨h.task_eq ▸ hgiven, h.assigned hassigned⟩

theorem Consistent.report (hs : s.Consistent job) {k : ℕ} {e : Execution}
    (he : s.executions[k]? = some e) (hrunning : e.status = .running)
    (hfinished : e.phase.isFinished = true) :
    { s with
      executions := s.executions.set k { e with status := .reported }
      reports := s.reports ++ [e.phase.task] }.Consistent job := by
  have hlt := (List.getElem?_eq_some_iff.mp he).1
  refine hs.of_executions (fun x hx ↦ ?_) (fun task htask ↦ htask.set he hrunning _)
    fun task htask ↦ ?_
  · rcases List.mem_or_eq_of_mem_set hx with hx | rfl
    · exact hs.executions x hx
    · exact hs.executions e (List.mem_of_getElem? he)
  · rcases List.mem_append.mp htask with htask | htask
    · exact Or.inl htask
    · rw [List.mem_singleton.mp htask]
      exact Or.inr ⟨_, List.mem_set hlt _, rfl, hfinished, rfl⟩

theorem Consistent.crashWorker (hs : s.Consistent job) (worker : ℕ) :
    (s.crashWorker worker).Consistent job := by
  refine hs.of_executions (fun x hx ↦ ?_) (fun task htask ↦ htask.crashWorker worker) fun _ ↦ Or.inl
  obtain ⟨e, he, rfl⟩ := List.mem_map.mp hx
  have hphase : (e.crash worker).phase = e.phase := by
    unfold Execution.crash
    split <;> rfl
  exact hphase ▸ hs.executions e he

theorem Consistent.deliver (hs : s.Consistent job) {task : Task} (htask : task ∈ s.reports)
    {c : Coordinator} {all : Bool} (h : s.coordinator.checkLastDone task = some (c, all)) :
    { s with coordinator := c }.Consistent job := by
  have hreported := hs.reports task htask
  have hcomplete := Coordinator.isComplete_checkLastDone h
  have hgiven : task ∈ s.given := by
    obtain ⟨e, he, rfl, -⟩ := hreported
    exact (hs.executions e he).1
  have hvalid := hs.valid.checkLastDone ((hs.mem_given task).mp hgiven) h
  obtain ⟨_, _, _, _, hframe⟩ := Coordinator.checkLastDone_frame h
  have hcounter (kind : Kind) : c.counter kind = s.coordinator.counter kind := by
    cases kind <;> rw [hframe] <;> rfl
  refine ⟨?_, ?_, hvalid, hs.given_nodup, fun other ↦ ?_, hs.monitors,
    fun hup other hother hnot ↦ ?_, hs.executions, hs.reports, fun other hother ↦ ?_⟩
  · rw [hframe]
    exact hs.filenames
  · rw [hframe]
    exact hs.nReduce
  · rw [hcounter]
    exact hs.mem_given other
  · exact hs.monitored hup other hother fun hset ↦ hnot ((hcomplete other).mpr (Or.inr hset))
  · rcases (hcomplete other).mp hother with rfl | hother
    · exact hreported
    · exact hs.complete other hother

theorem Consistent.endMonitor (hs : s.Consistent job) {m : ℕ} {monitor : Monitor}
    (hmonitor : s.monitors[m]? = some monitor)
    (hcomplete : s.coordinator.IsComplete monitor.task) :
    { s with monitors := s.monitors.eraseIdx m }.Consistent job where
  filenames := hs.filenames
  nReduce := hs.nReduce
  valid := hs.valid
  given_nodup := hs.given_nodup
  mem_given := hs.mem_given
  monitors monitor' hmonitor' := hs.monitors monitor' (List.mem_of_mem_eraseIdx hmonitor')
  monitored hup task hgiven hnot := by
    obtain ⟨monitor', hmem, rfl⟩ := hs.monitored hup task hgiven hnot
    obtain ⟨m', hm'⟩ := List.mem_iff_getElem?.mp hmem
    refine ⟨monitor', List.mem_eraseIdx_iff_getElem?.mpr ⟨m', ?_, hm'⟩, rfl⟩
    rintro rfl
    rw [hmonitor] at hm'
    cases hm'
    exact hnot hcomplete
  executions := hs.executions
  reports := hs.reports
  complete := hs.complete

/-- A call of a worker only drops entries of `worker_book`. -/
theorem Consistent.callWorker (hs : s.Consistent job) (dials redials : ℕ → Bool)
    (visit : List (ℕ × GoString)) :
    { s with coordinator := (s.coordinator.callWorker dials redials visit).1 }.Consistent job := by
  have hvalid := hs.valid.callWorker dials redials visit
  rw [Coordinator.callWorker_fst] at hvalid ⊢
  exact ⟨hs.filenames, hs.nReduce, hvalid, hs.given_nodup, hs.mem_given, hs.monitors, hs.monitored,
    hs.executions, hs.reports, hs.complete⟩

theorem Consistent.start (hs : s.Consistent job) (worker : ℕ) {phase : Phase}
    (htask : phase.task ∈ s.given) (hphase : phase.Assigned job) :
    (s.start worker phase).Consistent job := by
  refine hs.of_executions (fun e he ↦ ?_) (fun task h ↦ h.start worker phase) fun _ ↦ Or.inl
  rcases List.mem_append.mp he with he | he
  · exact hs.executions e he
  · rw [List.mem_singleton.mp he]
    exact ⟨htask, hphase⟩

theorem Consistent.exit (hs : s.Consistent job) : s.exit.Consistent job where
  filenames := hs.filenames
  nReduce := hs.nReduce
  valid := hs.valid
  given_nodup := hs.given_nodup
  mem_given := hs.mem_given
  monitors := by simp [Cluster.exit]
  monitored := by simp [Cluster.exit]
  executions := hs.executions
  reports := hs.reports
  complete := hs.complete

theorem Consistent.step {event : Event} (hs : s.Consistent job)
    (h : s.step job event = some t) : t.Consistent job := by
  cases transition_of_step h with
  | register worker =>
    have hsocket : workerSocket worker ≠ [] := by simp [workerSocket, ascii]
    exact ⟨hs.filenames, hs.nReduce, hs.valid.registerWorker worker hsocket, hs.given_nodup,
      hs.mem_given, hs.monitors, hs.monitored, hs.executions, hs.reports, hs.complete⟩
  | noTask => exact hs
  | giveMap worker hgive => exact hs.giveMap worker hgive
  | giveReduce worker hmap hlt => exact hs.giveReduce worker hmap hlt
  | advance he hrunning hstep => exact hs.advance he hrunning hstep
  | crash _ worker => exact hs.crashWorker worker
  | report he hrunning hfinished => exact hs.report he hrunning hfinished
  | deliver htask hcheck => exact hs.deliver htask hcheck
  | endMonitor visit hmonitor hcomplete => exact hs.endMonitor hmonitor hcomplete
  | redo hmonitor hredo =>
    obtain ⟨hgiven, hassigned⟩ := hs.monitors _ (List.mem_of_getElem? hmonitor)
    obtain ⟨phase, hphase, htask, hargs⟩ :=
      Monitor.redo_eq_some hs.filenames hs.nReduce hassigned
    rw [hredo] at hphase
    cases hphase
    exact (hs.callWorker _ _ _).start _ (htask ▸ hgiven) hargs
  | fatal hvisit hcall => exact (hs.callWorker _ _ _).exit
  | panic _ hrange => exact hs.exit

theorem consistent_of_reachable {d : Dir} (h : (job.cluster d).Reachable s) : s.Consistent job :=
  h.invariant (consistent_initial job d) fun _ _ _ hs hstep ↦ hs.step hstep

/-! ## Consequences -/

/-- Monitor `m` watches over the task, and whenever it wakes while a registered worker is alive, it
has the task executed again. -/
def Reissues (job : Job) (s : Cluster) (m : ℕ) (task : Task) : Prop :=
  ∃ monitor, s.monitors[m]? = some monitor ∧ monitor.task = task ∧
    ∀ visit : List (ℕ × GoString), visit.Perm s.coordinator.workerBook →
      (∃ entry ∈ s.coordinator.workerBook, entry.1 ∉ s.crashed) →
      ∃ t e, s.step job (.wake m visit) = some t ∧ t.executions = s.executions ++ [e] ∧
        e.phase.task = task ∧ e.status = .running

theorem Consistent.id_lt_size (hs : s.Consistent job) {task : Task} (h : task ∈ s.given) :
    task.id < s.coordinator.size task.kind :=
  ((hs.mem_given task).mp h).trans_le (hs.valid.counter_le task.kind)

theorem Consistent.exists_flag (hs : s.Consistent job) {task : Task} (h : task ∈ s.given) :
    ∃ flag, (s.coordinator.complete task.kind)[task.id]? = some flag := by
  have hlt := hs.id_lt_size h
  rw [← hs.valid.length_complete] at hlt
  exact ⟨_, List.getElem?_eq_getElem hlt⟩

theorem Consistent.not_outOfRange (hs : s.Consistent job) : ¬ s.OutOfRange := by
  rintro (⟨task, htask, hnone⟩ | ⟨monitor, hmonitor, hnone | hnone⟩)
  · obtain ⟨e, he, rfl, -⟩ := hs.reports task htask
    obtain ⟨flag, hflag⟩ := hs.exists_flag (hs.executions e he).1
    rw [hflag] at hnone
    cases hnone
  · obtain ⟨flag, hflag⟩ := hs.exists_flag (hs.monitors monitor hmonitor).1
    rw [hflag] at hnone
    cases hnone
  · obtain ⟨phase, hphase, -⟩ :=
      Monitor.redo_eq_some hs.filenames hs.nReduce (hs.monitors monitor hmonitor).2
    rw [hphase] at hnone
    cases hnone

theorem Consistent.executed_of_giveReduceTask (hs : s.Consistent job) {c : Coordinator}
    {reply : ReduceReply} (h : s.coordinator.giveReduceTask = (c, .task reply)) :
    (∀ i < job.filenames.length, s.Executed (.map i)) ∧
      reply.reducefiles = reduceFiles job.filenames.length reply.reducetaskId := by
  unfold Coordinator.giveReduceTask at h
  split_ifs at h with hmap heof
  · cases h
  · cases h
    have hfiles := hs.valid.reducefiles_eq hmap
    have hdone : s.coordinator.doneCount .map = s.coordinator.size .map := hmap
    rw [← hs.filenames]
    exact ⟨fun i hi ↦ (hs.complete _ (hs.valid.isComplete_of_doneCount hdone hi)).executed, hfiles⟩
  · cases h

theorem Consistent.reissues (hs : s.Consistent job) (hup : s.exited = false) {task : Task}
    (hgiven : task ∈ s.given) (hnot : ¬ s.coordinator.IsComplete task) :
    ∃ m, s.Reissues job m task := by
  obtain ⟨monitor, hmem, rfl⟩ := hs.monitored hup task hgiven hnot
  obtain ⟨m, hm⟩ := List.mem_iff_getElem?.mp hmem
  obtain ⟨phase, hredo, htask, -⟩ :=
    Monitor.redo_eq_some hs.filenames hs.nReduce (hs.monitors monitor hmem).2
  have hflag : (s.coordinator.complete monitor.task.kind)[monitor.task.id]? = some false := by
    obtain ⟨flag, hflag⟩ := hs.exists_flag hgiven
    cases flag with
    | true => exact absurd hflag hnot
    | false => exact hflag
  refine ⟨m, monitor, hm, rfl, fun visit hvisit ⟨entry, hentry, halive⟩ ↦ ?_⟩
  rcases hs.valid.callWorker_snd (· ∉ s.crashed) hvisit with ⟨pid, hpid, hdial⟩ | ⟨-, hnone⟩
  · have hwake := wake_eq_start (m := m) hflag hredo hpid
    have hstatus : (if pid ∈ s.crashed then Status.crashed else .running) = .running :=
      if_neg (by simpa using hdial)
    refine ⟨s.wake m monitor visit, ⟨pid, phase, .running⟩, ?_, ?_, htask, rfl⟩
    · simp only [Cluster.step, hm, if_pos hvisit]
    · rw [hwake, Cluster.start, hstatus]
  · exact absurd (hnone entry hentry) (by simpa using halive)

/-- Flags are never cleared. -/
theorem isComplete_step {event : Event} (h : s.step job event = some t) {task : Task}
    (htask : s.coordinator.IsComplete task) : t.coordinator.IsComplete task := by
  cases transition_of_step h with
  | giveMap worker hgive =>
    obtain ⟨_, _, heq⟩ := Option.map_eq_some_iff.mp hgive
    cases heq
    exact htask
  | deliver hmem hcheck =>
    exact (Coordinator.isComplete_checkLastDone hcheck task).mpr (Or.inr htask)
  | redo hmonitor hredo =>
    rw [Cluster.start, Coordinator.callWorker_fst]
    exact htask
  | fatal hvisit hcall =>
    rw [Cluster.exit, Coordinator.callWorker_fst]
    exact htask
  | register => exact htask
  | noTask => exact htask
  | giveReduce => exact htask
  | advance => exact htask
  | crash => exact htask
  | report => exact htask
  | endMonitor => exact htask
  | panic => exact htask

theorem Consistent.size_eq (hs : s.Consistent job) (ht : t.Consistent job) (kind : Kind) :
    t.coordinator.size kind = s.coordinator.size kind := by
  cases kind with
  | map => rw [Coordinator.size, Coordinator.size, ht.filenames, hs.filenames]
  | reduce => rw [Coordinator.size, Coordinator.size, ht.nReduce, hs.nReduce]

/-- `Done` stays true. -/
theorem Consistent.done_step (hs : s.Consistent job) (hdone : s.coordinator.done = true)
    {event : Event} (h : s.step job event = some t) : t.coordinator.done = true := by
  have ht := hs.step h
  rw [hs.valid.done_iff] at hdone
  rw [ht.valid.done_iff]
  intro kind id hid
  rw [hs.size_eq ht] at hid
  exact isComplete_step h (hdone kind id hid)

theorem Consistent.executed_of_done (hs : s.Consistent job) (hdone : s.coordinator.done = true) :
    (∀ i < job.filenames.length, s.Executed (.map i)) ∧
      ∀ r < job.nReduce, s.Executed (.reduce r) := by
  rw [hs.valid.done_iff] at hdone
  rw [← hs.filenames, ← hs.nReduce]
  exact ⟨fun i hi ↦ (hs.complete _ (hdone .map i hi)).executed,
    fun r hr ↦ (hs.complete _ (hdone .reduce r hr)).executed⟩

/-- The coordinator ends only in a wake-up that finds no worker alive. -/
theorem Consistent.crashed_of_exit (hs : s.Consistent job) {event : Event}
    (h : s.step job event = some t) (hexit : t.exited = true) (hup : s.exited = false) :
    (∃ m visit, event = .wake m visit) ∧
      ∀ entry ∈ s.coordinator.workerBook, entry.1 ∈ s.crashed := by
  have hsame : s.exited = true → False := by simp [hup]
  cases transition_of_step h with
  | fatal hvisit hcall =>
    refine ⟨⟨_, _, rfl⟩, fun entry hentry ↦ ?_⟩
    rcases hs.valid.callWorker_snd (· ∉ s.crashed) hvisit with ⟨pid, hpid, -⟩ | ⟨-, hnone⟩
    · rw [hcall] at hpid
      cases hpid
    · simpa using hnone entry hentry
  | panic _ hrange => exact absurd hrange hs.not_outOfRange
  | giveMap => exact (hsame hexit).elim
  | deliver => exact (hsame hexit).elim
  | redo => exact (hsame hexit).elim
  | register => exact (hsame hexit).elim
  | noTask => exact (hsame hexit).elim
  | giveReduce => exact (hsame hexit).elim
  | advance => exact (hsame hexit).elim
  | crash => exact (hsame hexit).elim
  | report => exact (hsame hexit).elim
  | endMonitor => exact (hsame hexit).elim

theorem Consistent.done_reachableFrom {d : Dir} (hs : s.Consistent job)
    (hdone : s.coordinator.done = true)
    (h : (job.cluster d).ReachableFrom (fun _ _ ↦ True) s t) : t.coordinator.done = true := by
  have hboth : t.Consistent job ∧ t.coordinator.done = true := by
    refine h.invariant (I := fun u ↦ u.Consistent job ∧ u.coordinator.done = true) ⟨hs, hdone⟩ ?_
    exact fun _ _ _ hu _ hstep ↦ ⟨hu.1.step hstep, hu.1.done_step hu.2 hstep⟩
  exact hboth.2

/-- **The two phases are kept apart and no task is lost.** In every reachable state: a reduce task
is handed out only after every map task was executed, and with the files of all of them; no task was
handed out twice; for as long as the coordinator runs, a task that was handed out and is not
complete has a monitor that can have it executed again; the coordinator ends only in a wake-up that
finds every worker of `worker_book` crashed; and when `Done` holds, every task was executed and
`Done` holds from then on. -/
theorem phases_of_reachable (job : Job) (d : Dir) {s : Cluster} (h : (job.cluster d).Reachable s) :
    (∀ c reply, s.coordinator.giveReduceTask = (c, .task reply) →
      (∀ i < job.filenames.length, s.Executed (.map i)) ∧
        reply.reducefiles = reduceFiles job.filenames.length reply.reducetaskId) ∧
    s.given.Nodup ∧
    (s.exited = false → ∀ task ∈ s.given, ¬ s.coordinator.IsComplete task →
      ∃ m, s.Reissues job m task) ∧
    (∀ event t, s.step job event = some t → t.exited = true → s.exited = false →
      (∃ m visit, event = .wake m visit) ∧
        ∀ entry ∈ s.coordinator.workerBook, entry.1 ∈ s.crashed) ∧
    (s.coordinator.done = true →
      (∀ i < job.filenames.length, s.Executed (.map i)) ∧
      (∀ r < job.nReduce, s.Executed (.reduce r)) ∧
      ∀ t, (job.cluster d).ReachableFrom (fun _ _ ↦ True) s t → t.coordinator.done = true) := by
  have hs := consistent_of_reachable h
  refine ⟨fun c reply ↦ hs.executed_of_giveReduceTask, hs.given_nodup,
    fun hup task hgiven hnot ↦ hs.reissues hup hgiven hnot,
    fun event t hstep hexit hup ↦ hs.crashed_of_exit hstep hexit hup, fun hdone ↦ ?_⟩
  obtain ⟨hmaps, hreduces⟩ := hs.executed_of_done hdone
  exact ⟨hmaps, hreduces, fun t ht ↦ hs.done_reachableFrom hdone ht⟩

/-- A task that is handed out and under way has its monitor. -/
theorem phases_of_sample :
    ∃ s, (Job.sample.cluster Job.sampleDir).Reachable s ∧ Task.map 0 ∈ s.given ∧
      ¬ s.coordinator.IsComplete (.map 0) ∧ ∃ m, s.Reissues Job.sample m (.map 0) := by
  have hrun : ∃ s, (Job.sample.cluster Job.sampleDir).Reachable s ∧ s.exited = false ∧
      Task.map 0 ∈ s.given ∧ ¬ s.coordinator.IsComplete (.map 0) :=
    Machine.exists_reachable [.registerWorker 1, .giveMapTask 1] (by decide)
  obtain ⟨s, hs, hup, hgiven, hnot⟩ := hrun
  exact ⟨s, hs, hgiven, hnot, (phases_of_reachable _ _ hs).2.2.1 hup _ hgiven hnot⟩

/-- The only worker crashes before it reports, and the monitor of its task ends the coordinator:
the task is left without a monitor. -/
theorem unmonitored_after_fatal :
    ∃ s, (Job.sample.cluster Job.sampleDir).Reachable s ∧ Task.map 0 ∈ s.given ∧
      ¬ s.coordinator.IsComplete (.map 0) ∧ ∀ monitor ∈ s.monitors, monitor.task ≠ .map 0 :=
  Machine.exists_reachable
    [.registerWorker 1, .giveMapTask 1, .crash 1, .wake 0 [(1, workerSocket 1)]]
    (by decide)

end Cluster

end DistKvRaft.MapReduce
