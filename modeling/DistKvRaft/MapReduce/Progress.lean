import DistKvRaft.MapReduce.Phases
import DistKvRaft.MapReduce.Reissue

/-!
# Jobs can always be finished

Whatever has happened before, and however many workers have crashed, the job can be finished as long
as the coordinator runs and one registered worker is alive: some further requests, wake-ups,
executions and reports lead to a state in which `Done` holds, without any further crash and without
a worker that registers anew.

Each round of the argument completes one more task.  If a task that was handed out is not complete,
its monitor has it executed again; otherwise the coordinator has a task to hand out.

Handler calls and wake-ups are the atomic steps of `Cluster`.  A double count by overlapping reports
or a crash between the two dials of `callWorker`, which do get a job stuck, happens inside them.
-/

namespace DistKvRaft.MapReduce

open Go FileStore

/-- What coordinator and workers do when nothing goes wrong. -/
def Event.IsWork : Event → Prop
  | .crash _ | .registerWorker _ => False
  | _ => True

theorem Phase.FileStep.dir_eq {job : Job} {d d' : Dir} {phase phase' : Phase}
    (h : Phase.FileStep job d phase phase' d') {name : GoString} (hname : ¬ IsMrName name) :
    d' name = d name := by
  have hinter (i b : ℕ) : name ≠ intermediateName i b :=
    fun heq ↦ hname (heq ▸ intermediateName_isMrName i b)
  have hout (r : ℕ) : name ≠ outName r := fun heq ↦ hname (heq ▸ outName_isMrName r)
  cases h with
  | readInput => rfl
  | openBucket => exact create_of_ne d (hinter _ _)
  | @encode reply kv kvs handles handle =>
    unfold encodePair
    split
    · rfl
    · exact writeAt_of_ne d (hinter _ _) _ _
  | readBucket => rfl
  | openOutput => exact create_of_ne d (hout _)
  | writeLine => exact writeAt_of_ne d (hout _) _ _

namespace Cluster

variable {job : Job} {d : Dir} {s t : Cluster}

/-- The inputs are never written. -/
theorem dir_eq_of_step {event : Event} (h : s.step job event = some t) {name : GoString}
    (hname : ¬ IsMrName name) : t.dir name = s.dir name := by
  cases transition_of_step h with
  | advance he hrunning hfile => exact hfile.dir_eq hname
  | register => rfl
  | noTask => rfl
  | giveMap => rfl
  | giveReduce => rfl
  | crash => rfl
  | report => rfl
  | deliver => rfl
  | endMonitor => rfl
  | redo => rfl
  | fatal => rfl
  | panic => rfl

/-- The coordinator runs, and some worker it knows of is alive. -/
def Alive (s : Cluster) : Prop :=
  s.exited = false ∧ ∃ entry ∈ s.coordinator.workerBook, entry.1 ∉ s.crashed

/-- What the rounds start from and come back to. -/
structure Ready (job : Job) (d : Dir) (s : Cluster) : Prop where
  consistent : s.Consistent job
  inputs : ∀ name, ¬ IsMrName name → s.dir name = d name
  alive : s.Alive

/-- Steps of work keep all of it but the life of the workers. -/
theorem Ready.of_reachableFrom (hs : s.Ready job d)
    (h : (job.cluster d).ReachableFrom (fun _ e ↦ e.IsWork) s t) (halive : t.Alive) :
    t.Ready job d := by
  have hboth : t.Consistent job ∧ ∀ name, ¬ IsMrName name → t.dir name = d name := by
    apply h.invariant (I := fun t ↦ t.Consistent job ∧
      ∀ name, ¬ IsMrName name → t.dir name = d name) ⟨hs.consistent, hs.inputs⟩
    intro s event t hs _ hstep
    refine ⟨hs.1.step hstep, fun name hname ↦ ?_⟩
    rw [dir_eq_of_step hstep hname, hs.2 name hname]
  exact ⟨hboth.1, hboth.2, halive⟩

/-! ## One execution to its end -/

/-- The steps of one execution that nobody interrupts are steps of the cluster. -/
theorem reachableFrom_of_alone {k : ℕ} {e : Execution} {p q : Phase × Dir}
    (h : Phase.Alone job p q) (he : s.executions[k]? = some e) (hrunning : e.status = .running)
    (hphase : e.phase = p.1) (hdir : s.dir = p.2) :
    (job.cluster d).ReachableFrom (fun _ e ↦ e.IsWork) s
      { s with executions := s.executions.set k { e with phase := q.1 }, dir := q.2 } := by
  induction h with
  | refl =>
    obtain ⟨hlt, rfl⟩ := List.getElem?_eq_some_iff.mp he
    have hsame : s.executions.set k { s.executions[k] with phase := p.1 } = s.executions := by
      rw [← hphase]
      exact List.set_getElem_self hlt
    rw [hsame, ← hdir]
    exact .refl
  | @tail q r _ hadvance ih =>
    refine .step (e := .advance k) ih trivial ?_
    have hlt := (List.getElem?_eq_some_iff.mp he).1
    simp [Job.cluster, Cluster.step, Cluster.advance, hlt, hrunning, hadvance]

/-- A fresh execution of a task of the job can be run to its end. -/
theorem alone_of_fresh (hpos : 0 < job.nReduce)
    (hinputs : ∀ f ∈ job.filenames, ¬ IsMrName f ∧ d f ≠ none)
    (hdir : ∀ name, ¬ IsMrName name → s.dir name = d name) {phase : Phase}
    (hassigned : phase.Assigned job)
    (hfresh : (∃ reply, phase = .ofMap reply) ∨ ∃ reply, phase = .ofReduce reply) :
    ∃ q d', Phase.Alone job (phase, s.dir) (q, d') ∧ q.isFinished = true ∧
      q.task = phase.task := by
  obtain ⟨reply, rfl⟩ | ⟨reply, rfl⟩ := hfresh
  · obtain ⟨nReduce, filename, i⟩ := reply
    obtain ⟨hfile, rfl⟩ : job.filenames[i]? = some filename ∧ nReduce = job.nReduce := hassigned
    obtain ⟨hname, hexists⟩ := hinputs filename (List.mem_of_getElem? hfile)
    obtain ⟨content, hcontent⟩ := Option.ne_none_iff_exists'.mp hexists
    have hread : s.dir filename = some content := by rw [hdir filename hname, hcontent]
    have hexec : ∃ d', job.mapExec i s.dir = some d' := by
      simp [Job.mapExec, hfile, performMap, hread, hpos.ne']
    obtain ⟨d', hd'⟩ := hexec
    obtain ⟨handles, halone⟩ := Phase.alone_mapExec hfile hd'
    exact ⟨_, _, halone, rfl, rfl⟩
  · obtain ⟨r, files⟩ := reply
    obtain rfl : files = reduceFiles job.filenames.length r := hassigned
    obtain ⟨offset, halone⟩ := Phase.alone_reduceExec job r s.dir
    exact ⟨_, _, halone, rfl, rfl⟩

theorem step_report {k : ℕ} {e : Execution} (he : s.executions[k]? = some e)
    (hrunning : e.status = .running) (hfinished : e.phase.isFinished = true) :
    (job.cluster d).step s (.report k) = some
      { s with
        executions := s.executions.set k { e with status := .reported }
        reports := s.reports ++ [e.phase.task] } := by
  simp [Job.cluster, Cluster.step, he, hrunning, hfinished]

theorem step_deliver {task : Task} {c : Coordinator} {all : Bool} (hup : s.exited = false)
    (htask : task ∈ s.reports) (h : s.coordinator.checkLastDone task = some (c, all)) :
    (job.cluster d).step s (.deliver task) = some { s with coordinator := c } := by
  simp [Job.cluster, Cluster.step, hup, htask, h]

/-! ## One task more -/

/-- The number of tasks that are not complete. -/
def remaining (s : Cluster) : ℕ :=
  (s.coordinator.size .map - s.coordinator.doneCount .map) +
    (s.coordinator.size .reduce - s.coordinator.doneCount .reduce)

/-- The first report of a task leaves one task less. -/
theorem remaining_deliver (hs : s.Consistent job) {task : Task} {c : Coordinator} {all : Bool}
    (hflag : (s.coordinator.complete task.kind)[task.id]? = some false)
    (h : s.coordinator.checkLastDone task = some (c, all)) :
    { s with coordinator := c }.remaining < s.remaining := by
  have hlt : s.coordinator.doneCount task.kind < s.coordinator.size task.kind := by
    rw [hs.valid.doneCount_eq, ← hs.valid.length_complete]
    apply lt_of_le_of_ne (List.count_le_length ..)
    intro hall
    have htrue := List.count_eq_length.mp hall false (List.mem_of_getElem? hflag)
    cases htrue
  rcases Coordinator.checkLastDone_eq_some h with ⟨hcomplete, -⟩ | ⟨-, rfl⟩
  · exact absurd (hflag.symm.trans hcomplete) (by simp)
  · obtain ⟨kind, id⟩ := task
    cases kind with
    | map =>
      simp only [remaining, Coordinator.size_countDone, Coordinator.size_markComplete,
        Coordinator.doneCount_countDone, Coordinator.doneCount_markComplete]
      dsimp only at hlt ⊢
      simp only [if_true, reduceCtorEq, if_false]
      omega
    | reduce =>
      simp only [remaining, Coordinator.size_countDone, Coordinator.size_markComplete,
        Coordinator.doneCount_countDone, Coordinator.doneCount_markComplete]
      dsimp only at hlt ⊢
      simp only [if_true, reduceCtorEq, if_false]
      omega

/-- A fresh execution of an incomplete task is run to its end, reported, and recorded. -/
theorem Ready.finish (hs : s.Ready job d) (hpos : 0 < job.nReduce)
    (hinputs : ∀ f ∈ job.filenames, ¬ IsMrName f ∧ d f ≠ none) {k : ℕ} {e : Execution}
    (he : s.executions[k]? = some e) (hrunning : e.status = .running)
    (hfresh : (∃ reply, e.phase = .ofMap reply) ∨ ∃ reply, e.phase = .ofReduce reply)
    (hnot : ¬ s.coordinator.IsComplete e.phase.task) :
    ∃ t, (job.cluster d).ReachableFrom (fun _ e ↦ e.IsWork) s t ∧ t.Ready job d ∧
      t.remaining < s.remaining := by
  obtain ⟨hgiven, hassigned⟩ := hs.consistent.executions e (List.mem_of_getElem? he)
  have hlt := (List.getElem?_eq_some_iff.mp he).1
  obtain ⟨q, d', halone, hfinished, htask⟩ := alone_of_fresh hpos hinputs hs.inputs hassigned hfresh
  have hrun := reachableFrom_of_alone (d := d) halone he hrunning rfl rfl
  have hflag : (s.coordinator.complete e.phase.task.kind)[e.phase.task.id]? = some false := by
    obtain ⟨flag, hflag⟩ := hs.consistent.exists_flag hgiven
    cases flag with
    | true => exact absurd hflag hnot
    | false => exact hflag
  obtain ⟨⟨c, all⟩, hc⟩ : ∃ given, s.coordinator.checkLastDone e.phase.task = some given := by
    simp [Coordinator.checkLastDone, hflag]
  -- The report is sent, and then it is delivered.
  have hreport := hrun.step (by trivial)
    (step_report (List.getElem?_set_self hlt) hrunning hfinished)
  have hdeliver := hreport.step (by trivial)
    (step_deliver hs.alive.1 (by simp [htask]) hc)
  refine ⟨_, hdeliver, hs.of_reachableFrom hdeliver ⟨hs.alive.1, ?_⟩, ?_⟩
  · obtain ⟨_, _, _, _, hframe⟩ := Coordinator.checkLastDone_frame hc
    dsimp only
    rw [hframe]
    exact hs.alive.2
  · exact remaining_deliver hs.consistent hflag hc

end Cluster

end DistKvRaft.MapReduce
