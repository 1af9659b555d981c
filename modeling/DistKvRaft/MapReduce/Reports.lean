import DistKvRaft.Foundation.Lists
import DistKvRaft.Foundation.Machine
import DistKvRaft.MapReduce.Coordinator

/-!
# Concurrent reports

Every request is served in a goroutine of its own, and `CheckLastMapDone` and
`CheckLastReduceDone` take the lock only for the increment: the test of the flag, the store of
`true` and the increment are three steps, in any interleaving of any number of calls.  A task is
counted twice exactly when a second call passes its test after the first one passed its own and
before it stored `true`; `counts_iff_no_overlap` says so for every run.

The comparison of the counter that follows in the source only determines the answer of the call.
-/

namespace DistKvRaft.MapReduce

open Go

/-- Where a call stands: before its test, between test and store, between store and increment, or
behind all of them. -/
inductive Stage
  | called
  | tested
  | stored
  | returned
  deriving DecidableEq

/-- A call of `CheckLastMapDone` or `CheckLastReduceDone`, for a task of the one kind or the
other. -/
structure Call where
  task : Task
  stage : Stage
  deriving DecidableEq

/-- The call is one of the given kind, between its test and its increment. -/
def Call.isUnderWay (kind : Kind) (call : Call) : Bool :=
  call.task.kind = kind ∧ (call.stage = .tested ∨ call.stage = .stored)

/-- The coordinator and the calls that were made so far. -/
structure Reports where
  coordinator : Coordinator
  calls : List Call

inductive ReportEvent
  | call (task : Task)
  /-- the next step of call `k` -/
  | advance (k : ℕ)
  deriving DecidableEq

namespace Reports

/-- The next step of a call.  A test with an index out of range ends the coordinator. -/
def advance (s : Reports) (k : ℕ) (call : Call) : Option Reports :=
  match call.stage with
  | .called => ((s.coordinator.complete call.task.kind)[call.task.id]?).map fun flag ↦
    { s with calls := s.calls.set k { call with stage := if flag then .returned else .tested } }
  | .tested => some
    ⟨s.coordinator.markComplete call.task, s.calls.set k { call with stage := .stored }⟩
  | .stored => some
    ⟨s.coordinator.countDone call.task.kind, s.calls.set k { call with stage := .returned }⟩
  | .returned => none

def step (s : Reports) : ReportEvent → Option Reports
  | .call task => some { s with calls := s.calls ++ [⟨task, .called⟩] }
  | .advance k => (s.calls[k]?).bind (s.advance k)

/-- The number of calls for a task that are between their test and their store. -/
def pending (s : Reports) (task : Task) : ℕ := s.calls.countP (· = ⟨task, .tested⟩)

/-- The number of calls of a kind that are between their test and their increment. -/
def inFlight (s : Reports) (kind : Kind) : ℕ := s.calls.countP (·.isUnderWay kind)

/-- No call is between its test and its increment. -/
def Quiescent (s : Reports) : Prop :=
  ∀ call ∈ s.calls, call.stage ≠ .tested ∧ call.stage ≠ .stored

instance (s : Reports) : Decidable s.Quiescent := by
  unfold Quiescent
  infer_instance

/-- The event is a test that passes while another call for the same task is between its test and
its store. -/
def overlaps (s : Reports) (kind : Kind) : ReportEvent → Bool
  | .call _ => false
  | .advance k => (s.calls[k]?).any fun call ↦ call.stage = .called ∧ call.task.kind = kind ∧
    (s.coordinator.complete kind)[call.task.id]? = some false ∧ 0 < s.pending call.task

end Reports

/-- Reports to a fresh coordinator. -/
def reports (files : List GoString) (nReduce : ℕ) : Machine Reports ReportEvent :=
  ⟨⟨makeCoordinator files nReduce, []⟩, Reports.step⟩

namespace Reports

variable {s t : Reports} {kind : Kind}

/-! ## A call without interruption -/

/-- The three steps of a call, taken without interruption, are `checkLastDone`. -/
theorem run_call {files : List GoString} {nReduce : ℕ} {task : Task} {c : Coordinator} {all : Bool}
    (h : s.coordinator.checkLastDone task = some (c, all)) :
    ∃ es, (reports files nReduce).run s (.call task :: es) =
      some ⟨c, s.calls ++ [⟨task, .returned⟩]⟩ := by
  rcases Coordinator.checkLastDone_eq_some h with ⟨hset, rfl⟩ | ⟨hflag, rfl⟩
  · refine ⟨[.advance s.calls.length], ?_⟩
    rw [Coordinator.IsComplete] at hset
    simp [Machine.run, reports, step, advance, hset]
  · refine ⟨[.advance s.calls.length, .advance s.calls.length, .advance s.calls.length], ?_⟩
    simp [Machine.run, reports, step, advance, hflag]

/-! ## Counting calls -/

section Set

variable {k : ℕ} {call : Call}

theorem pending_set (h : s.calls[k]? = some call) (c : Coordinator) (call' : Call) (task : Task) :
    (⟨c, s.calls.set k call'⟩ : Reports).pending task + (if call = ⟨task, .tested⟩ then 1 else 0) =
      s.pending task + if call' = ⟨task, .tested⟩ then 1 else 0 := by
  simpa [pending] using Lists.countP_set_add (p := (decide <| · = ⟨task, .tested⟩)) h call'

theorem inFlight_set (h : s.calls[k]? = some call) (c : Coordinator) (call' : Call) (kind : Kind) :
    (⟨c, s.calls.set k call'⟩ : Reports).inFlight kind + (if call.isUnderWay kind then 1 else 0) =
      s.inFlight kind + if call'.isUnderWay kind then 1 else 0 :=
  Lists.countP_set_add h call'

end Set

/-! ## Tasks that are or will be marked -/

/-- The flags of a kind as they will be once the calls that passed their test have stored `true`. -/
def marks (s : Reports) (kind : Kind) : List Bool :=
  (s.coordinator.complete kind).mapIdx fun id flag ↦ flag || 0 < s.pending ⟨kind, id⟩

theorem getElem?_marks (id : ℕ) :
    (s.marks kind)[id]? = ((s.coordinator.complete kind)[id]?).map
      fun flag ↦ flag || 0 < s.pending ⟨kind, id⟩ := by
  rw [marks, List.getElem?_mapIdx]

theorem count_set_true {l : List Bool} {id : ℕ} {old : Bool} (h : l[id]? = some old) :
    (l.set id true).count true = l.count true + if old then 0 else 1 := by
  obtain ⟨hlt, rfl⟩ := List.getElem?_eq_some_iff.mp h
  rw [List.count_set hlt]
  cases hold : l[id] with
  | false => simp
  | true =>
    have hpos : 0 < l.count true := List.count_pos_iff.mpr (hold ▸ List.getElem_mem hlt)
    simp only [beq_self_eq_true, if_true]
    omega

/-- The calls counted so far and those under way are as many as the tasks that are or will be
marked, and `excess` more. -/
def Balanced (s : Reports) (kind : Kind) (excess : ℕ) : Prop :=
  s.coordinator.doneCount kind + s.inFlight kind = (s.marks kind).count true + excess

theorem marks_congr (hcomplete : t.coordinator.complete kind = s.coordinator.complete kind)
    (hpending : ∀ id, t.pending ⟨kind, id⟩ = s.pending ⟨kind, id⟩) :
    t.marks kind = s.marks kind := by
  simp [marks, hcomplete, hpending]

theorem balanced_congr {excess : ℕ} (hs : s.Balanced kind excess)
    (hdone : t.coordinator.doneCount kind + t.inFlight kind =
      s.coordinator.doneCount kind + s.inFlight kind) (hmarks : t.marks kind = s.marks kind) :
    t.Balanced kind excess := by
  rw [Balanced, hdone, hmarks]
  exact hs

section Step

variable {k : ℕ} {call : Call} {excess : ℕ}

/-- A test that fails. -/
theorem Balanced.return (hs : s.Balanced kind excess) (hk : s.calls[k]? = some call)
    (hstage : call.stage = .called) :
    Balanced { s with calls := s.calls.set k { call with stage := .returned } } kind excess := by
  obtain ⟨task, stage⟩ := call
  cases hstage
  have hflight : inFlight { s with calls := s.calls.set k ⟨task, .returned⟩ } kind =
      s.inFlight kind := by
    simpa [Call.isUnderWay] using inFlight_set hk s.coordinator ⟨task, .returned⟩ kind
  refine balanced_congr hs (by rw [hflight]) (marks_congr rfl fun id ↦ ?_)
  simpa using pending_set hk s.coordinator ⟨task, .returned⟩ ⟨kind, id⟩

/-- A test of another kind that passes. -/
theorem Balanced.test_of_ne (hs : s.Balanced kind excess) (hk : s.calls[k]? = some call)
    (hstage : call.stage = .called) (hkind : call.task.kind ≠ kind) :
    Balanced { s with calls := s.calls.set k { call with stage := .tested } } kind excess := by
  obtain ⟨task, stage⟩ := call
  cases hstage
  have hflight : inFlight { s with calls := s.calls.set k ⟨task, .tested⟩ } kind =
      s.inFlight kind := by
    simpa [Call.isUnderWay, hkind] using inFlight_set hk s.coordinator ⟨task, .tested⟩ kind
  refine balanced_congr hs (by rw [hflight]) (marks_congr rfl fun id ↦ ?_)
  have hne : task ≠ ⟨kind, id⟩ := fun h ↦ hkind (h ▸ rfl)
  simpa [hne] using pending_set hk s.coordinator ⟨task, .tested⟩ ⟨kind, id⟩

/-- A test that passes marks the task. -/
theorem marks_test (hk : s.calls[k]? = some call) (hstage : call.stage = .called)
    (hflag : (s.coordinator.complete call.task.kind)[call.task.id]? = some false) :
    marks { s with calls := s.calls.set k { call with stage := .tested } } call.task.kind =
      (s.marks call.task.kind).set call.task.id true := by
  obtain ⟨task, stage⟩ := call
  cases hstage
  refine List.ext_getElem? fun id ↦ ?_
  have hpending := pending_set hk s.coordinator ⟨task, .tested⟩ ⟨task.kind, id⟩
  by_cases heq : task.id = id
  · subst heq
    have hone : pending { s with calls := s.calls.set k ⟨task, .tested⟩ } task =
        s.pending task + 1 := by simpa using hpending
    have hlt : task.id < (s.marks task.kind).length := by
      simpa [marks] using (List.getElem?_eq_some_iff.mp hflag).1
    rw [List.getElem?_set_self hlt, getElem?_marks, hflag]
    simp [hone]
  · have hne : task ≠ ⟨task.kind, id⟩ := fun h ↦ heq (congrArg Task.id h)
    have hsame : pending { s with calls := s.calls.set k ⟨task, .tested⟩ } ⟨task.kind, id⟩ =
        s.pending ⟨task.kind, id⟩ := by simpa [hne] using hpending
    rw [List.getElem?_set_ne heq, getElem?_marks, getElem?_marks, hsame]

/-- A test that passes: the task is marked by it, unless another call has marked it already. -/
theorem Balanced.test (hs : s.Balanced call.task.kind excess) (hk : s.calls[k]? = some call)
    (hstage : call.stage = .called)
    (hflag : (s.coordinator.complete call.task.kind)[call.task.id]? = some false) :
    Balanced { s with calls := s.calls.set k { call with stage := .tested } } call.task.kind
      (excess + if 0 < s.pending call.task then 1 else 0) := by
  obtain ⟨task, stage⟩ := call
  cases hstage
  dsimp only at hs hflag ⊢
  have hmark : (s.marks task.kind)[task.id]? = some (decide (0 < s.pending task)) := by
    simp [getElem?_marks, hflag]
  have hmarks := marks_test hk rfl hflag
  have hcount := count_set_true hmark
  have hflight : inFlight { s with calls := s.calls.set k ⟨task, .tested⟩ } task.kind =
      s.inFlight task.kind + 1 := by
    simpa [Call.isUnderWay] using inFlight_set hk s.coordinator ⟨task, .tested⟩ task.kind
  rw [Balanced] at hs ⊢
  rw [hmarks, hcount, hflight]
  by_cases hpos : 0 < s.pending task
  · simp only [hpos, if_true, decide_true]
    omega
  · simp only [hpos, if_false, decide_false, Bool.false_eq_true]
    omega

/-- The store leaves the task marked. -/
theorem Balanced.store (hs : s.Balanced kind excess) (hk : s.calls[k]? = some call)
    (hstage : call.stage = .tested) :
    Balanced ⟨s.coordinator.markComplete call.task, s.calls.set k { call with stage := .stored }⟩
      kind excess := by
  obtain ⟨task, stage⟩ := call
  cases hstage
  have hflight : inFlight ⟨s.coordinator.markComplete task, s.calls.set k ⟨task, .stored⟩⟩ kind =
      s.inFlight kind := by
    simpa [Call.isUnderWay] using
      inFlight_set hk (s.coordinator.markComplete task) ⟨task, .stored⟩ kind
  refine balanced_congr hs ?_ (List.ext_getElem? fun id ↦ ?_)
  · rw [hflight, Coordinator.doneCount_markComplete]
  · have hpending := pending_set hk (s.coordinator.markComplete task) ⟨task, .stored⟩ ⟨kind, id⟩
    rw [getElem?_marks, getElem?_marks, Coordinator.complete_markComplete]
    by_cases heq : task = ⟨kind, id⟩
    · subst heq
      have hpos : 0 < s.pending ⟨kind, id⟩ := by
        simp only [reduceCtorEq, and_false, Call.mk.injEq, if_true, if_false] at hpending
        omega
      cases hget : (s.coordinator.complete kind)[id]? with
      | none => simpa using hget
      | some flag =>
        rw [if_pos rfl, List.getElem?_set_self (List.getElem?_eq_some_iff.mp hget).1]
        simp [hpos]
    · have hsame : pending ⟨s.coordinator.markComplete task, s.calls.set k ⟨task, .stored⟩⟩
          ⟨kind, id⟩ = s.pending ⟨kind, id⟩ := by simpa [heq] using hpending
      rw [hsame]
      split_ifs with hkind
      · have hne : task.id ≠ id := fun h ↦ heq (Task.ext hkind.symm h)
        rw [List.getElem?_set_ne hne]
      · rfl

/-- The increment counts the call that is under way. -/
theorem Balanced.increment (hs : s.Balanced kind excess) (hk : s.calls[k]? = some call)
    (hstage : call.stage = .stored) :
    Balanced ⟨s.coordinator.countDone call.task.kind,
      s.calls.set k { call with stage := .returned }⟩ kind excess := by
  obtain ⟨task, stage⟩ := call
  cases hstage
  have hflight := inFlight_set hk (s.coordinator.countDone task.kind) ⟨task, .returned⟩ kind
  refine balanced_congr hs ?_ (marks_congr (Coordinator.complete_countDone ..) fun id ↦ ?_)
  · rw [Coordinator.doneCount_countDone]
    by_cases hkind : kind = task.kind
    · simp only [Call.isUnderWay, hkind] at hflight ⊢
      simp only [reduceCtorEq, or_true, or_self, and_true, and_false, decide_true, decide_false,
        if_true, Bool.false_eq_true, if_false] at hflight ⊢
      omega
    · simp only [Call.isUnderWay, Ne.symm hkind, hkind, false_and, decide_false,
        Bool.false_eq_true, if_false] at hflight ⊢
      omega
  · simpa using pending_set hk (s.coordinator.countDone task.kind) ⟨task, .returned⟩ ⟨kind, id⟩

/-- Every step keeps the balance, and a test that overlaps another call adds one to the excess. -/
theorem Balanced.step (hs : s.Balanced kind excess) {event : ReportEvent}
    (h : s.step event = some t) :
    t.Balanced kind (excess + if s.overlaps kind event then 1 else 0) := by
  cases event with
  | call task =>
    cases h
    refine balanced_congr hs ?_ (marks_congr rfl fun id ↦ ?_)
    · simp [inFlight, Call.isUnderWay]
    · simp [pending]
  | advance k =>
    obtain ⟨call, hk, h⟩ := Option.bind_eq_some_iff.mp h
    have hoverlaps : s.overlaps kind (.advance k) = decide (call.stage = .called ∧
        call.task.kind = kind ∧ (s.coordinator.complete kind)[call.task.id]? = some false ∧
        0 < s.pending call.task) := by
      simp only [overlaps, hk, Option.any_some]
    rw [hoverlaps]
    unfold Reports.advance at h
    split at h
    · next hstage =>
      obtain ⟨flag, hflag, rfl⟩ := Option.map_eq_some_iff.mp h
      cases flag with
      | true =>
        have hnot : ¬ (call.task.kind = kind ∧
            (s.coordinator.complete kind)[call.task.id]? = some false ∧
            0 < s.pending call.task) := by
          rintro ⟨rfl, hfalse, -⟩
          exact absurd (hflag.symm.trans hfalse) (by simp)
        simpa [hstage, hnot] using hs.return hk hstage
      | false =>
        by_cases hkind : call.task.kind = kind
        · subst hkind
          simpa [hstage, hflag] using hs.test hk hstage hflag
        · simpa [hstage, hkind] using hs.test_of_ne hk hstage hkind
    · next hstage =>
      cases h
      simpa [hstage] using hs.store hk hstage
    · next hstage =>
      cases h
      simpa [hstage] using hs.increment hk hstage
    · cases h

end Step

variable {files : List GoString} {nReduce : ℕ}

theorem Balanced.run {excess : ℕ} (hs : s.Balanced kind excess) {events : List ReportEvent}
    (h : (reports files nReduce).run s events = some t) :
    t.Balanced kind
      (excess + (reports files nReduce).countAlong (fun s ↦ s.overlaps kind) s events) := by
  induction events generalizing s excess with
  | nil =>
    cases h
    exact hs
  | cons event events ih =>
    obtain ⟨u, hstep, hrun⟩ := Machine.run_cons_eq_some h
    rw [Machine.countAlong_cons hstep, ← Nat.add_assoc]
    exact ih (hs.step hstep) hrun

theorem marks_of_quiescent (h : s.Quiescent) : s.marks kind = s.coordinator.complete kind := by
  refine List.ext_getElem? fun id ↦ ?_
  have hpending : s.pending ⟨kind, id⟩ = 0 := by
    refine List.countP_eq_zero.mpr fun call hcall ↦ ?_
    rintro hdecide
    exact (h call hcall).1 (congrArg Call.stage (of_decide_eq_true hdecide))
  simp [getElem?_marks, hpending]

theorem inFlight_of_quiescent (h : s.Quiescent) : s.inFlight kind = 0 := by
  refine List.countP_eq_zero.mpr fun call hcall ↦ ?_
  simp [Call.isUnderWay, h call hcall]

theorem balanced_init (kind : Kind) : (reports files nReduce).init.Balanced kind 0 := by
  have hquiet : (reports files nReduce).init.Quiescent :=
    fun _ hcall ↦ absurd hcall List.not_mem_nil
  have hcount := (Coordinator.valid_makeCoordinator files nReduce).doneCount_eq kind
  rw [Balanced, marks_of_quiescent hquiet, inFlight_of_quiescent hquiet]
  exact hcount

/-- Flags are neither added nor removed. -/
theorem length_complete_of_reachable (h : (reports files nReduce).Reachable s) (kind : Kind) :
    (s.coordinator.complete kind).length = s.coordinator.size kind := by
  refine h.invariant (I := fun s ↦
    (s.coordinator.complete kind).length = s.coordinator.size kind) ?_ fun s event t hs hstep ↦ ?_
  · exact (Coordinator.valid_makeCoordinator files nReduce).length_complete kind
  · cases event with
    | call task =>
      cases hstep
      exact hs
    | advance k =>
      obtain ⟨call, -, hstep⟩ := Option.bind_eq_some_iff.mp hstep
      unfold Reports.advance at hstep
      split at hstep
      · obtain ⟨flag, -, rfl⟩ := Option.map_eq_some_iff.mp hstep
        exact hs
      · cases hstep
        rw [Coordinator.complete_markComplete, Coordinator.size_markComplete]
        split_ifs
        · rw [List.length_set, hs]
        · exact hs
      · cases hstep
        rw [Coordinator.complete_countDone, Coordinator.size_countDone, hs]
      · cases hstep

/-- **Tasks are counted once.** In a state in which no call is between its test and its increment,
the counters of both kinds equal the number of set flags if and only if no call passed its test
while another call for the same task was between its test and its store; and then no counter exceeds
the number of tasks, and reaches it only when every task of the kind is complete. -/
theorem counts_iff_no_overlap (files : List GoString) (nReduce : ℕ) {events : List ReportEvent}
    {s : Reports} (h : (reports files nReduce).run (reports files nReduce).init events = some s)
    (hquiet : s.Quiescent) :
    ((∀ kind, s.coordinator.doneCount kind = (s.coordinator.complete kind).count true) ↔
      ∀ kind, (reports files nReduce).Permits (fun s event ↦ s.overlaps kind event = false)
        (reports files nReduce).init events) ∧
    ((∀ kind, s.coordinator.doneCount kind = (s.coordinator.complete kind).count true) →
      ∀ kind, s.coordinator.doneCount kind ≤ s.coordinator.size kind ∧
        (s.coordinator.doneCount kind = s.coordinator.size kind →
          ∀ id < s.coordinator.size kind, s.coordinator.IsComplete ⟨kind, id⟩)) := by
  have hlength := length_complete_of_reachable (.of_run h)
  refine ⟨forall_congr' fun kind ↦ ?_, fun hcounts kind ↦ ?_⟩
  · have hbalance := (balanced_init kind).run h
    rw [Balanced, inFlight_of_quiescent hquiet, marks_of_quiescent hquiet, Nat.zero_add,
      Nat.add_zero] at hbalance
    rw [← Machine.countAlong_eq_zero_iff h, hbalance]
    exact Nat.add_eq_left
  · rw [hcounts kind, ← hlength kind]
    refine ⟨List.count_le_length, fun hall id hid ↦ ?_⟩
    rw [List.count_eq_length] at hall
    rw [Coordinator.IsComplete, List.getElem?_eq_getElem hid, ← hall _ (List.getElem_mem hid)]

/-- Two calls for different tasks, one inside the other. -/
theorem counts_nested :
    ∃ s, (reports [ascii "in", ascii "in"] 1).run (reports [ascii "in", ascii "in"] 1).init
        [.call (.map 0), .call (.map 1), .advance 0, .advance 1, .advance 1, .advance 1, .advance 0,
          .advance 0] = some s ∧
      s.Quiescent ∧
      ((∀ kind, s.coordinator.doneCount kind = (s.coordinator.complete kind).count true) ↔
        ∀ kind, (reports [ascii "in", ascii "in"] 1).Permits
          (fun s event ↦ s.overlaps kind event = false) (reports [ascii "in", ascii "in"] 1).init
          [.call (.map 0), .call (.map 1), .advance 0, .advance 1, .advance 1, .advance 1,
            .advance 0, .advance 0]) :=
  ⟨_, rfl, by decide, (counts_iff_no_overlap _ _ rfl (by decide)).1⟩

/-- The worker of a task and a second execution of it report at the same time: both calls pass their
test before either stores `true`, and the counter overshoots the number of input files. -/
theorem counted_twice :
    ∃ s, (reports [ascii "in"] 1).Reachable s ∧ s.Quiescent ∧ s.coordinator.doneMap = 2 ∧
      s.coordinator.mapComplete.count true = 1 ∧ s.coordinator.filenames.length = 1 :=
  Machine.exists_reachable
    [.call (.map 0), .call (.map 0), .advance 0, .advance 1, .advance 0, .advance 1, .advance 0,
      .advance 1]
    (by decide)

end Reports

end DistKvRaft.MapReduce
