import DistKvRaft.Foundation.Lists
import DistKvRaft.Foundation.Machine
import DistKvRaft.MapReduce.Coordinator

/-!
# Concurrent requests for tasks

`GiveMapTask` and `GiveReduceTask` compare their counter with the number of tasks before they take
the lock, and do not compare again under it.  Here the tests and the locked section are steps of
their own, in any interleaving of any number of requests of one kind.

The load of a state is the counter together with the requests between their test and the lock.  It
grows exactly when a request passes its test, and the numbers handed out stay in range exactly as
long as it does not exceed the number of tasks.
-/

namespace DistKvRaft.MapReduce

open Go

/-- The task in the answer of `GiveMapTask` or `GiveReduceTask`. -/
inductive Reply
  | map (reply : MapReply)
  | reduce (reply : ReduceReply)
  deriving DecidableEq

/-- The number of the task. -/
def Reply.id : Reply → ℕ
  | .map reply => reply.maptaskId
  | .reduce reply => reply.reducetaskId

/-- An answer of `giveMapTask` or `giveReduceTask` as the answer of a request. -/
def Answer.map {α β : Type} (f : α → β) : Answer α → Answer β
  | .eof => .eof
  | .notReady => .notReady
  | .task reply => .task (f reply)

/-- Where a request stands: before its tests, behind the test of the phase (`GiveReduceTask` only),
behind all tests and before the lock, or answered. -/
inductive RequestStage
  | called
  | phaseTested
  | admitted
  | answered (answer : Answer Reply)
  deriving DecidableEq

namespace RequestStage

/-- The request has a test to make. -/
def isTesting : RequestStage → Bool
  | called | phaseTested => true
  | _ => false

/-- The task the request was answered with. -/
def reply : RequestStage → Option Reply
  | .answered (.task reply) => some reply
  | _ => none

end RequestStage

namespace Coordinator

variable (c : Coordinator)

/-- The test of the counter, outside the lock. -/
def testBound (kind : Kind) : RequestStage :=
  if c.counter kind ≥ c.size kind then .answered .eof else .admitted

/-- The tests of `GiveMapTask` and `GiveReduceTask`, one at a time. -/
def testRequest : Kind → RequestStage → RequestStage
  | .map, .called => c.testBound .map
  | .reduce, .called =>
    if ¬ c.doneMap = c.filenames.length then .answered .notReady else .phaseTested
  | kind, .phaseTested => c.testBound kind
  | _, stage => stage

/-- The locked section of `GiveMapTask` or `GiveReduceTask`; `none` where the index is out of
range. -/
def giveTaskLocked : Kind → Option (Coordinator × Reply)
  | .map => c.giveMapTaskLocked.map fun given ↦ (given.1, .map given.2)
  | .reduce => some (c.giveReduceTaskLocked.1, .reduce c.giveReduceTaskLocked.2)

end Coordinator

/-- The coordinator and the requests that were made so far.  A panic in a handler is not recovered
by `net/rpc` and ends the coordinator. -/
structure Requests where
  coordinator : Coordinator
  stages : List RequestStage
  crashed : Bool

inductive RequestEvent
  | call
  /-- the next step of request `k` -/
  | advance (k : ℕ)
  deriving DecidableEq

namespace Requests

/-- The next step of a request. -/
def advance (kind : Kind) (s : Requests) (k : ℕ) : RequestStage → Option Requests
  | .answered _ => none
  | .admitted =>
    match s.coordinator.giveTaskLocked kind with
    | none => some { s with crashed := true }
    | some (c, reply) =>
      some { s with coordinator := c, stages := s.stages.set k (.answered (.task reply)) }
  | stage => some { s with stages := s.stages.set k (s.coordinator.testRequest kind stage) }

def step (kind : Kind) (s : Requests) (event : RequestEvent) : Option Requests :=
  if s.crashed then none
  else match event with
    | .call => some { s with stages := s.stages ++ [.called] }
    | .advance k => (s.stages[k]?).bind (s.advance kind k)

/-- The tasks handed out. -/
def handed (s : Requests) : List Reply := s.stages.filterMap RequestStage.reply

/-- The event is a test that lets its request through to the lock. -/
def admits (kind : Kind) (s : Requests) : RequestEvent → Bool
  | .call => false
  | .advance k => (s.stages[k]?).any fun stage ↦
    stage.isTesting ∧ s.coordinator.testRequest kind stage = .admitted

/-- The counter and the requests between their test and the lock. -/
def load (kind : Kind) (s : Requests) : ℕ :=
  s.coordinator.counter kind + s.stages.countP (· = .admitted)

/-- The event is the locked section of a request. -/
def Serves (s : Requests) (event : RequestEvent) : Prop :=
  ∃ k, event = .advance k ∧ s.stages[k]? = some .admitted

/-- No index was out of range, every number handed out is that of a task, and none was handed out
twice. -/
structure Safe (kind : Kind) (s : Requests) : Prop where
  alive : s.crashed = false
  id_lt : ∀ reply ∈ s.handed, reply.id < s.coordinator.size kind
  nodup : (s.handed.map Reply.id).Nodup

end Requests

/-- Requests of one kind to the coordinator `c`. -/
def requests (kind : Kind) (c : Coordinator) : Machine Requests RequestEvent :=
  ⟨⟨c, [], false⟩, Requests.step kind⟩

/-! ## The locked section -/

section Locked

variable {c c' : Coordinator} {kind : Kind} {reply : Reply}

/-- The locked section hands out the next number and changes nothing but the counter. -/
theorem Coordinator.giveTaskLocked_eq_some (h : c.giveTaskLocked kind = some (c', reply)) :
    reply.id = c.counter kind ∧ c'.counter kind = c.counter kind + 1 ∧
      (∀ kind', c'.size kind' = c.size kind') ∧ ∀ kind', c'.complete kind' = c.complete kind' := by
  cases kind with
  | map =>
    obtain ⟨⟨d, given⟩, hgiven, heq⟩ := Option.map_eq_some_iff.mp h
    obtain ⟨filename, -, hd⟩ := Option.map_eq_some_iff.mp hgiven
    cases heq
    cases hd
    exact ⟨rfl, rfl, fun kind' ↦ by cases kind' <;> rfl, fun kind' ↦ by cases kind' <;> rfl⟩
  | reduce =>
    cases h
    exact ⟨rfl, rfl, fun kind' ↦ by cases kind' <;> rfl, fun kind' ↦ by cases kind' <;> rfl⟩

/-- The locked section panics only when all tasks are handed out. -/
theorem Coordinator.giveTaskLocked_eq_none (h : c.giveTaskLocked kind = none) :
    c.size kind ≤ c.counter kind := by
  cases kind with
  | map => simpa [giveTaskLocked, giveMapTaskLocked, size, counter] using h
  | reduce => cases h

/-- The files of a reduce task that is handed out are those of its own bucket. -/
theorem Coordinator.reducefiles_giveTaskLocked {reply : ReduceReply}
    (h : c.giveTaskLocked kind = some (c', .reduce reply)) {file : GoString}
    (hfile : file ∈ reply.reducefiles) : ∃ i, file = intermediateName i reply.reducetaskId := by
  cases kind with
  | map =>
    obtain ⟨given, -, heq⟩ := Option.map_eq_some_iff.mp h
    cases heq
  | reduce =>
    cases h
    obtain ⟨i, -, hi⟩ := List.mem_map.mp hfile
    exact ⟨i, hi.symm⟩

end Locked

namespace Requests

variable {c₀ : Coordinator} {kind : Kind} {s t : Requests} {event : RequestEvent}

/-! ## A request without interruption -/

section Uninterrupted

variable {c c' : Coordinator} {stages : List RequestStage}

theorem step_call_last :
    (requests kind c₀).step ⟨c, stages, false⟩ .call = some ⟨c, stages ++ [.called], false⟩ := rfl

/-- The test of the request that was made last. -/
theorem step_test_last {stage : RequestStage} (h : stage.isTesting = true) :
    (requests kind c₀).step ⟨c, stages ++ [stage], false⟩ (.advance stages.length) =
      some ⟨c, stages ++ [c.testRequest kind stage], false⟩ := by
  cases stage with
  | called => simp [requests, step, advance]
  | phaseTested => simp [requests, step, advance]
  | admitted => cases h
  | answered answer => cases h

/-- The locked section of the request that was made last. -/
theorem step_serve_last {reply : Reply} (h : c.giveTaskLocked kind = some (c', reply)) :
    (requests kind c₀).step ⟨c, stages ++ [.admitted], false⟩ (.advance stages.length) =
      some ⟨c', stages ++ [.answered (.task reply)], false⟩ := by
  simp [requests, step, advance, h]

/-- The steps of `GiveMapTask`, taken without interruption, are `giveMapTask`. -/
theorem run_giveMapTask {answer : Answer MapReply} (h : c.giveMapTask = some (c', answer)) :
    ∃ events, (requests .map c₀).run ⟨c, stages, false⟩ (.call :: events) =
      some ⟨c', stages ++ [.answered (answer.map .map)], false⟩ := by
  have htest : c.testRequest .map .called = c.testBound .map := rfl
  unfold Coordinator.giveMapTask at h
  split_ifs at h with hbound
  · cases h
    have heof : c.testBound .map = .answered .eof := if_pos hbound
    refine ⟨[.advance stages.length], ?_⟩
    rw [Machine.run_cons, step_call_last, Option.bind_some, Machine.run_cons, step_test_last rfl,
      htest, heof]
    rfl
  · obtain ⟨given, hgiven, heq⟩ := Option.map_eq_some_iff.mp h
    cases heq
    have hadmitted : c.testBound .map = .admitted := if_neg hbound
    have hlocked : c.giveTaskLocked .map = some (given.1, .map given.2) := by
      rw [Coordinator.giveTaskLocked, hgiven, Option.map_some]
    refine ⟨[.advance stages.length, .advance stages.length], ?_⟩
    rw [Machine.run_cons, step_call_last, Option.bind_some, Machine.run_cons, step_test_last rfl,
      htest, hadmitted, Option.bind_some, Machine.run_cons, step_serve_last hlocked]
    rfl

/-- The steps of `GiveReduceTask`, taken without interruption, are `giveReduceTask`. -/
theorem run_giveReduceTask :
    ∃ events, (requests .reduce c₀).run ⟨c, stages, false⟩ (.call :: events) =
      some ⟨c.giveReduceTask.1, stages ++ [.answered (c.giveReduceTask.2.map .reduce)], false⟩ := by
  have htest : c.testRequest .reduce .phaseTested = c.testBound .reduce := rfl
  unfold Coordinator.giveReduceTask
  by_cases hphase : c.doneMap = c.filenames.length
  · have hopen : c.testRequest .reduce .called = .phaseTested := if_neg (not_not.mpr hphase)
    rw [if_neg (not_not.mpr hphase)]
    by_cases hbound : c.counterReduce ≥ c.nReduce
    · have heof : c.testBound .reduce = .answered .eof := if_pos hbound
      refine ⟨[.advance stages.length, .advance stages.length], ?_⟩
      rw [if_pos hbound, Machine.run_cons, step_call_last, Option.bind_some, Machine.run_cons,
        step_test_last rfl, hopen, Option.bind_some, Machine.run_cons, step_test_last rfl, htest,
        heof]
      rfl
    · have hadmitted : c.testBound .reduce = .admitted := if_neg hbound
      refine ⟨[.advance stages.length, .advance stages.length, .advance stages.length], ?_⟩
      rw [if_neg hbound, Machine.run_cons, step_call_last, Option.bind_some, Machine.run_cons,
        step_test_last rfl, hopen, Option.bind_some, Machine.run_cons, step_test_last rfl, htest,
        hadmitted, Option.bind_some, Machine.run_cons, step_serve_last rfl]
      rfl
  · have hclosed : c.testRequest .reduce .called = .answered .notReady := if_pos hphase
    refine ⟨[.advance stages.length], ?_⟩
    rw [if_pos hphase, Machine.run_cons, step_call_last, Option.bind_some, Machine.run_cons,
      step_test_last rfl, hclosed]
    rfl

end Uninterrupted

/-! ## What a step does -/

inductive Transition (kind : Kind) (s : Requests) : RequestEvent → Requests → Prop
  | call : Transition kind s .call { s with stages := s.stages ++ [.called] }
  | test {k : ℕ} {stage : RequestStage} : s.stages[k]? = some stage → stage.isTesting = true →
      Transition kind s (.advance k)
        { s with stages := s.stages.set k (s.coordinator.testRequest kind stage) }
  | serve {k : ℕ} {c : Coordinator} {reply : Reply} : s.stages[k]? = some .admitted →
      s.coordinator.giveTaskLocked kind = some (c, reply) →
      Transition kind s (.advance k)
        { s with coordinator := c, stages := s.stages.set k (.answered (.task reply)) }
  | crash {k : ℕ} : s.stages[k]? = some .admitted → s.coordinator.giveTaskLocked kind = none →
      Transition kind s (.advance k) { s with crashed := true }

theorem transition_of_step (h : s.step kind event = some t) : Transition kind s event t := by
  unfold step at h
  split_ifs at h
  cases event with
  | call =>
    cases h
    exact .call
  | advance k =>
    obtain ⟨stage, hk, h⟩ := Option.bind_eq_some_iff.mp h
    cases stage with
    | called =>
      cases h
      exact .test hk rfl
    | phaseTested =>
      cases h
      exact .test hk rfl
    | admitted =>
      rw [advance] at h
      split at h
      · next hlocked =>
        cases h
        exact .crash hk hlocked
      · next hlocked =>
        cases h
        exact .serve hk hlocked
    | answered answer => cases h

/-- A coordinator that is up serves every request that waits for the lock. -/
theorem exists_serve (hup : s.crashed = false) {k : ℕ} (hk : s.stages[k]? = some .admitted) :
    ∃ t, s.step kind (.advance k) = some t := by
  simp only [step, hup, Bool.false_eq_true, if_false, hk, Option.bind_some, advance]
  split
  · exact ⟨_, rfl⟩
  · exact ⟨_, rfl⟩

theorem reply_of_isTesting {stage : RequestStage} (h : stage.isTesting = true) :
    stage.reply = none ∧ stage ≠ .admitted := by
  cases stage <;> simp_all [RequestStage.isTesting, RequestStage.reply]

theorem reply_testRequest (c : Coordinator) {stage : RequestStage} (h : stage.isTesting = true) :
    (c.testRequest kind stage).reply = none := by
  have hbound (kind : Kind) : (c.testBound kind).reply = none := by
    unfold Coordinator.testBound
    split_ifs <;> rfl
  cases stage with
  | called =>
    cases kind with
    | map => exact hbound .map
    | reduce =>
      unfold Coordinator.testRequest
      split_ifs <;> rfl
  | phaseTested => cases kind <;> exact hbound _
  | admitted => cases h
  | answered answer => cases h

/-! ## The load -/

theorem count_set {k : ℕ} {stage : RequestStage} (hk : s.stages[k]? = some stage)
    (stage' : RequestStage) :
    (s.stages.set k stage').countP (· = .admitted) + (if stage = .admitted then 1 else 0) =
      s.stages.countP (· = .admitted) + if stage' = .admitted then 1 else 0 := by
  simpa using Lists.countP_set_add (p := (decide <| · = RequestStage.admitted)) hk stage'

/-- A request that passes its test adds one to the load; nothing else changes it, the locked
section included. -/
theorem load_step (h : s.step kind event = some t) :
    t.load kind = s.load kind + if s.admits kind event then 1 else 0 := by
  cases transition_of_step h with
  | call => simp [load, admits]
  | @test k stage hk htesting =>
    have hcount := count_set hk (s.coordinator.testRequest kind stage)
    rw [if_neg (reply_of_isTesting htesting).2] at hcount
    simp only [load, admits, hk, Option.any_some, htesting, true_and, decide_eq_true_eq]
    omega
  | @serve k c reply hk hlocked =>
    have hcount := count_set hk (.answered (.task reply))
    have hcounter := (Coordinator.giveTaskLocked_eq_some hlocked).2.1
    simp only [if_true, reduceCtorEq, if_false] at hcount
    simp only [load, admits, hk, Option.any_some, RequestStage.isTesting, Bool.false_eq_true,
      false_and, decide_false, if_false, hcounter]
    omega
  | @crash k hk hlocked => simp [load, admits, hk, RequestStage.isTesting]

theorem load_of_serves (h : (requests kind c₀).ReachableFrom Serves s t) :
    t.load kind = s.load kind := by
  apply h.invariant (I := fun t ↦ t.load kind = s.load kind) rfl
  intro u event v hu hserves hstep
  obtain ⟨k, rfl, hk⟩ := hserves
  have hload : v.load kind = u.load kind + if u.admits kind (.advance k) then 1 else 0 :=
    load_step hstep
  simpa [admits, hk, RequestStage.isTesting, hu] using hload

/-! ## The numbers handed out -/

/-- The numbers handed out are those from the counter of `c₀` up to the counter now, each once; a
crash happens only when more requests are admitted than there are tasks. -/
structure Numbered (kind : Kind) (c₀ : Coordinator) (s : Requests) : Prop where
  size_eq : ∀ kind', s.coordinator.size kind' = c₀.size kind'
  complete_eq : ∀ kind', s.coordinator.complete kind' = c₀.complete kind'
  ids : ∃ n, s.coordinator.counter kind = c₀.counter kind + n ∧
    (s.handed.map Reply.id).Perm (List.range' (c₀.counter kind) n)
  overrun : s.crashed = true → s.coordinator.size kind < s.load kind
  files : ∀ reply, .reduce reply ∈ s.handed → ∀ file ∈ reply.reducefiles,
    ∃ i, file = intermediateName i reply.reducetaskId

theorem numbered_init (kind : Kind) (c₀ : Coordinator) :
    Numbered kind c₀ (requests kind c₀).init where
  size_eq _ := rfl
  complete_eq _ := rfl
  ids := ⟨0, rfl, .nil⟩
  overrun h := by cases h
  files _ h := by cases h

theorem lt_load {k : ℕ} (hk : s.stages[k]? = some .admitted) :
    s.coordinator.counter kind < s.load kind := by
  have hpos : 0 < s.stages.countP (· = .admitted) :=
    List.countP_pos_iff.mpr ⟨_, List.mem_of_getElem? hk, by simp⟩
  rw [load]
  omega

theorem Numbered.of_handed_eq (hs : Numbered kind c₀ s)
    (hcoordinator : t.coordinator = s.coordinator) (hcrashed : t.crashed = s.crashed)
    (hhanded : t.handed = s.handed) (hload : s.load kind ≤ t.load kind) : Numbered kind c₀ t where
  size_eq := hcoordinator ▸ hs.size_eq
  complete_eq := hcoordinator ▸ hs.complete_eq
  ids := by
    rw [hcoordinator, hhanded]
    exact hs.ids
  overrun h := by
    rw [hcoordinator]
    exact (hs.overrun (hcrashed ▸ h)).trans_le hload
  files := hhanded ▸ hs.files

/-- The locked section hands out the next number. -/
theorem Numbered.serve (hs : Numbered kind c₀ s) {k : ℕ} {c : Coordinator} {reply : Reply}
    (hk : s.stages[k]? = some .admitted)
    (hlocked : s.coordinator.giveTaskLocked kind = some (c, reply))
    (hload : load kind
      { s with coordinator := c, stages := s.stages.set k (.answered (.task reply)) } =
        s.load kind) :
    Numbered kind c₀
      { s with coordinator := c, stages := s.stages.set k (.answered (.task reply)) } := by
  obtain ⟨hid, hcounter, hsize, hcomplete⟩ := Coordinator.giveTaskLocked_eq_some hlocked
  have hhanded : (s.stages.set k (.answered (.task reply))).filterMap RequestStage.reply |>.Perm
      (reply :: s.handed) := Lists.filterMap_set_perm hk rfl rfl
  refine ⟨fun kind' ↦ ?_, fun kind' ↦ ?_, ?_, fun h ↦ ?_, fun r hr file hfile ↦ ?_⟩
  · rw [hsize, hs.size_eq]
  · rw [hcomplete, hs.complete_eq]
  · obtain ⟨n, hn, hperm⟩ := hs.ids
    refine ⟨n + 1, by rw [hcounter, hn, Nat.add_assoc], ?_⟩
    rw [List.range'_concat, Nat.one_mul, ← hn, ← hid]
    calc
      List.Perm _ (reply.id :: s.handed.map Reply.id) := hhanded.map Reply.id
      List.Perm _ (reply.id :: List.range' (c₀.counter kind) n) := hperm.cons reply.id
      List.Perm _ (List.range' (c₀.counter kind) n ++ [reply.id]) :=
        (List.perm_append_singleton _ _).symm
  · rw [hload, hsize]
    exact hs.overrun h
  · rcases List.mem_cons.mp (hhanded.mem_iff.mp hr) with rfl | hr
    · exact Coordinator.reducefiles_giveTaskLocked hlocked hfile
    · exact hs.files r hr file hfile

theorem Numbered.step (hs : Numbered kind c₀ s) (h : s.step kind event = some t) :
    Numbered kind c₀ t := by
  have hload := load_step h
  have hmono : s.load kind ≤ t.load kind := by
    rw [hload]
    exact Nat.le_add_right _ _
  cases transition_of_step h with
  | call =>
    refine hs.of_handed_eq rfl rfl ?_ hmono
    simp [handed, RequestStage.reply]
  | test hk htesting =>
    refine hs.of_handed_eq rfl rfl ?_ hmono
    exact Lists.filterMap_set_eq hk (reply_of_isTesting htesting).1
      (reply_testRequest s.coordinator htesting)
  | serve hk hlocked =>
    apply hs.serve hk hlocked
    simpa [admits, hk, RequestStage.isTesting] using hload
  | crash hk hlocked =>
    have hfull := Coordinator.giveTaskLocked_eq_none hlocked
    exact ⟨hs.size_eq, hs.complete_eq, hs.ids, fun _ ↦ hfull.trans_lt (lt_load hk), hs.files⟩

theorem Numbered.of_reachableFrom {ok : Requests → RequestEvent → Prop} (hs : Numbered kind c₀ s)
    (h : (requests kind c₀).ReachableFrom ok s t) : Numbered kind c₀ t :=
  h.invariant hs fun _ _ _ hu _ hstep ↦ hu.step hstep

/-! ## Load and safety -/

theorem Numbered.id_lt_counter (hs : Numbered kind c₀ s) {reply : Reply}
    (h : reply ∈ s.handed) : reply.id < s.coordinator.counter kind := by
  obtain ⟨n, hn, hperm⟩ := hs.ids
  have hmem := hperm.mem_iff.mp (List.mem_map_of_mem h)
  rw [List.mem_range'_1] at hmem
  omega

theorem Numbered.nodup (hs : Numbered kind c₀ s) : (s.handed.map Reply.id).Nodup := by
  obtain ⟨n, -, hperm⟩ := hs.ids
  exact hperm.nodup_iff.mpr List.nodup_range'

theorem Numbered.safe (hs : Numbered kind c₀ s) (hload : s.load kind ≤ c₀.size kind) :
    s.Safe kind where
  alive := by
    cases hcrashed : s.crashed with
    | false => rfl
    | true =>
      have hover := hs.overrun hcrashed
      rw [hs.size_eq] at hover
      omega
  id_lt reply hreply := by
    have hid := hs.id_lt_counter hreply
    rw [hs.size_eq]
    rw [load] at hload
    omega
  nodup := hs.nodup

/-- A counter beyond the number of tasks means that a number beyond it was handed out. -/
theorem Numbered.counter_le_of_safe (hs : Numbered kind c₀ s) (hc : c₀.counter kind ≤ c₀.size kind)
    (hsafe : s.Safe kind) : s.coordinator.counter kind ≤ c₀.size kind := by
  obtain ⟨n, hn, hperm⟩ := hs.ids
  by_contra hgt
  have hmem : c₀.size kind ∈ s.handed.map Reply.id := by
    rw [hperm.mem_iff, List.mem_range'_1]
    omega
  obtain ⟨reply, hreply, hid⟩ := List.mem_map.mp hmem
  have hlt := hsafe.id_lt reply hreply
  rw [hs.size_eq] at hlt
  omega

/-- With more load than tasks, serving the admitted requests leads to a state that is not safe. -/
theorem Numbered.exists_not_safe (hs : Numbered kind c₀ s) (hc : c₀.counter kind ≤ c₀.size kind)
    (hload : c₀.size kind < s.load kind) :
    ∃ t, (requests kind c₀).ReachableFrom Serves s t ∧ ¬ t.Safe kind := by
  generalize hwaiting : s.stages.countP (· = .admitted) = waiting
  induction waiting generalizing s with
  | zero =>
    refine ⟨s, .refl, fun hsafe ↦ ?_⟩
    have hcounter := hs.counter_le_of_safe hc hsafe
    rw [load, hwaiting] at hload
    omega
  | succ waiting ih =>
    have hmem : ∃ stage ∈ s.stages, decide (stage = .admitted) = true := by
      rw [← List.countP_pos_iff]
      omega
    obtain ⟨stage, hstage, hadmitted⟩ := hmem
    obtain ⟨k, hk⟩ := List.getElem?_of_mem (of_decide_eq_true hadmitted ▸ hstage)
    cases hcrashed : s.crashed with
    | true => exact ⟨s, .refl, fun hsafe ↦ by simp [hsafe.alive] at hcrashed⟩
    | false =>
      obtain ⟨t, ht⟩ : ∃ t, s.step kind (.advance k) = some t := exists_serve hcrashed hk
      have hfirst : (requests kind c₀).ReachableFrom Serves s t := .step .refl ⟨k, rfl, hk⟩ ht
      have hsame := load_of_serves hfirst
      have hnumbered := hs.step ht
      cases transition_of_step ht with
      | test hk' htesting => exact absurd (hk.symm.trans hk') (by rintro ⟨⟩; cases htesting)
      | crash => exact ⟨_, hfirst, fun hsafe ↦ by cases hsafe.alive⟩
      | @serve _ c reply hk' hlocked =>
        have hrest : (s.stages.set k (.answered (.task reply))).countP (· = .admitted) =
            waiting := by
          have hcount := count_set hk (.answered (.task reply))
          simp only [if_true, reduceCtorEq, if_false] at hcount
          omega
        obtain ⟨u, hu, hunsafe⟩ := ih hnumbered (hsame ▸ hload) hrest
        exact ⟨u, hfirst.trans hu, hunsafe⟩

/-- **Exact condition for safety.** The admitted requests of a run can all be served safely exactly
when each of its requests passed its test with the load still below the number of tasks. -/
theorem permits_iff_safe (hc : c₀.counter kind ≤ c₀.size kind) {events : List RequestEvent}
    (h : (requests kind c₀).run (requests kind c₀).init events = some s) :
    (requests kind c₀).Permits (fun s event ↦ s.admits kind event = true →
        s.load kind < c₀.size kind) (requests kind c₀).init events ↔
      ∀ t, (requests kind c₀).ReachableFrom Serves s t → t.Safe kind := by
  have hstep : ∀ s event t, (requests kind c₀).step s event = some t →
      t.load kind = s.load kind + if s.admits kind event then 1 else 0 :=
    fun _ _ _ ↦ load_step
  have hnumbered := (numbered_init kind c₀).of_reachableFrom (Machine.Reachable.of_run h)
  rw [Machine.permits_lt_iff hstep hc h]
  constructor
  · intro hload t ht
    apply (hnumbered.of_reachableFrom ht).safe
    rw [load_of_serves ht]
    exact hload
  · intro hsafe
    by_contra hload
    obtain ⟨t, ht, hunsafe⟩ := hnumbered.exists_not_safe hc (Nat.lt_of_not_le hload)
    exact hunsafe (hsafe t ht)

/-! ## Requests for map tasks -/

/-- **Map tasks.** From a fresh coordinator, and for every interleaving of requests: the index is
never out of range, every number handed out is that of an input file, and none is handed out twice,
also once the requests that wait for the lock are served, if and only if each request passed its
test while `counter_map` and the requests waiting for the lock were together fewer than the input
files. -/
theorem giveMapTask_safe_iff (files : List GoString) (nReduce : ℕ) {events : List RequestEvent}
    {s : Requests}
    (h : (requests .map (makeCoordinator files nReduce)).run
      (requests .map (makeCoordinator files nReduce)).init events = some s) :
    (requests .map (makeCoordinator files nReduce)).Permits
        (fun s event ↦ s.admits .map event = true → s.load .map < files.length)
        (requests .map (makeCoordinator files nReduce)).init events ↔
      ∀ t, (requests .map (makeCoordinator files nReduce)).ReachableFrom Serves s t →
        t.Safe .map :=
  permits_iff_safe ((Coordinator.valid_makeCoordinator files nReduce).counter_le .map) h

/-- Two requests for two files, both behind their test before the first takes the lock. -/
theorem giveMapTask_safe_two :
    ∃ s, (requests .map (makeCoordinator [ascii "a", ascii "b"] 1)).run
        (requests .map (makeCoordinator [ascii "a", ascii "b"] 1)).init
        [.call, .call, .advance 0, .advance 1, .advance 1, .advance 0] = some s ∧
      s.handed.map Reply.id = [1, 0] ∧
      ((requests .map (makeCoordinator [ascii "a", ascii "b"] 1)).Permits
          (fun s event ↦ s.admits .map event = true → s.load .map < 2)
          (requests .map (makeCoordinator [ascii "a", ascii "b"] 1)).init
          [.call, .call, .advance 0, .advance 1, .advance 1, .advance 0] ↔
        ∀ t, (requests .map (makeCoordinator [ascii "a", ascii "b"] 1)).ReachableFrom Serves s t →
          t.Safe .map) :=
  ⟨_, rfl, by decide, giveMapTask_safe_iff [ascii "a", ascii "b"] 1 rfl⟩

/-- Two requests pass their test before the only file is handed out: the second one indexes past the
end of the input list and ends the coordinator. -/
theorem giveMapTask_out_of_range :
    ∃ s, (requests .map (makeCoordinator [ascii "in"] 1)).Reachable s ∧ s.crashed = true :=
  Machine.exists_reachable [.call, .call, .advance 0, .advance 1, .advance 0, .advance 1]
    (by decide)

/-! ## Requests for reduce tasks -/

/-- **Reduce tasks.** From any valid coordinator, and for every interleaving of requests: every
number handed out is that of a reduce task, none is handed out twice, its files are those of its
bucket and its flag exists for the monitor and for the report, also once the requests that wait for
the lock are served, if and only if each request passed its test while `counter_reduce` and the
requests waiting for the lock were together fewer than the reduce tasks. -/
theorem giveReduceTask_safe_iff {c : Coordinator} (hc : c.Valid) {events : List RequestEvent}
    {s : Requests} (h : (requests .reduce c).run (requests .reduce c).init events = some s) :
    (requests .reduce c).Permits
        (fun s event ↦ s.admits .reduce event = true → s.load .reduce < c.nReduce)
        (requests .reduce c).init events ↔
      ∀ t, (requests .reduce c).ReachableFrom Serves s t → t.Safe .reduce ∧
        ∀ reply, .reduce reply ∈ t.handed →
          (∀ file ∈ reply.reducefiles, ∃ i, file = intermediateName i reply.reducetaskId) ∧
          reply.reducetaskId < t.coordinator.reduceComplete.length ∧
          (t.coordinator.checkLastReduceDone reply.reducetaskId).isSome = true := by
  have hiff := permits_iff_safe (hc.counter_le .reduce) h
  have hnumbered := (numbered_init .reduce c).of_reachableFrom (Machine.Reachable.of_run h)
  refine hiff.trans ⟨fun hsafe t ht ↦ ⟨hsafe t ht, fun reply hreply ↦ ?_⟩,
    fun hsafe t ht ↦ (hsafe t ht).1⟩
  have ht' := hnumbered.of_reachableFrom ht
  have hlt : reply.reducetaskId < (t.coordinator.complete .reduce).length := by
    rw [ht'.complete_eq, hc.length_complete, ← ht'.size_eq]
    exact (hsafe t ht).id_lt (.reduce reply) hreply
  refine ⟨ht'.files reply hreply, hlt, ?_⟩
  rw [Coordinator.checkLastReduceDone, Coordinator.checkLastDone, Option.isSome_map,
    List.getElem?_eq_getElem hlt]
  rfl

/-- The coordinator of a job with one input file and one reduce task after its map phase. -/
def afterMapPhase : Coordinator where
  filenames := [ascii "in"]
  counterMap := 1
  counterReduce := 0
  nReduce := 1
  doneMap := 1
  doneReduce := 0
  workerBook := []
  mapComplete := [true]
  reduceComplete := [false]

theorem valid_afterMapPhase : afterMapPhase.Valid := by
  let given : Coordinator := { makeCoordinator [ascii "in"] 1 with counterMap := 1 }
  have hgiven : given.Valid :=
    (Coordinator.valid_makeCoordinator [ascii "in"] 1).giveMapTaskLocked rfl
  have hreport : given.checkLastDone (.map 0) = some (afterMapPhase, true) := rfl
  exact hgiven.checkLastDone (by decide) hreport

/-- Two requests after each other: the second one is answered with `io.EOF`. -/
theorem giveReduceTask_safe_after_other :
    ∃ s, (requests .reduce afterMapPhase).run (requests .reduce afterMapPhase).init
        [.call, .advance 0, .advance 0, .advance 0, .call, .advance 1, .advance 1] = some s ∧
      s.handed = [.reduce ⟨0, [intermediateName 0 0]⟩] ∧
      ((requests .reduce afterMapPhase).Permits
          (fun s event ↦ s.admits .reduce event = true → s.load .reduce < 1)
          (requests .reduce afterMapPhase).init
          [.call, .advance 0, .advance 0, .advance 0, .call, .advance 1, .advance 1] ↔
        ∀ t, (requests .reduce afterMapPhase).ReachableFrom Serves s t → t.Safe .reduce ∧
          ∀ reply, .reduce reply ∈ t.handed →
            (∀ file ∈ reply.reducefiles, ∃ i, file = intermediateName i reply.reducetaskId) ∧
            reply.reducetaskId < t.coordinator.reduceComplete.length ∧
            (t.coordinator.checkLastReduceDone reply.reducetaskId).isSome = true) :=
  ⟨_, rfl, by decide, giveReduceTask_safe_iff valid_afterMapPhase rfl⟩

/-- Two requests pass their tests before the only reduce task is handed out: the second one is
handed out task `1`, whose flag does not exist. -/
theorem giveReduceTask_phantom :
    ∃ s, (requests .reduce afterMapPhase).Reachable s ∧ s.coordinator.nReduce = 1 ∧
      .reduce ⟨1, [intermediateName 0 1]⟩ ∈ s.handed ∧
      (s.coordinator.checkLastReduceDone 1).isNone = true :=
  Machine.exists_reachable
    [.call, .call, .advance 0, .advance 0, .advance 1, .advance 1, .advance 0, .advance 1]
    (by decide)

end Requests

end DistKvRaft.MapReduce
