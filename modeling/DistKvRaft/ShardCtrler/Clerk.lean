import DistKvRaft.Foundation.Lists
import DistKvRaft.Foundation.Machine
import DistKvRaft.ShardCtrler.Server

/-!
# Controller clerks

Clerks call the controller one call after another and repeat a call until it is answered.  The
system of any number of clerks and the replicated log is a machine.  A lost request, a server that
is not the leader and an entry that Raft drops all come to the same: an attempt that is never
committed.  A lost reply and a timed-out wait come to the same too: another attempt of the same
call.  Raft commits every submitted Op at most once, in any order, and every server applies a
front of the one resulting log.

The four clerk methods differ in where they read the clock.  `Query` and `Move` set
`args.TimeStamp` before their loop, `Join` and `Leave` set it again for every attempt.
-/

namespace DistKvRaft.ShardCtrler

open Go (GoString ascii)

/-- A call of a clerk method with its arguments. -/
inductive Request
  | query (num : ℤ)
  | join (servers : Groups)
  | leave (gids : List ℤ)
  | move (shard gid : ℤ)
  deriving DecidableEq

/-- Where a clerk method assigns `time.Now()` to `args.TimeStamp`. -/
inductive Stamping
  | beforeLoop
  | eachAttempt
  deriving DecidableEq

/-- The place of the assignment in `Clerk.Query`, `Clerk.Join`, `Clerk.Leave` and `Clerk.Move`. -/
def Request.stamping : Request → Stamping
  | .query _ => .beforeLoop
  | .join _ => .eachAttempt
  | .leave _ => .eachAttempt
  | .move _ _ => .beforeLoop

/-- The Op without arguments, with the zero reply. -/
def Op.bare (command : GoString) (clientId : ClientId) (timeStamp : Time) : Op :=
  { command, argsJoin := [], argsLeave := [], argsMoveShard := 0, argsMoveGid := 0, argsQuery := 0,
    replyQuery := Config.zero, clientId, timeStamp }

/-- The Op that an RPC handler makes of a request: it copies the arguments, the client id and the
timestamp. -/
def Request.toOp (clientId : ClientId) (timeStamp : Time) : Request → Op
  | .query num => { Op.bare (ascii "Query") clientId timeStamp with argsQuery := num }
  | .join servers => { Op.bare (ascii "Join") clientId timeStamp with argsJoin := servers }
  | .leave gids => { Op.bare (ascii "Leave") clientId timeStamp with argsLeave := gids }
  | .move shard gid =>
    { Op.bare (ascii "Move") clientId timeStamp with argsMoveShard := shard, argsMoveGid := gid }

/-- The handler that is to execute a request. -/
def Request.handlerCall : Request → HandlerCall
  | .query num => .query num
  | .join servers => .join servers
  | .leave gids => .leave gids
  | .move shard gid => .move shard gid

@[simp]
theorem Request.clientId_toOp (request : Request) (clientId : ClientId) (timeStamp : Time) :
    (request.toOp clientId timeStamp).clientId = clientId := by
  cases request <;> rfl

@[simp]
theorem Request.timeStamp_toOp (request : Request) (clientId : ClientId) (timeStamp : Time) :
    (request.toOp clientId timeStamp).timeStamp = timeStamp := by
  cases request <;> rfl

/-- The switch calls the handler of the request. -/
theorem Request.handler_dispatch_toOp (request : Request) (clientId : ClientId) (timeStamp : Time)
    (h : Handlers) (configs : List Config) :
    (h.dispatch configs (request.toOp clientId timeStamp)).handler = some request.handlerCall := by
  cases request <;> rfl

/-- A clerk call; `stamp` is the timestamp it took before its loop, if it took one there. -/
structure Call where
  client : ClientId
  request : Request
  stamp : Option Time
  deriving DecidableEq

/-- The timestamp that is taken before the loop of a call that starts at `now`. -/
def Request.stampAt (request : Request) (now : Time) : Option Time :=
  match request.stamping with
  | .beforeLoop => some now
  | .eachAttempt => none

/-- A clock reading of a client during one of its calls. -/
structure Reading where
  client : ClientId
  call : ℕ
  time : Time
  deriving DecidableEq

/-- An Op on its way through Raft, with the call it is an attempt of. -/
abbrev Entry := ℕ × Op

/-- The clerks and the log.  A call is named by its position in `calls`; `readings` is the history
of all clock readings. -/
structure Clerks where
  calls : List Call
  current : ClientId → Option ℕ
  readings : List Reading
  pending : List Entry
  log : List Entry

/-- What can happen next: a clerk starts a call, an attempt of its call is submitted to Raft, Raft
commits one of the submitted entries, or the call returns. -/
inductive ClerkEvent
  | start (client : ClientId) (request : Request) (now : Time)
  | attempt (client : ClientId) (now : Time)
  | commit (position : ℕ)
  | finish (client : ClientId)
  deriving DecidableEq

namespace Clerks

/-- The clock reading that an event takes. -/
def reading (s : Clerks) : ClerkEvent → Option Reading
  | .start client request now => (request.stampAt now).map fun time ↦ ⟨client, s.calls.length, time⟩
  | .attempt client now =>
    (s.current client).bind fun id ↦ s.calls[id]?.bind fun call ↦
      match call.stamp with
      | some _ => none
      | none => some ⟨client, id, now⟩
  | .commit _ => none
  | .finish _ => none

/-- The effect of an event on everything but the history of readings. -/
def act (s : Clerks) : ClerkEvent → Option Clerks
  | .start client request now =>
    match s.current client with
    | some _ => none
    | none => some { s with
        calls := s.calls ++ [⟨client, request, request.stampAt now⟩]
        current := Function.update s.current client (some s.calls.length) }
  | .attempt client now =>
    (s.current client).bind fun id ↦ s.calls[id]?.map fun call ↦
      { s with pending := s.pending ++ [(id, call.request.toOp client (call.stamp.getD now))] }
  | .commit position =>
    s.pending[position]?.map fun entry ↦
      { s with pending := s.pending.eraseIdx position, log := s.log ++ [entry] }
  | .finish client =>
    (s.current client).map fun _ ↦ { s with current := Function.update s.current client none }

/-- One step of the clerks and the log. -/
def step (s : Clerks) (e : ClerkEvent) : Option Clerks :=
  (s.act e).map fun t ↦ { t with readings := s.readings ++ (s.reading e).toList }

end Clerks

/-- The machine of all clerks and the replicated log. -/
def clerks : Machine Clerks ClerkEvent where
  init := { calls := [], current := fun _ ↦ none, readings := [], pending := [], log := [] }
  step := Clerks.step

namespace Clerks

variable {s t : Clerks} {e : ClerkEvent}

/-- How calls, readings and entries hang together: a call in progress is its client's last one,
every reading belongs to a call of its client, a timestamp taken before the loop is the only
reading of its call, and every entry carries the request of its call and a reading of it. -/
structure Consistent (s : Clerks) : Prop where
  current : ∀ client id, s.current client = some id →
    ∃ call, s.calls[id]? = some call ∧ call.client = client
  last : ∀ client id, s.current client = some id →
    ∀ id' call, s.calls[id']? = some call → call.client = client → id' ≤ id
  stamp : ∀ (id : ℕ) (call : Call), s.calls[id]? = some call →
    (call.stamp = none ↔ call.request.stamping = .eachAttempt)
  stamped : ∀ (id : ℕ) (call : Call) time, s.calls[id]? = some call → call.stamp = some time →
    ⟨call.client, id, time⟩ ∈ s.readings
  reading : ∀ r ∈ s.readings, ∃ call, s.calls[r.call]? = some call ∧ call.client = r.client ∧
    ∀ time, call.stamp = some time → r.time = time
  entry : ∀ entry ∈ s.pending ++ s.log,
    ⟨entry.2.clientId, entry.1, entry.2.timeStamp⟩ ∈ s.readings
  request : ∀ entry ∈ s.pending ++ s.log, ∃ call, s.calls[entry.1]? = some call ∧
    entry.2 = call.request.toOp entry.2.clientId entry.2.timeStamp

theorem stampAt_eq_none {request : Request} {now : Time} :
    request.stampAt now = none ↔ request.stamping = .eachAttempt := by
  unfold Request.stampAt
  cases request.stamping <;> simp

theorem consistent_init : clerks.init.Consistent := by
  constructor <;> simp [clerks]

theorem Consistent.start (hs : s.Consistent) {client : ClientId} {request : Request} {now : Time}
    (ht : s.step (.start client request now) = some t) : t.Consistent := by
  unfold Clerks.step Clerks.act at ht
  cases hcur : s.current client with
  | some id => simp [hcur] at ht
  | none =>
    simp only [hcur, Option.map_some, Option.some.injEq] at ht
    subst ht
    constructor
    · intro client' id hid
      dsimp only at hid ⊢
      simp only [Lists.getElem?_concat_eq_some]
      by_cases hc : client' = client
      · subst hc
        rw [Function.update_self, Option.some.injEq] at hid
        exact ⟨_, Or.inr ⟨hid.symm, rfl⟩, rfl⟩
      · rw [Function.update_of_ne hc] at hid
        obtain ⟨call, hcall, hclient⟩ := hs.current client' id hid
        exact ⟨call, Or.inl hcall, hclient⟩
    · intro client' id hid id' call hcall hclient
      dsimp only at hid hcall
      rw [Lists.getElem?_concat_eq_some] at hcall
      by_cases hc : client' = client
      · subst hc
        rw [Function.update_self, Option.some.injEq] at hid
        subst hid
        rcases hcall with hold | ⟨hnew, -⟩
        · exact (List.getElem?_eq_some_iff.mp hold).1.le
        · exact hnew.le
      · rw [Function.update_of_ne hc] at hid
        rcases hcall with hold | ⟨-, rfl⟩
        · exact hs.last client' id hid id' call hold hclient
        · exact absurd hclient.symm hc
    · intro id call hcall
      rw [Lists.getElem?_concat_eq_some] at hcall
      rcases hcall with hold | ⟨-, rfl⟩
      · exact hs.stamp id call hold
      · exact stampAt_eq_none
    · intro id call time hcall hstamp
      rw [Lists.getElem?_concat_eq_some] at hcall
      rcases hcall with hold | ⟨rfl, rfl⟩
      · exact List.mem_append_left _ (hs.stamped id call time hold hstamp)
      · apply List.mem_append_right
        simpa [Clerks.reading] using hstamp
    · intro r hr
      simp only [Lists.getElem?_concat_eq_some]
      rcases List.mem_append.mp hr with hold | hnew
      · obtain ⟨call, hcall, hrest⟩ := hs.reading r hold
        exact ⟨call, Or.inl hcall, hrest⟩
      · simp only [Clerks.reading, Option.mem_toList, Option.map_eq_some_iff] at hnew
        obtain ⟨time, htime, rfl⟩ := hnew
        refine ⟨_, Or.inr ⟨rfl, rfl⟩, rfl, ?_⟩
        intro time' htime'
        exact Option.some.inj (htime.symm.trans htime')
    · intro entry hentry
      exact List.mem_append_left _ (hs.entry entry hentry)
    · intro entry hentry
      simp only [Lists.getElem?_concat_eq_some]
      obtain ⟨call, hcall, hop⟩ := hs.request entry hentry
      exact ⟨call, Or.inl hcall, hop⟩

theorem Consistent.attempt (hs : s.Consistent) {client : ClientId} {now : Time}
    (ht : s.step (.attempt client now) = some t) : t.Consistent := by
  unfold Clerks.step Clerks.act at ht
  simp only [Option.map_eq_some_iff, Option.bind_eq_some_iff] at ht
  obtain ⟨_, ⟨id, hid, call, hcall, rfl⟩, rfl⟩ := ht
  have hclient : call.client = client := by
    obtain ⟨call', hcall', hclient⟩ := hs.current client id hid
    rw [hcall] at hcall'
    cases hcall'
    exact hclient
  have hreading : s.reading (.attempt client now) =
      match call.stamp with
      | some _ => none
      | none => some ⟨client, id, now⟩ := by
    simp [Clerks.reading, hid, hcall]
  have hcases : ∀ entry ∈ s.pending ++
      [(id, call.request.toOp client (call.stamp.getD now))] ++ s.log,
      entry ∈ s.pending ++ s.log ∨
        entry = (id, call.request.toOp client (call.stamp.getD now)) := by
    intro entry hentry
    simp only [List.mem_append, List.mem_singleton] at hentry ⊢
    tauto
  refine ⟨hs.current, hs.last, hs.stamp, ?_, ?_, ?_, ?_⟩
  · intro id' call' time hcall' hstamp
    exact List.mem_append_left _ (hs.stamped id' call' time hcall' hstamp)
  · intro r hr
    rcases List.mem_append.mp hr with hold | hnew
    · exact hs.reading r hold
    · rw [hreading] at hnew
      cases hstamp : call.stamp with
      | some time => simp [hstamp] at hnew
      | none =>
        simp only [hstamp, Option.mem_toList, Option.some.injEq] at hnew
        subst hnew
        refine ⟨call, hcall, hclient, ?_⟩
        intro time htime
        simp [hstamp] at htime
  · intro entry hentry
    rcases hcases entry hentry with hold | rfl
    · exact List.mem_append_left _ (hs.entry entry hold)
    · simp only [Request.clientId_toOp, Request.timeStamp_toOp, hreading]
      cases hstamp : call.stamp with
      | some time =>
        apply List.mem_append_left
        rw [← hclient]
        exact hs.stamped id call time hcall hstamp
      | none => simp
  · intro entry hentry
    rcases hcases entry hentry with hold | rfl
    · exact hs.request entry hold
    · exact ⟨call, hcall, by simp⟩

theorem Consistent.commit (hs : s.Consistent) {position : ℕ}
    (ht : s.step (.commit position) = some t) : t.Consistent := by
  unfold Clerks.step Clerks.act at ht
  simp only [Option.map_eq_some_iff] at ht
  obtain ⟨_, ⟨entry, hentry, rfl⟩, rfl⟩ := ht
  simp only [Clerks.reading, Option.toList_none, List.append_nil]
  have hmem : ∀ entry' ∈ s.pending.eraseIdx position ++ (s.log ++ [entry]),
      entry' ∈ s.pending ++ s.log := by
    intro entry' hentry'
    simp only [List.mem_append, List.mem_singleton] at hentry' ⊢
    rcases hentry' with hpending | hlog | rfl
    · exact Or.inl (List.mem_of_mem_eraseIdx hpending)
    · exact Or.inr hlog
    · exact Or.inl (List.mem_of_getElem? hentry)
  exact ⟨hs.current, hs.last, hs.stamp, hs.stamped, hs.reading,
    fun entry' hentry' ↦ hs.entry entry' (hmem entry' hentry'),
    fun entry' hentry' ↦ hs.request entry' (hmem entry' hentry')⟩

theorem Consistent.finish (hs : s.Consistent) {client : ClientId}
    (ht : s.step (.finish client) = some t) : t.Consistent := by
  unfold Clerks.step Clerks.act at ht
  simp only [Option.map_eq_some_iff] at ht
  obtain ⟨_, ⟨id, hid, rfl⟩, rfl⟩ := ht
  have hcurrent : ∀ client' id', Function.update s.current client none client' = some id' →
      s.current client' = some id' := by
    intro client' id' h
    by_cases hc : client' = client
    · subst hc
      simp at h
    · rwa [Function.update_of_ne hc] at h
  simp only [Clerks.reading, Option.toList_none, List.append_nil]
  refine ⟨?_, ?_, hs.stamp, hs.stamped, hs.reading, hs.entry, hs.request⟩
  · intro client' id' h
    exact hs.current client' id' (hcurrent client' id' h)
  · intro client' id' h
    exact hs.last client' id' (hcurrent client' id' h)

theorem Consistent.step (hs : s.Consistent) (ht : s.step e = some t) : t.Consistent := by
  cases e with
  | start client request now => exact hs.start ht
  | attempt client now => exact hs.attempt ht
  | commit position => exact hs.commit ht
  | finish client => exact hs.finish ht

/-- Every state of every run is consistent. -/
theorem consistent_of_reachable (h : clerks.Reachable s) : s.Consistent :=
  h.invariant consistent_init fun _ _ _ hs ht ↦ hs.step ht

/-! ## The clock and the order of a client's calls -/

/-- A reading that an event takes belongs to the client's last call. -/
theorem Consistent.call_le_of_reading (hs : s.Consistent) {r r' : Reading}
    (hr : s.reading e = some r) (hr' : r' ∈ s.readings) (hclient : r'.client = r.client) :
    r'.call ≤ r.call := by
  obtain ⟨call, hcall, howner, -⟩ := hs.reading r' hr'
  cases e with
  | start client request now =>
    simp only [Clerks.reading, Option.map_eq_some_iff] at hr
    obtain ⟨time, -, rfl⟩ := hr
    exact (List.getElem?_eq_some_iff.mp hcall).1.le
  | attempt client now =>
    simp only [Clerks.reading, Option.bind_eq_some_iff] at hr
    obtain ⟨id, hid, call', -, hr⟩ := hr
    cases hstamp : call'.stamp with
    | some time => simp [hstamp] at hr
    | none =>
      simp only [hstamp, Option.some.injEq] at hr
      subst hr
      exact hs.last client id hid r'.call call hcall (howner.trans hclient)
  | commit position => simp [Clerks.reading] at hr
  | finish client => simp [Clerks.reading] at hr

/-- Every clock reading of a client is later than all its readings before it. -/
def ClockAdvances (s : Clerks) (e : ClerkEvent) : Prop :=
  ∀ r ∈ s.reading e, ∀ r' ∈ s.readings, r'.client = r.client → r'.time < r.time

/-- Every clock reading the client takes during a call is later than all its readings during its
previous calls. -/
def CallsAdvance (client : ClientId) (s : Clerks) (e : ClerkEvent) : Prop :=
  ∀ r ∈ s.reading e, r.client = client →
    ∀ r' ∈ s.readings, r'.client = client → r'.call ≠ r.call → r'.time < r.time

instance (s : Clerks) (e : ClerkEvent) : Decidable (s.ClockAdvances e) :=
  inferInstanceAs (Decidable (∀ r ∈ s.reading e, ∀ r' ∈ s.readings, _ → _))

instance (client : ClientId) (s : Clerks) (e : ClerkEvent) : Decidable (s.CallsAdvance client e) :=
  inferInstanceAs (Decidable (∀ r ∈ s.reading e, _ → ∀ r' ∈ s.readings, _ → _ → _))

theorem ClockAdvances.callsAdvance (h : s.ClockAdvances e) (client : ClientId) :
    s.CallsAdvance client e := by
  rintro r hr hclient r' hr' hclient' -
  exact h r hr r' hr' (hclient'.trans hclient.symm)

/-- The readings of a client follow the order of its calls. -/
def Ordered (client : ClientId) (s : Clerks) : Prop :=
  ∀ r ∈ s.readings, ∀ r' ∈ s.readings, r.client = client → r'.client = client →
    r.call < r'.call → r.time < r'.time

theorem readings_of_step (ht : s.step e = some t) :
    t.readings = s.readings ++ (s.reading e).toList := by
  obtain ⟨u, -, rfl⟩ := Option.map_eq_some_iff.mp ht
  rfl

/-- One step keeps the order when the clock advances across calls. -/
theorem Ordered.step {client : ClientId} (h : s.Ordered client) (hs : s.Consistent)
    (hok : s.CallsAdvance client e) (ht : s.step e = some t) : t.Ordered client := by
  intro r hr r' hr' hclient hclient' hlt
  rw [readings_of_step ht] at hr hr'
  simp only [List.mem_append, Option.mem_toList] at hr hr'
  rcases hr with hr | hr <;> rcases hr' with hr' | hr'
  · exact h r hr r' hr' hclient hclient' hlt
  · exact hok r' hr' hclient' r hr hclient hlt.ne
  · have hle := hs.call_le_of_reading hr hr' (hclient'.trans hclient.symm)
    exact absurd hlt hle.not_gt
  · rw [Option.some.inj (hr.symm.trans hr')] at hlt
    exact absurd hlt (lt_irrefl _)

/-- Along every run on an advancing clock the readings follow the order of the calls. -/
theorem ordered_of_reachable {ok : Clerks → ClerkEvent → Prop} {client : ClientId}
    (hok : ∀ s e, ok s e → s.CallsAdvance client e) (h : clerks.ReachableWhen ok s) :
    s.Ordered client := by
  have hboth : s.Consistent ∧ s.Ordered client := by
    apply Machine.ReachableFrom.invariant (I := fun s ↦ s.Consistent ∧ s.Ordered client) h
    · exact ⟨consistent_init, by simp [Ordered, clerks]⟩
    · rintro s e t ⟨hs, hord⟩ hse ht
      exact ⟨hs.step ht, hord.step hs (hok s e hse) ht⟩
  exact hboth.2

end Clerks

end DistKvRaft.ShardCtrler
