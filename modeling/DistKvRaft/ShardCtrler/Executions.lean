import DistKvRaft.ShardCtrler.Clerk
import DistKvRaft.ShardCtrler.Filter

/-!
# Which clerk calls are executed

A server executes an entry of the log exactly when it is the latest of its client so far.  On a
clock that advances from call to call, the first entry of a call is executed unless a later call of
the same client was committed before it.  A second entry of the call is executed too whenever it is
the latest again, which the attempts of `Join` and `Leave` are by construction and those of `Query`
and `Move` never are.
-/

namespace DistKvRaft.ShardCtrler

/-- The message in which Raft delivers the entry at position `k` of the log. -/
def message (k : ℕ) (op : Op) : ApplyMsg :=
  { commandValid := true, command := some op, commandIndex := k + 1 }

/-- The messages in which Raft delivers the log. -/
def messages (log : List Entry) : List ApplyMsg := log.mapIdx fun k entry ↦ message k entry.2

/-- Whether a server calls a handler for the entry at position `k`, and it is one of call `id`. -/
def runsHandler (h : Handlers) (log : List Entry) (id k : ℕ) : Bool :=
  match log[k]? with
  | none => false
  | some entry => decide (entry.1 = id) &&
      (deliveryAfter h (messages (log.take k)) (message k entry.2)).any
        fun delivery ↦ delivery.handler.isSome

/-- How often a server that has received the first `n` entries has run the handler of call `id`. -/
def handlerRuns (h : Handlers) (log : List Entry) (n id : ℕ) : ℕ :=
  ((Finset.range n).filter fun k ↦ runsHandler h log id k = true).card

/-- The server executes the entry of call `id` at position `k` by a run of `handler`: it calls the
handler on the configurations that the entries before have left, goes on with those it returns, and
sends the Op as the handler leaves it. -/
def Executes (h : Handlers) (log : List Entry) (id k : ℕ) (handler : HandlerCall) : Prop :=
  ∃ op delivery, log[k]? = some (id, op) ∧
    deliveryAfter h (messages (log.take k)) (message k op) = some delivery ∧
    delivery.handler = some handler ∧
    HandlerRun h op (stateAfter h (messages (log.take k))).configs handler
      (stateAfter h (messages (log.take (k + 1)))).configs delivery.op

/-- Every entry of call `id` after its first one is no later than some entry of its client before
it. -/
def RepeatsAreStale (log : List Entry) (id : ℕ) : Prop :=
  ∀ (k : ℕ) (op : Op), log[k]? = some (id, op) → (∃ j < k, ∃ op', log[j]? = some (id, op')) →
    ∃ j < k, ∃ entry : Entry, log[j]? = some entry ∧ entry.2.clientId = op.clientId ∧
      op.timeStamp ≤ entry.2.timeStamp

variable {h : Handlers} {log : List Entry} {id j k : ℕ} {op : Op} {s t : Clerks} {e : ClerkEvent}

theorem stamps_messages (log : List Entry) :
    stamps (messages log) = log.map fun entry ↦ (entry.2.clientId, entry.2.timeStamp) := by
  have hvalid : ∀ k op, (message k op).validOp = some op := fun _ _ ↦ rfl
  have hops : (messages log).filterMap ApplyMsg.validOp = log.map Prod.snd := by
    rw [messages, ← List.filterMap_eq_map]
    induction log using List.reverseRecOn with
    | nil => rfl
    | append_singleton log entry ih => simp [List.mapIdx_concat, ih, hvalid]
  rw [stamps, hops, List.map_map]
  rfl

/-- An Op is the latest of its client in terms of the positions of the log. -/
theorem isLatest_take_iff : IsLatest (messages (log.take k)) op ↔
    ∀ j < k, ∀ entry, log[j]? = some entry → entry.2.clientId = op.clientId →
      entry.2.timeStamp < op.timeStamp := by
  have hmem : ∀ entry, entry ∈ log.take k ↔ ∃ j < k, log[j]? = some entry := by
    intro entry
    simp [List.mem_iff_getElem?, List.getElem?_take]
  simp only [IsLatest, Watermark.Fresh, stamps_messages, List.forall_mem_map, hmem]
  constructor
  · intro hall j hj entry hentry
    exact hall entry ⟨j, hj, hentry⟩
  · rintro hall entry ⟨j, hj, hentry⟩
    exact hall j hj entry hentry

theorem messages_take_succ (hk : log[k]? = some (id, op)) :
    messages (log.take (k + 1)) = messages (log.take k) ++ [message k op] := by
  have hlength : (log.take k).length = k := by
    have := (List.getElem?_eq_some_iff.mp hk).1
    simp only [List.length_take]
    omega
  rw [List.take_add_one, hk, messages, Option.toList_some, List.mapIdx_concat, hlength]
  rfl

theorem runsHandler_iff : runsHandler h log id k = true ↔
    ∃ op, log[k]? = some (id, op) ∧ IsLatest (messages (log.take k)) op ∧
      op.command ∈ handledCommands := by
  unfold runsHandler
  cases hk : log[k]? with
  | none => simp
  | some entry =>
    obtain ⟨id', op⟩ := entry
    have hvalid : (message k op).validOp = some op := rfl
    have hcalled := @exists_handler_deliveryAfter_iff h (messages (log.take k)) _ op hvalid
    simp only [Bool.and_eq_true, decide_eq_true_eq, Option.any_eq_true, Option.isSome_iff_exists,
      Option.some.injEq, Prod.mk.injEq, ← exists_and_left, hcalled]
    constructor
    · rintro ⟨rfl, hlatest⟩
      exact ⟨op, ⟨rfl, rfl⟩, hlatest⟩
    · rintro ⟨op', ⟨rfl, rfl⟩, hlatest⟩
      exact ⟨rfl, hlatest⟩

/-- At most one run, stated with positions. -/
theorem handlerRuns_le_one_iff : (∀ n, handlerRuns h log n id ≤ 1) ↔
    ∀ j k, j < k → runsHandler h log id j = true → runsHandler h log id k = false := by
  simp only [handlerRuns, Finset.card_le_one, Finset.mem_filter, Finset.mem_range]
  constructor
  · intro hone j k hjk hj
    by_contra hk
    rw [Bool.not_eq_false] at hk
    exact hjk.ne (hone (k + 1) j ⟨by omega, hj⟩ k ⟨by omega, hk⟩)
  · rintro hnone n j ⟨-, hj⟩ k ⟨-, hk⟩
    rcases lt_trichotomy j k with hlt | heq | hgt
    · simp [hnone j k hlt hj] at hk
    · exact heq
    · simp [hnone k j hgt hk] at hj

/-- Every call that occurs up to a position has a first entry there. -/
theorem exists_first (hk : log[k]? = some (id, op)) : ∃ j ≤ k, (∃ op', log[j]? = some (id, op')) ∧
    ∀ i < j, ∀ entry, log[i]? = some entry → entry.1 ≠ id := by
  classical
  have hex : ∃ j, ∃ op', log[j]? = some (id, op') := ⟨k, op, hk⟩
  refine ⟨Nat.find hex, Nat.find_min' hex ⟨op, hk⟩, Nat.find_spec hex, ?_⟩
  rintro i hi ⟨id', op'⟩ hentry rfl
  exact Nat.find_min hex hi ⟨op', hentry⟩

namespace Clerks

theorem Consistent.reading_of_log (hs : s.Consistent) (hk : s.log[k]? = some (id, op)) :
    ⟨op.clientId, id, op.timeStamp⟩ ∈ s.readings :=
  hs.entry (id, op) (List.mem_append_right _ (List.mem_of_getElem? hk))

/-- The client of an entry is the client of its call. -/
theorem Consistent.call_of_log (hs : s.Consistent) (hk : s.log[k]? = some (id, op)) :
    ∃ call, s.calls[id]? = some call ∧ call.client = op.clientId := by
  obtain ⟨call, hcall, hclient, -⟩ := hs.reading _ (hs.reading_of_log hk)
  exact ⟨call, hcall, hclient⟩

theorem Consistent.clientId_eq (hs : s.Consistent) {op' : Op} (hj : s.log[j]? = some (id, op))
    (hk : s.log[k]? = some (id, op')) : op.clientId = op'.clientId := by
  obtain ⟨call, hcall, hclient⟩ := hs.call_of_log hj
  obtain ⟨call', hcall', hclient'⟩ := hs.call_of_log hk
  rw [hcall] at hcall'
  cases hcall'
  exact hclient.symm.trans hclient'

/-- The command of an entry of the log has a handler, the one of its call. -/
theorem Consistent.handler_dispatch (hs : s.Consistent) (hk : s.log[k]? = some (id, op))
    (configs : List Config) : ∃ call, s.calls[id]? = some call ∧
      (h.dispatch configs op).handler = some call.request.handlerCall := by
  obtain ⟨call, hcall, hop⟩ := hs.request (id, op)
    (List.mem_append_right _ (List.mem_of_getElem? hk))
  refine ⟨call, hcall, ?_⟩
  dsimp only at hop
  rw [hop]
  exact call.request.handler_dispatch_toOp _ _ h configs

/-- In the log of the clerks a handler is called for every entry that is the latest. -/
theorem Consistent.runsHandler_iff (hs : s.Consistent) : runsHandler h s.log id k = true ↔
    ∃ op, s.log[k]? = some (id, op) ∧ IsLatest (messages (s.log.take k)) op := by
  rw [ShardCtrler.runsHandler_iff]
  refine exists_congr fun op ↦ and_congr_right fun hk ↦ and_iff_left ?_
  obtain ⟨call, -, hhandler⟩ := hs.handler_dispatch (h := h) hk []
  exact exists_handler_iff.mp ⟨_, hhandler⟩

/-- And it is the handler of the call, run on the configurations so far. -/
theorem Consistent.executes (hs : s.Consistent) (hruns : runsHandler h s.log id k = true) :
    ∃ call, s.calls[id]? = some call ∧ Executes h s.log id k call.request.handlerCall := by
  obtain ⟨op, hk, hlatest⟩ := hs.runsHandler_iff.mp hruns
  have hvalid : (message k op).validOp = some op := rfl
  obtain ⟨call, hcall, hhandler⟩ :=
    hs.handler_dispatch (h := h) hk (stateAfter h (messages (s.log.take k))).configs
  have hdelivery := @deliveryAfter_of_validOp h op (message k op) (messages (s.log.take k)) hvalid
  rw [applyOp_of_isLatest hlatest] at hdelivery
  refine ⟨call, hcall, op, _, hk, hdelivery, hhandler, ?_⟩
  rw [messages_take_succ hk]
  exact handlerRun_of_deliveryAfter hvalid hdelivery hhandler

/-- The first entry of a call is executed unless a later call of the client precedes it. -/
theorem Ordered.runsHandler_first (hord : s.Ordered op.clientId) (hs : s.Consistent)
    (hj : s.log[j]? = some (id, op))
    (hfirst : ∀ i < j, ∀ entry, s.log[i]? = some entry → entry.1 ≠ id)
    (hlater : ∀ i < j, ∀ entry, s.log[i]? = some entry → entry.2.clientId = op.clientId →
      ¬ id < entry.1) :
    runsHandler h s.log id j = true := by
  rw [hs.runsHandler_iff]
  refine ⟨op, hj, isLatest_take_iff.mpr ?_⟩
  intro i hi entry hentry hclient
  have hlt : entry.1 < id :=
    lt_of_le_of_ne (not_lt.mp (hlater i hi entry hentry hclient)) (hfirst i hi entry hentry)
  exact hord _ (hs.reading_of_log hentry) _ (hs.reading_of_log hj) hclient rfl hlt

/-! ## At most once -/

/-- A call that reads the clock once runs its handler at most once: all its entries carry the same
timestamp. -/
theorem Consistent.handlerRuns_le_one (hs : s.Consistent) {call : Call}
    (hcall : s.calls[id]? = some call) (hstamping : call.request.stamping = .beforeLoop) (n : ℕ) :
    handlerRuns h s.log n id ≤ 1 := by
  obtain ⟨time, htime⟩ : ∃ time, call.stamp = some time := by
    rw [← Option.ne_none_iff_exists']
    intro hnone
    rw [(hs.stamp id call hcall).mp hnone] at hstamping
    cases hstamping
  have hstamp : ∀ (k : ℕ) (op : Op), s.log[k]? = some (id, op) → op.timeStamp = time := by
    intro k op hk
    obtain ⟨call', hcall', -, hall⟩ := hs.reading _ (hs.reading_of_log hk)
    rw [hcall] at hcall'
    cases hcall'
    exact hall time htime
  revert n
  rw [handlerRuns_le_one_iff]
  intro j k hjk hj
  obtain ⟨op, hop, -⟩ := hs.runsHandler_iff.mp hj
  by_contra hk
  obtain ⟨op', hop', hlatest⟩ := hs.runsHandler_iff.mp (by simpa using hk)
  have hlt := isLatest_take_iff.mp hlatest j hjk _ hop (hs.clientId_eq hop hop')
  rw [hstamp j op hop, hstamp k op' hop'] at hlt
  exact lt_irrefl _ hlt

/-- When a further entry of a call is the latest of its client, no later call was committed
before it, so the first entry of the call was executed already. -/
theorem Ordered.runs_before (hord : s.Ordered op.clientId) (hs : s.Consistent)
    (hk : s.log[k]? = some (id, op)) (hlatest : IsLatest (messages (s.log.take k)) op) {op' : Op}
    (hj : s.log[j]? = some (id, op')) (hjk : j < k) :
    ∃ i < k, runsHandler h s.log id i = true := by
  obtain ⟨i, hij, ⟨op₀, hi⟩, hfirst⟩ := exists_first hj
  have hclient : op₀.clientId = op.clientId := hs.clientId_eq hi hk
  refine ⟨i, by omega, Ordered.runsHandler_first (hclient ▸ hord) hs hi hfirst ?_⟩
  intro i' hi' entry hentry hclient' hlt
  have hbefore : entry.2.timeStamp < op.timeStamp :=
    isLatest_take_iff.mp hlatest i' (by omega) entry hentry (hclient'.trans hclient)
  have hafter : op.timeStamp < entry.2.timeStamp :=
    hord _ (hs.reading_of_log hk) _ (hs.reading_of_log hentry) rfl (hclient'.trans hclient) hlt
  exact lt_asymm hbefore hafter

/-- On clocks that advance, a server runs the handler of a call at most once exactly when no
further entry of the call is committed that is later than all entries of its client before it.
Calls of `Query` and `Move` run theirs at most once in any case. -/
theorem handlerRuns_le_one_of_reachable (h : Handlers)
    (hreach : clerks.ReachableWhen ClockAdvances s) :
    (∀ id, (∀ n, handlerRuns h s.log n id ≤ 1) ↔ RepeatsAreStale s.log id) ∧
      ∀ id call, s.calls[id]? = some call → call.request.stamping = .beforeLoop →
        ∀ n, handlerRuns h s.log n id ≤ 1 := by
  have hs : s.Consistent := consistent_of_reachable hreach.reachable
  refine ⟨?_, fun id call hcall hstamping n ↦ hs.handlerRuns_le_one hcall hstamping n⟩
  intro id
  rw [handlerRuns_le_one_iff]
  constructor
  · intro hone k op hk ⟨j, hjk, op', hj⟩
    by_contra hstale
    have hlatest : IsLatest (messages (s.log.take k)) op := by
      rw [isLatest_take_iff]
      intro i hi entry hentry hclient
      by_contra hle
      exact hstale ⟨i, hi, entry, hentry, hclient, not_lt.mp hle⟩
    have hord : s.Ordered op.clientId :=
      ordered_of_reachable (fun _ _ hok ↦ ClockAdvances.callsAdvance hok _) hreach
    obtain ⟨i, hik, hi⟩ := hord.runs_before (h := h) hs hk hlatest hj hjk
    have hkruns : runsHandler h s.log id k = true := hs.runsHandler_iff.mpr ⟨op, hk, hlatest⟩
    rw [hone i k hik hi] at hkruns
    cases hkruns
  · intro hstale j k hjk hj
    obtain ⟨op, hop, -⟩ := hs.runsHandler_iff.mp hj
    by_contra hk
    obtain ⟨op', hop', hlatest⟩ := hs.runsHandler_iff.mp (by simpa using hk)
    obtain ⟨i, hi, entry, hentry, hclient, hle⟩ := hstale k op' hop' ⟨j, hjk, op, hop⟩
    exact absurd (isLatest_take_iff.mp hlatest i hi entry hentry hclient) hle.not_gt

/-- A `Move` of which two attempts are committed, and two `Join` attempts of which the later one is
committed first. -/
theorem handlerRuns_le_one_of_retries :
    ∃ s, clerks.ReachableWhen ClockAdvances s ∧ s.log.length = 4 ∧
      (∀ id, (∀ n, handlerRuns sampleHandlers s.log n id ≤ 1) ↔ RepeatsAreStale s.log id) ∧
      ∀ id call, s.calls[id]? = some call → call.request.stamping = .beforeLoop →
        ∀ n, handlerRuns sampleHandlers s.log n id ≤ 1 := by
  have hrun : ∃ s, clerks.ReachableWhen ClockAdvances s ∧ s.log.length = 4 :=
    Machine.exists_reachableWhen
      [.start 1 (.move 0 1) 1, .attempt 1 2, .attempt 1 3, .commit 0, .commit 0, .finish 1,
        .start 1 (.join []) 4, .attempt 1 5, .attempt 1 6, .commit 1, .commit 0] (by decide)
  obtain ⟨s, hreach, hlog⟩ := hrun
  exact ⟨s, hreach, hlog, handlerRuns_le_one_of_reachable sampleHandlers hreach⟩

/-- The reply to the first attempt of a `Join` is lost, the second attempt carries a new timestamp,
both are committed, and the handler runs twice. -/
theorem join_runs_twice :
    ∃ s, clerks.ReachableWhen ClockAdvances s ∧
      s.calls = [⟨1, .join [(1, [])], none⟩] ∧ handlerRuns sampleHandlers s.log 2 0 = 2 :=
  Machine.exists_reachableWhen
    [.start 1 (.join [(1, [])]) 1, .attempt 1 2, .commit 0, .attempt 1 3, .commit 0] (by decide)

/-! ## Answered calls are executed -/

/-- The client's call returns only after an Op of it was applied and its result sent. -/
def AwaitsAnswer (client : ClientId) (s : Clerks) (e : ClerkEvent) : Prop :=
  e = .finish client → ∀ id ∈ s.current client, ∃ entry ∈ s.log, entry.1 = id

instance (client : ClientId) (s : Clerks) (e : ClerkEvent) : Decidable (s.AwaitsAnswer client e) :=
  inferInstanceAs (Decidable (_ → ∀ id ∈ s.current client, ∃ entry ∈ s.log, entry.1 = id))

/-- All calls of the client before the current one have an entry in the log, and an entry of a
call comes after one of each of the client's earlier calls. -/
structure Answered (client : ClientId) (s : Clerks) : Prop where
  returned : ∀ (id : ℕ) (call : Call), s.calls[id]? = some call → call.client = client →
    s.current client ≠ some id → ∃ entry ∈ s.log, entry.1 = id
  before : ∀ (k id : ℕ) (op : Op), s.log[k]? = some (id, op) → op.clientId = client →
    ∀ (id' : ℕ) (call : Call), id' < id → s.calls[id']? = some call → call.client = client →
      ∃ i < k, ∃ op', s.log[i]? = some (id', op')

theorem Answered.start {client client' : ClientId} {request : Request} {now : Time}
    (ha : s.Answered client) (hs : s.Consistent)
    (ht : s.step (.start client' request now) = some t) : t.Answered client := by
  obtain ⟨u, hu, rfl⟩ := Option.map_eq_some_iff.mp ht
  unfold Clerks.act at hu
  cases hcur : s.current client' with
  | some id => simp [hcur] at hu
  | none =>
    simp only [hcur, Option.some.injEq] at hu
    subst hu
    constructor
    · intro id call hcall hclient hne
      dsimp only at hcall hne ⊢
      rcases Lists.getElem?_concat_eq_some.mp hcall with hold | ⟨rfl, rfl⟩
      · apply ha.returned id call hold hclient
        by_cases hc : client = client'
        · rw [hc, hcur]
          simp
        · rwa [Function.update_of_ne hc] at hne
      · subst hclient
        simp at hne
    · intro k id op hk hclient id' call hlt hcall hclient'
      obtain ⟨call', hcall', -⟩ := hs.call_of_log hk
      rcases Lists.getElem?_concat_eq_some.mp hcall with hold | ⟨rfl, -⟩
      · exact ha.before k id op hk hclient id' call hlt hold hclient'
      · exact absurd (List.getElem?_eq_some_iff.mp hcall').1 hlt.not_gt

theorem Answered.commit {client : ClientId} {position : ℕ} (ha : s.Answered client)
    (hs : s.Consistent) (ht : s.step (.commit position) = some t) : t.Answered client := by
  obtain ⟨u, hu, rfl⟩ := Option.map_eq_some_iff.mp ht
  simp only [Clerks.act, Option.map_eq_some_iff] at hu
  obtain ⟨entry, hentry, rfl⟩ := hu
  constructor
  · intro id call hcall hclient hne
    obtain ⟨entry', hmem, hid⟩ := ha.returned id call hcall hclient hne
    exact ⟨entry', List.mem_append_left _ hmem, hid⟩
  · intro k id op hk hclient id' call hlt hcall hclient'
    dsimp only at hk hcall ⊢
    simp only [Lists.getElem?_concat_eq_some]
    rcases Lists.getElem?_concat_eq_some.mp hk with hold | ⟨rfl, rfl⟩
    · obtain ⟨i, hi, op', hop'⟩ := ha.before k id op hold hclient id' call hlt hcall hclient'
      exact ⟨i, hi, op', Or.inl hop'⟩
    · -- The entry belongs to the current call or an earlier one, so call `id'` has returned.
      have hpending : (id, op) ∈ s.pending ++ s.log :=
        List.mem_append_left _ (List.mem_of_getElem? hentry)
      obtain ⟨call', hcall', howner, -⟩ := hs.reading _ (hs.entry _ hpending)
      have hne : s.current client ≠ some id' := by
        intro hcur
        exact hlt.not_ge (hs.last client id' hcur id call' hcall' (howner.trans hclient))
      obtain ⟨⟨id'', op'⟩, hmem, rfl⟩ := ha.returned id' call hcall hclient' hne
      obtain ⟨i, hi⟩ := List.mem_iff_getElem?.mp hmem
      exact ⟨i, (List.getElem?_eq_some_iff.mp hi).1, op', Or.inl hi⟩

theorem Answered.finish {client client' : ClientId} (ha : s.Answered client)
    (hok : s.AwaitsAnswer client (.finish client')) (ht : s.step (.finish client') = some t) :
    t.Answered client := by
  obtain ⟨u, hu, rfl⟩ := Option.map_eq_some_iff.mp ht
  simp only [Clerks.act, Option.map_eq_some_iff] at hu
  obtain ⟨id₀, hid₀, rfl⟩ := hu
  refine ⟨?_, ha.before⟩
  intro id call hcall hclient hne
  dsimp only at hcall hne ⊢
  by_cases hcur : s.current client = some id
  · by_cases hc : client = client'
    · subst hc
      exact hok rfl id hcur
    · rw [Function.update_of_ne hc] at hne
      exact absurd hcur hne
  · exact ha.returned id call hcall hclient hcur

theorem Answered.step {client : ClientId} (ha : s.Answered client) (hs : s.Consistent)
    (hok : s.AwaitsAnswer client e) (ht : s.step e = some t) : t.Answered client := by
  cases e with
  | start client' request now => exact ha.start hs ht
  | attempt client' now =>
    obtain ⟨u, hu, rfl⟩ := Option.map_eq_some_iff.mp ht
    simp only [Clerks.act, Option.bind_eq_some_iff, Option.map_eq_some_iff] at hu
    obtain ⟨id, hid, call, hcall, rfl⟩ := hu
    exact ⟨ha.returned, ha.before⟩
  | commit position => exact ha.commit hs ht
  | finish client' => exact ha.finish hok ht

/-- A client whose calls return only when answered, and whose clock advances from call to call:
whenever a server sends an Op of one of its calls, it has executed this or an earlier entry of the
call, by running the handler of the call with the arguments of the call. -/
theorem executed_of_answered (h : Handlers) {client : ClientId}
    (hreach : clerks.ReachableWhen
      (fun s e ↦ s.AwaitsAnswer client e ∧ s.CallsAdvance client e) s)
    (hk : s.log[k]? = some (id, op)) (hclient : op.clientId = client) :
    ∃ call, s.calls[id]? = some call ∧ ∃ j ≤ k, Executes h s.log id j call.request.handlerCall := by
  have hs : s.Consistent := consistent_of_reachable hreach.reachable
  have hord : s.Ordered client := ordered_of_reachable (fun _ _ hok ↦ hok.2) hreach
  have ha : s.Consistent ∧ s.Answered client := by
    apply Machine.ReachableFrom.invariant (I := fun s ↦ s.Consistent ∧ s.Answered client) hreach
    · exact ⟨consistent_init, by constructor <;> simp [clerks]⟩
    · rintro s e t ⟨hs, ha⟩ hok ht
      exact ⟨hs.step ht, ha.step hs hok.1 ht⟩
  obtain ⟨j, hjk, ⟨op₀, hj⟩, hfirst⟩ := exists_first hk
  have hclient₀ : op₀.clientId = client := (hs.clientId_eq hj hk).trans hclient
  obtain ⟨call, hcall, howner⟩ := hs.call_of_log hj
  have hruns : runsHandler h s.log id j = true := by
    refine Ordered.runsHandler_first (hclient₀ ▸ hord) hs hj hfirst ?_
    intro i hi entry hentry hclient' hlt
    -- A later call begins only after this one was answered, so the first entry precedes its
    -- entries.
    obtain ⟨i', hi', op', hop'⟩ := ha.2.before i entry.1 entry.2 hentry (hclient'.trans hclient₀)
      id call hlt hcall (howner.trans hclient₀)
    exact hfirst i' (hi'.trans hi) _ hop' rfl
  obtain ⟨call', hcall', hexecutes⟩ := hs.executes hruns
  exact ⟨call', hcall', j, hjk, hexecutes⟩

/-- Client 1 follows a `Join` by a `Move`, while the clock of client 2 runs backwards. -/
theorem executed_of_answered_move :
    ∃ s, clerks.ReachableWhen (fun s e ↦ s.AwaitsAnswer 1 e ∧ s.CallsAdvance 1 e) s ∧
      s.log[3]? = some (2, (Request.move 0 1).toOp 1 5) ∧
      ∃ call, s.calls[2]? = some call ∧
        ∃ j ≤ 3, Executes sampleHandlers s.log 2 j call.request.handlerCall := by
  have hrun : ∃ s,
      clerks.ReachableWhen (fun s e ↦ s.AwaitsAnswer 1 e ∧ s.CallsAdvance 1 e) s ∧
        s.log[3]? = some (2, (Request.move 0 1).toOp 1 5) :=
    Machine.exists_reachableWhen
      [.start 1 (.join []) 0, .attempt 1 4, .start 2 (.leave []) 0, .attempt 2 9, .commit 1,
        .attempt 1 3, .attempt 2 8, .commit 2, .commit 0, .finish 1, .start 1 (.move 0 1) 5,
        .attempt 1 6, .commit 1] (by decide)
  obtain ⟨s, hreach, hlog⟩ := hrun
  exact ⟨s, hreach, hlog, executed_of_answered sampleHandlers hreach hlog rfl⟩

/-- The clock is set back between two calls: the second one is answered and never executed. -/
theorem answered_not_executed :
    ∃ s, clerks.ReachableWhen (AwaitsAnswer 1) s ∧
      s.log[1]? = some (1, (Request.move 0 1).toOp 1 3) ∧
      deliveryAfter sampleHandlers (messages (s.log.take 1))
        (message 1 ((Request.move 0 1).toOp 1 3)) =
          some ⟨2, (Request.move 0 1).toOp 1 3, none⟩ ∧
      ∀ j ≤ 1, runsHandler sampleHandlers s.log 1 j = false :=
  Machine.exists_reachableWhen
    [.start 1 (.join []) 0, .attempt 1 4, .commit 0, .finish 1, .start 1 (.move 0 1) 3,
      .attempt 1 5, .commit 0] (by decide)

end Clerks

end DistKvRaft.ShardCtrler
