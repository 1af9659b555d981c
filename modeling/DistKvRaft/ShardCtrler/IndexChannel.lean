import DistKvRaft.Foundation.Machine
import DistKvRaft.ShardCtrler.Clerk

/-!
# Index channels

Every call of `sendToRaftAndWait` gets an index from `Start`, looks up or creates the channel of
that index under the lock, and then receives from it or times out.  The apply loop takes the lock,
looks up or creates the channel of the index it applies, sends the Op and releases the lock.  The
channels have one slot and the map is never cleaned.

The interleavings of both are the runs of a machine.  A channel is named by its index, since an
entry of the map is never replaced.  While the loop stands before its send it holds the lock, so no
call can register then.  A call begins at the moment `Start` issues its index, under the lock of
Raft: its entry may be applied before `Start` has returned.  Raft may issue any index; it delivers
each index at most once.

Every run applies the messages the way the sequential loop does.  The invariant about the channels
follows one index through its life: nothing applied, the loop about to send, the Op in the buffer,
and the Op taken by one call.
-/

namespace DistKvRaft.ShardCtrler

/-- Where a call of `sendToRaftAndWait` stands after `Start` made it wait for an index. -/
inductive WaitPhase
  | started
  | waiting
  | received (op : Op)
  | timedOut
  deriving DecidableEq

/-- A call of `sendToRaftAndWait`: the Op it submitted and the index `Start` returned. -/
structure Waiter where
  op : Op
  index : ℕ
  phase : WaitPhase
  deriving DecidableEq

/-- Where the apply loop stands: before it takes a message, or before `opCh <- op` with the lock
held. -/
inductive Loop
  | idle
  | sending (index : ℕ) (op : Op)
  deriving DecidableEq

/-- An applied index with the Op the loop sends for it, and the call on this server that submitted
the entry, if one did. -/
structure Applied where
  index : ℕ
  op : Op
  origin : Option ℕ
  deriving DecidableEq

/-- The channels that exist, each with the content of its slot. -/
abbrev ChanMap := ℕ → Option (Option Op)

/-- Look up the channel of an index and create it if there is none. -/
def openChan (chans : ChanMap) (index : ℕ) : ChanMap :=
  match chans index with
  | some _ => chans
  | none => Function.update chans index (some none)

/-- A server with its apply loop, the messages the loop has taken so far, and its calls of
`sendToRaftAndWait`. -/
structure Channels where
  server : Server
  taken : List ApplyMsg
  indexChan : ChanMap
  loop : Loop
  calls : List Waiter
  applied : List Applied

/-- What can happen next: `Start` issues an index to a new call; a call registers, receives or
times out; the loop takes a message, which may be the entry a call submitted; the loop sends. -/
inductive ChannelEvent
  | start (op : Op) (index : ℕ)
  | register (k : ℕ)
  | receive (k : ℕ)
  | timeout (k : ℕ)
  | deliver (msg : ApplyMsg) (origin : Option ℕ)
  | send
  deriving DecidableEq

namespace Channels

/-- The message may come next: its index was not delivered before, and it is the entry of the call
it is said to come from. -/
def Deliverable (s : Channels) (msg : ApplyMsg) (op : Op) (origin : Option ℕ) : Prop :=
  (∀ a ∈ s.applied, a.index ≠ msg.commandIndex) ∧
    ∀ k ∈ origin, (s.calls[k]?.map fun w ↦ (w.op, w.index)) = some (op, msg.commandIndex)

instance (s : Channels) (msg : ApplyMsg) (op : Op) (origin : Option ℕ) :
    Decidable (s.Deliverable msg op origin) :=
  inferInstanceAs (Decidable (_ ∧ ∀ k ∈ origin, _ = _))

/-- The loop under the lock, up to its send. -/
def deliver (h : Handlers) (s : Channels) (msg : ApplyMsg) (op : Op) (origin : Option ℕ) :
    Channels :=
  { s with
    server := (s.server.applyOp h op).1
    taken := s.taken ++ [msg]
    indexChan := openChan s.indexChan msg.commandIndex
    loop := .sending msg.commandIndex (s.server.applyOp h op).2.1
    applied := s.applied ++ [⟨msg.commandIndex, (s.server.applyOp h op).2.1, origin⟩] }

/-- One step of the server.  The send blocks as long as the slot is full. -/
def step (h : Handlers) (s : Channels) : ChannelEvent → Option Channels
  | .start op index => some { s with calls := s.calls ++ [⟨op, index, .started⟩] }
  | .register k =>
    match s.loop, s.calls[k]? with
    | .idle, some ⟨op, index, .started⟩ => some { s with
        indexChan := openChan s.indexChan index
        calls := s.calls.set k ⟨op, index, .waiting⟩ }
    | _, _ => none
  | .receive k =>
    match s.calls[k]? with
    | some ⟨op, index, .waiting⟩ =>
      match s.indexChan index with
      | some (some sent) => some { s with
          indexChan := Function.update s.indexChan index (some none)
          calls := s.calls.set k ⟨op, index, .received sent⟩ }
      | _ => none
    | _ => none
  | .timeout k =>
    match s.calls[k]? with
    | some ⟨op, index, .waiting⟩ => some { s with calls := s.calls.set k ⟨op, index, .timedOut⟩ }
    | _ => none
  | .deliver msg origin =>
    match s.loop, msg.validOp with
    | .idle, some op =>
      if s.Deliverable msg op origin then some (s.deliver h msg op origin) else none
    | .idle, none => some { s with taken := s.taken ++ [msg] }
    | .sending _ _, _ => none
  | .send =>
    match s.loop with
    | .sending index op =>
      match s.indexChan index with
      | some none => some { s with
          indexChan := Function.update s.indexChan index (some (some op))
          loop := .idle }
      | _ => none
    | .idle => none

/-- The server as `StartServer` leaves it. -/
def initial : Channels where
  server := startServer
  taken := []
  indexChan := fun _ ↦ none
  loop := .idle
  calls := []
  applied := []

end Channels

/-- The machine of one server. -/
def channels (h : Handlers) : Machine Channels ChannelEvent := ⟨.initial, Channels.step h⟩

namespace Channels

variable {h : Handlers} {s t : Channels} {e : ChannelEvent} {i k : ℕ} {op : Op}

/-- The steps of the machine, one case for each outcome. -/
inductive Transition (h : Handlers) (s : Channels) : ChannelEvent → Channels → Prop
  | start (op : Op) (index : ℕ) :
      Transition h s (.start op index) { s with calls := s.calls ++ [⟨op, index, .started⟩] }
  | register {k : ℕ} {op : Op} {index : ℕ} (hloop : s.loop = .idle)
      (hcall : s.calls[k]? = some ⟨op, index, .started⟩) :
      Transition h s (.register k)
        { s with
          indexChan := openChan s.indexChan index
          calls := s.calls.set k ⟨op, index, .waiting⟩ }
  | receive {k : ℕ} {op sent : Op} {index : ℕ} (hcall : s.calls[k]? = some ⟨op, index, .waiting⟩)
      (hchan : s.indexChan index = some (some sent)) :
      Transition h s (.receive k)
        { s with
          indexChan := Function.update s.indexChan index (some none)
          calls := s.calls.set k ⟨op, index, .received sent⟩ }
  | timeout {k : ℕ} {op : Op} {index : ℕ} (hcall : s.calls[k]? = some ⟨op, index, .waiting⟩) :
      Transition h s (.timeout k) { s with calls := s.calls.set k ⟨op, index, .timedOut⟩ }
  | skip {msg : ApplyMsg} (origin : Option ℕ) (hmsg : msg.validOp = none) :
      Transition h s (.deliver msg origin) { s with taken := s.taken ++ [msg] }
  | deliver {msg : ApplyMsg} {origin : Option ℕ} {op : Op} (hloop : s.loop = .idle)
      (hmsg : msg.validOp = some op) (hnext : s.Deliverable msg op origin) :
      Transition h s (.deliver msg origin) (s.deliver h msg op origin)
  | send {index : ℕ} {op : Op} (hloop : s.loop = .sending index op)
      (hchan : s.indexChan index = some none) :
      Transition h s .send
        { s with indexChan := Function.update s.indexChan index (some (some op)), loop := .idle }

theorem transition_of_step (ht : s.step h e = some t) : Transition h s e t := by
  cases e with
  | start op index =>
    cases ht
    exact .start op index
  | register k =>
    simp only [step] at ht
    split at ht
    next hloop hcall =>
      cases ht
      exact .register hloop hcall
    next => cases ht
  | receive k =>
    simp only [step] at ht
    split at ht
    next hcall =>
      split at ht
      next hchan =>
        cases ht
        exact .receive hcall hchan
      next => cases ht
    next => cases ht
  | timeout k =>
    simp only [step] at ht
    split at ht
    next hcall =>
      cases ht
      exact .timeout hcall
    next => cases ht
  | deliver msg origin =>
    simp only [step] at ht
    split at ht
    next hloop hmsg =>
      split_ifs at ht with hnext
      cases ht
      exact .deliver hloop hmsg hnext
    next hmsg =>
      cases ht
      exact .skip origin hmsg
    next => cases ht
  | send =>
    simp only [step] at ht
    split at ht
    next hloop =>
      split at ht
      next hchan =>
        cases ht
        exact .send hloop hchan
      next => cases ht
    next => cases ht

/-! ## The loop applies the messages it takes -/

/-- The Op was sent for a message the loop has taken, as the loop alone would have sent it. -/
def Sent (h : Handlers) (msgs : List ApplyMsg) (index : ℕ) (op : Op) : Prop :=
  ∃ earlier msg later handler, msgs = earlier ++ msg :: later ∧
    deliveryAfter h earlier msg = some ⟨index, op, handler⟩

theorem Sent.append {msgs : List ApplyMsg} {index : ℕ} (hsent : Sent h msgs index op)
    (more : List ApplyMsg) : Sent h (msgs ++ more) index op := by
  obtain ⟨earlier, msg, later, handler, hmsgs, hdelivery⟩ := hsent
  exact ⟨earlier, msg, later ++ more, handler, by simp [hmsgs], hdelivery⟩

/-- The concurrent server runs the sequential loop: its state is the one after the messages taken
so far, and every applied Op is what the loop sends for one of them. -/
structure Applies (h : Handlers) (s : Channels) : Prop where
  server : s.server = stateAfter h s.taken
  applied : ∀ a ∈ s.applied, Sent h s.taken a.index a.op

theorem Applies.step (hs : s.Applies h) (ht : Transition h s e t) : t.Applies h := by
  cases ht with
  | start op index => exact ⟨hs.server, hs.applied⟩
  | register hloop hcall => exact ⟨hs.server, hs.applied⟩
  | receive hcall hchan => exact ⟨hs.server, hs.applied⟩
  | timeout hcall => exact ⟨hs.server, hs.applied⟩
  | send hloop hchan => exact ⟨hs.server, hs.applied⟩
  | skip origin hmsg =>
    refine ⟨?_, fun a ha ↦ (hs.applied a ha).append _⟩
    rw [stateAfter_concat, Server.receive_of_not_validOp hmsg]
    exact hs.server
  | @deliver msg origin op hloop hmsg hnext =>
    constructor
    · dsimp only [Channels.deliver]
      rw [stateAfter_concat, Server.receive_of_validOp hmsg, hs.server]
    · intro a ha
      rcases List.mem_append.mp ha with hold | hnew
      · exact (hs.applied a hold).append _
      · rw [List.mem_singleton.mp hnew]
        refine ⟨s.taken, msg, [], (s.server.applyOp h op).2.2, rfl, ?_⟩
        rw [deliveryAfter_of_validOp hmsg, hs.server]

/-- Every run of the concurrent server refines the sequential loop. -/
theorem applies_of_reachable (hreach : (channels h).Reachable s) : s.Applies h := by
  apply hreach.invariant (I := Applies h)
  · exact ⟨rfl, by simp [channels, initial]⟩
  · intro s e t hs ht
    exact hs.step (transition_of_step ht)

/-! ## The life of an index -/

/-- Call `k` waited on index `i` and received the Op. -/
def Receives (calls : List Waiter) (k i : ℕ) (op : Op) : Prop :=
  ∃ submitted, calls[k]? = some ⟨submitted, i, .received op⟩

/-- The Op sent for index `i`, as the only one. -/
def AppliedAt (s : Channels) (i : ℕ) (a : Applied) : Prop :=
  ∀ b, b ∈ s.applied ∧ b.index = i ↔ b = a

/-- Where the Op of index `i` is: not applied yet, about to be sent into an empty slot, in the
slot, or taken by exactly one call. -/
inductive Slot (s : Channels) (i : ℕ) : Prop
  | unapplied (happlied : ∀ b ∈ s.applied, b.index ≠ i)
      (hloop : ∀ op, s.loop ≠ .sending i op)
      (hchan : s.indexChan i = none ∨ s.indexChan i = some none)
      (hnone : ∀ k op, ¬ Receives s.calls k i op)
  | sending {a : Applied} (happlied : s.AppliedAt i a) (hloop : s.loop = .sending i a.op)
      (hchan : s.indexChan i = some none) (hnone : ∀ k op, ¬ Receives s.calls k i op)
  | buffered {a : Applied} (happlied : s.AppliedAt i a) (hloop : ∀ op, s.loop ≠ .sending i op)
      (hchan : s.indexChan i = some (some a.op)) (hnone : ∀ k op, ¬ Receives s.calls k i op)
  | taken {a : Applied} {k : ℕ} (happlied : s.AppliedAt i a)
      (hloop : ∀ op, s.loop ≠ .sending i op) (hchan : s.indexChan i = some none)
      (hone : ∀ k' op, Receives s.calls k' i op ↔ k' = k ∧ op = a.op)

/-- The life of an index depends on nothing but its own applied Op, channel, send and
receivers. -/
theorem Slot.congr (hslot : s.Slot i)
    (happlied : ∀ b, b ∈ t.applied ∧ b.index = i ↔ b ∈ s.applied ∧ b.index = i)
    (hloop : ∀ op, t.loop = .sending i op ↔ s.loop = .sending i op)
    (hchan : t.indexChan i = s.indexChan i)
    (hcalls : ∀ k op, Receives t.calls k i op ↔ Receives s.calls k i op) : t.Slot i := by
  have hat : ∀ a, s.AppliedAt i a → t.AppliedAt i a := fun a ha b ↦ (happlied b).trans (ha b)
  cases hslot with
  | unapplied ha hl hc hn =>
    refine .unapplied ?_ (fun op ↦ mt (hloop op).mp (hl op)) (by rwa [hchan])
      fun k op ↦ mt (hcalls k op).mp (hn k op)
    intro b hb hi
    exact ha b ((happlied b).mp ⟨hb, hi⟩).1 hi
  | sending ha hl hc hn =>
    exact .sending (hat _ ha) ((hloop _).mpr hl) (hchan.trans hc)
      fun k op ↦ mt (hcalls k op).mp (hn k op)
  | buffered ha hl hc hn =>
    exact .buffered (hat _ ha) (fun op ↦ mt (hloop op).mp (hl op)) (hchan.trans hc)
      fun k op ↦ mt (hcalls k op).mp (hn k op)
  | taken ha hl hc ho =>
    exact .taken (hat _ ha) (fun op ↦ mt (hloop op).mp (hl op)) (hchan.trans hc)
      fun k op ↦ (hcalls k op).trans (ho k op)

theorem openChan_of_ne {chans : ChanMap} {index : ℕ} (hne : i ≠ index) :
    openChan chans index i = chans i := by
  unfold openChan
  cases chans index with
  | some slot => rfl
  | none => exact Function.update_of_ne hne _ _

theorem openChan_self_of_some {chans : ChanMap} {slot : Option Op} (hchan : chans i = some slot) :
    openChan chans i = chans := by
  simp [openChan, hchan]

theorem openChan_self_of_empty {chans : ChanMap} (hchan : chans i = none ∨ chans i = some none) :
    openChan chans i i = some none := by
  rcases hchan with hnone | hempty
  · simp [openChan, hnone]
  · rw [openChan_self_of_some hempty, hempty]

/-- Creating a channel does not disturb the life of any index. -/
theorem Slot.openChan (hslot : s.Slot i) (index : ℕ) :
    { s with indexChan := openChan s.indexChan index }.Slot i := by
  by_cases hi : i = index
  · subst hi
    cases hslot with
    | unapplied ha hl hc hn => exact .unapplied ha hl (Or.inr (openChan_self_of_empty hc)) hn
    | sending ha hl hc hn => exact .sending ha hl (by rw [openChan_self_of_some hc, hc]) hn
    | buffered ha hl hc hn => exact .buffered ha hl (by rw [openChan_self_of_some hc, hc]) hn
    | taken ha hl hc ho => exact .taken ha hl (by rw [openChan_self_of_some hc, hc]) ho
  · exact hslot.congr (fun _ ↦ Iff.rfl) (fun _ ↦ Iff.rfl) (openChan_of_ne hi) fun _ _ ↦ Iff.rfl

theorem receives_concat {calls : List Waiter} {index : ℕ} {submitted : Op} (k i : ℕ) (op : Op) :
    Receives (calls ++ [⟨submitted, index, .started⟩]) k i op ↔ Receives calls k i op := by
  simp [Receives, Lists.getElem?_concat_eq_some]

/-- A call that moves on without receiving changes nothing about who has received. -/
theorem receives_set {calls : List Waiter} {w w' : Waiter} {k : ℕ} (hcall : calls[k]? = some w)
    (hw : ∀ op, w.phase ≠ .received op) (hw' : ∀ op, w'.phase ≠ .received op) (k' i : ℕ) (op : Op) :
    Receives (calls.set k w') k' i op ↔ Receives calls k' i op := by
  unfold Receives
  by_cases hk : k = k'
  · subst hk
    rw [List.getElem?_set_self (List.getElem?_eq_some_iff.mp hcall).1, hcall]
    constructor
    · rintro ⟨submitted, heq⟩
      cases heq
      exact absurd rfl (hw' op)
    · rintro ⟨submitted, heq⟩
      cases heq
      exact absurd rfl (hw op)
  · rw [List.getElem?_set_ne hk]

/-- When a waiting call receives, it joins those who have received on its index. -/
theorem receives_set_received {calls : List Waiter} {submitted sent : Op} {k index : ℕ}
    (hcall : calls[k]? = some ⟨submitted, index, .waiting⟩) (k' i : ℕ) (op : Op) :
    Receives (calls.set k ⟨submitted, index, .received sent⟩) k' i op ↔
      (k' = k ∧ op = sent ∧ i = index) ∨ Receives calls k' i op := by
  unfold Receives
  by_cases hk : k = k'
  · subst hk
    rw [List.getElem?_set_self (List.getElem?_eq_some_iff.mp hcall).1, hcall]
    simp [eq_comm, and_comm]
  · rw [List.getElem?_set_ne hk]
    simp [Ne.symm hk]

/-- An index that was not applied has no Op in its channel and no call that received. -/
theorem Slot.empty_of_fresh (hslot : s.Slot i) (hfresh : ∀ b ∈ s.applied, b.index ≠ i) :
    (s.indexChan i = none ∨ s.indexChan i = some none) ∧ ∀ k op, ¬ Receives s.calls k i op := by
  have happlied : ∀ a, ¬ s.AppliedAt i a := by
    intro a ha
    obtain ⟨hmem, hindex⟩ := (ha a).mpr rfl
    exact hfresh a hmem hindex
  cases hslot with
  | unapplied _ _ hchan hnone => exact ⟨hchan, hnone⟩
  | sending ha _ _ _ => exact absurd ha (happlied _)
  | buffered ha _ _ _ => exact absurd ha (happlied _)
  | taken ha _ _ _ => exact absurd ha (happlied _)

/-- A receive takes the Op of its index out of the slot. -/
theorem Slot.receive (hslot : s.Slot i) {submitted sent : Op} {index : ℕ}
    (hcall : s.calls[k]? = some ⟨submitted, index, .waiting⟩)
    (hchan : s.indexChan index = some (some sent)) :
    ({ s with
      indexChan := Function.update s.indexChan index (some none)
      calls := s.calls.set k ⟨submitted, index, .received sent⟩ } : Channels).Slot i := by
  by_cases hi : i = index
  · subst hi
    cases hslot with
    | unapplied _ _ hc _ => simp [hchan] at hc
    | sending _ _ hc _ => simp [hchan] at hc
    | taken _ _ hc _ => simp [hchan] at hc
    | buffered ha hl hc hn =>
      rw [hchan, Option.some.injEq, Option.some.injEq] at hc
      subst hc
      refine .taken (k := k) ha hl (Function.update_self ..) ?_
      intro k' op
      rw [receives_set_received hcall]
      simp [hn k' op]
  · refine hslot.congr (fun _ ↦ Iff.rfl) (fun _ ↦ Iff.rfl) (Function.update_of_ne hi _ _) ?_
    intro k' op
    rw [receives_set_received hcall]
    simp [hi]

/-- A delivered index was not applied before, so its life only starts with the delivery. -/
theorem Slot.deliver (hslot : s.Slot i) (hloop : s.loop = .idle) {msg : ApplyMsg} (op : Op)
    (origin : Option ℕ) (hfresh : ∀ b ∈ s.applied, b.index ≠ msg.commandIndex) :
    (s.deliver h msg op origin).Slot i := by
  have hmem : ∀ b, b ∈ (s.deliver h msg op origin).applied ↔
      b ∈ s.applied ∨ b = ⟨msg.commandIndex, (s.server.applyOp h op).2.1, origin⟩ := by
    intro b
    simp [Channels.deliver]
  by_cases hi : i = msg.commandIndex
  · subst hi
    obtain ⟨hchan, hnone⟩ := hslot.empty_of_fresh hfresh
    refine .sending (a := ⟨msg.commandIndex, (s.server.applyOp h op).2.1, origin⟩) ?_ rfl
      (openChan_self_of_empty hchan) hnone
    intro b
    rw [hmem]
    constructor
    · rintro ⟨hold | hnew, hb⟩
      · exact absurd hb (hfresh b hold)
      · exact hnew
    · rintro rfl
      exact ⟨Or.inr rfl, rfl⟩
  · refine hslot.congr ?_ ?_ (openChan_of_ne hi) fun _ _ ↦ Iff.rfl
    · intro b
      rw [hmem]
      constructor
      · rintro ⟨hold | rfl, hb⟩
        · exact ⟨hold, hb⟩
        · exact absurd hb.symm hi
      · rintro ⟨hold, hb⟩
        exact ⟨Or.inl hold, hb⟩
    · intro op'
      simp [Channels.deliver, hloop, Ne.symm hi]

/-- A send puts the Op of its index into the slot. -/
theorem Slot.send (hslot : s.Slot i) {index : ℕ} (hloop : s.loop = .sending index op) :
    ({ s with
      indexChan := Function.update s.indexChan index (some (some op))
      loop := .idle } : Channels).Slot i := by
  by_cases hi : i = index
  · subst hi
    cases hslot with
    | unapplied _ hl _ _ => exact absurd hloop (hl op)
    | buffered _ hl _ _ => exact absurd hloop (hl op)
    | taken _ hl _ _ => exact absurd hloop (hl op)
    | sending ha hl hc hn =>
      rw [hloop] at hl
      cases hl
      exact .buffered ha (by simp) (Function.update_self ..) hn
  · refine hslot.congr (fun _ ↦ Iff.rfl) ?_ (Function.update_of_ne hi _ _) fun _ _ ↦ Iff.rfl
    intro op'
    simp [hloop, Ne.symm hi]

/-- One step takes every index at most one stage further in its life. -/
theorem Slot.step (hslot : s.Slot i) (ht : Transition h s e t) : t.Slot i := by
  cases ht with
  | start op index =>
    exact hslot.congr (fun _ ↦ Iff.rfl) (fun _ ↦ Iff.rfl) rfl fun k op ↦ receives_concat k i op
  | register hloop hcall =>
    exact (hslot.openChan _).congr (fun _ ↦ Iff.rfl) (fun _ ↦ Iff.rfl) rfl fun k op ↦
      receives_set hcall (by simp) (by simp) k i op
  | receive hcall hchan => exact hslot.receive hcall hchan
  | timeout hcall =>
    exact hslot.congr (fun _ ↦ Iff.rfl) (fun _ ↦ Iff.rfl) rfl fun k op ↦
      receives_set hcall (by simp) (by simp) k i op
  | skip origin hmsg =>
    exact hslot.congr (fun _ ↦ Iff.rfl) (fun _ ↦ Iff.rfl) rfl fun _ _ ↦ Iff.rfl
  | deliver hloop hmsg hnext => exact hslot.deliver hloop _ _ hnext.1
  | send hloop _ => exact hslot.send hloop

/-- In every run every index is in one of the stages. -/
theorem slot_of_reachable (hreach : (channels h).Reachable s) : ∀ i, s.Slot i := by
  apply hreach.invariant (I := fun s ↦ ∀ i, s.Slot i)
  · intro i
    exact .unapplied (by simp [channels, initial]) (by simp [channels, initial]) (Or.inl rfl)
      (by simp [channels, initial, Receives])
  · intro s e t hall ht i
    exact (hall i).step (transition_of_step ht)

/-! ## What follows from the stages -/

theorem Slot.unique (hslot : s.Slot i) {a b : Applied} (ha : a ∈ s.applied) (hai : a.index = i)
    (hb : b ∈ s.applied) (hbi : b.index = i) : b = a := by
  cases hslot with
  | unapplied happlied _ _ _ => exact absurd hai (happlied a ha)
  | sending happlied _ _ _ =>
    exact ((happlied b).mp ⟨hb, hbi⟩).trans ((happlied a).mp ⟨ha, hai⟩).symm
  | buffered happlied _ _ _ =>
    exact ((happlied b).mp ⟨hb, hbi⟩).trans ((happlied a).mp ⟨ha, hai⟩).symm
  | taken happlied _ _ _ =>
    exact ((happlied b).mp ⟨hb, hbi⟩).trans ((happlied a).mp ⟨ha, hai⟩).symm

/-- The slot is empty when the loop is about to send. -/
theorem Slot.chan_of_sending (hslot : s.Slot i) (hloop : s.loop = .sending i op) :
    s.indexChan i = some none := by
  cases hslot with
  | sending _ _ hchan _ => exact hchan
  | unapplied _ hl _ _ => exact absurd hloop (hl op)
  | buffered _ hl _ _ => exact absurd hloop (hl op)
  | taken _ hl _ _ => exact absurd hloop (hl op)

/-- A received Op was applied at the index. -/
theorem Slot.applied_of_receives (hslot : s.Slot i) (hreceives : Receives s.calls k i op) :
    ∃ a ∈ s.applied, a.index = i ∧ a.op = op := by
  cases hslot with
  | taken happlied _ _ hone =>
    obtain ⟨hmem, hindex⟩ := (happlied _).mpr rfl
    exact ⟨_, hmem, hindex, ((hone k op).mp hreceives).2.symm⟩
  | unapplied _ _ _ hnone => exact absurd hreceives (hnone k op)
  | sending _ _ _ hnone => exact absurd hreceives (hnone k op)
  | buffered _ _ _ hnone => exact absurd hreceives (hnone k op)

/-- The slot is empty once a call has received. -/
theorem Slot.chan_of_receives (hslot : s.Slot i) (hreceives : Receives s.calls k i op) :
    s.indexChan i = some none := by
  cases hslot with
  | taken _ _ hchan _ => exact hchan
  | unapplied _ _ _ hnone => exact absurd hreceives (hnone k op)
  | sending _ _ _ hnone => exact absurd hreceives (hnone k op)
  | buffered _ _ _ hnone => exact absurd hreceives (hnone k op)

/-- The call can receive the Op: the loop's pending send and the call's own steps, and nothing
else, lead to it. -/
def CanReceive (h : Handlers) (s : Channels) (k : ℕ) (op : Op) : Prop :=
  ∃ es t i, (∀ e ∈ es, e = .send ∨ e = .register k ∨ e = .receive k) ∧
    (channels h).run s es = some t ∧ Receives t.calls k i op

/-- Once the Op is in the slot and the lock is free, a call that has not timed out can get it. -/
theorem canReceive_of_buffered {w : Waiter} (hcall : s.calls[k]? = some w)
    (hphase : w.phase = .started ∨ w.phase = .waiting) (hloop : s.loop = .idle)
    (hchan : s.indexChan w.index = some (some op)) : CanReceive h s k op := by
  obtain ⟨submitted, index, phase⟩ := w
  have hreceive : ∀ u : Channels, u.calls[k]? = some ⟨submitted, index, .waiting⟩ →
      u.indexChan index = some (some op) →
      ∃ t, u.step h (.receive k) = some t ∧ Receives t.calls k index op := by
    intro u hu hslot
    refine ⟨{ u with
      indexChan := Function.update u.indexChan index (some none)
      calls := u.calls.set k ⟨submitted, index, .received op⟩ }, ?_, submitted, ?_⟩
    · simp only [step, hu, hslot]
    · exact List.getElem?_set_self (List.getElem?_eq_some_iff.mp hu).1
  dsimp only at hphase hchan
  rcases hphase with rfl | rfl
  · let u : Channels := { s with
      indexChan := ShardCtrler.openChan s.indexChan index
      calls := s.calls.set k ⟨submitted, index, .waiting⟩ }
    have hregister : s.step h (.register k) = some u := by
      simp only [step, hloop, hcall, u]
    have hslot : u.indexChan index = some (some op) := by
      rw [← hchan]
      exact congrFun (openChan_self_of_some hchan) index
    obtain ⟨t, hstep, ht⟩ := hreceive u
      (List.getElem?_set_self (List.getElem?_eq_some_iff.mp hcall).1) hslot
    refine ⟨[.register k, .receive k], t, index, by simp, ?_, ht⟩
    simp only [channels, Machine.run, hregister, Option.bind_some, hstep]
  · obtain ⟨t, hstep, ht⟩ := hreceive s hcall hchan
    refine ⟨[.receive k], t, index, by simp, ?_, ht⟩
    simp only [channels, Machine.run, hstep, Option.bind_some]

/-- An Op that was applied and that no call has taken is in the slot once the loop is idle. -/
theorem Slot.chan_of_idle (hslot : s.Slot i) {a : Applied} (ha : a ∈ s.applied) (hai : a.index = i)
    (hloop : s.loop = .idle) (hnone : ∀ k op, ¬ Receives s.calls k i op) :
    s.indexChan i = some (some a.op) := by
  cases hslot with
  | unapplied happlied _ _ _ => exact absurd hai (happlied a ha)
  | sending _ hl _ _ => simp [hloop] at hl
  | buffered happlied _ hchan _ => rw [(happlied a).mp ⟨ha, hai⟩, hchan]
  | taken _ _ _ hone => exact absurd ((hone _ _).mpr ⟨rfl, rfl⟩) (hnone _ _)

/-- A call on an applied index that has not timed out can receive the Op, unless another call
received it. -/
theorem canReceive (hall : ∀ i, s.Slot i) {w : Waiter} {a : Applied}
    (hcall : s.calls[k]? = some w) (ha : a ∈ s.applied) (hindex : a.index = w.index)
    (hphase : w.phase ≠ .timedOut)
    (hsole : ∀ k' op, Receives s.calls k' w.index op → k' = k) : CanReceive h s k a.op := by
  by_cases hreceived : ∃ op, w.phase = .received op
  · obtain ⟨op, hop⟩ := hreceived
    have hreceives : Receives s.calls k w.index op := ⟨w.op, by rw [hcall, ← hop]⟩
    obtain ⟨b, hb, hbi, rfl⟩ := (hall w.index).applied_of_receives hreceives
    rw [← (hall w.index).unique ha hindex hb hbi]
    exact ⟨[], s, w.index, by simp, rfl, hreceives⟩
  · have hunfinished : w.phase = .started ∨ w.phase = .waiting := by
      cases hw : w.phase with
      | started => exact Or.inl rfl
      | waiting => exact Or.inr rfl
      | received op => exact absurd ⟨op, hw⟩ hreceived
      | timedOut => exact absurd hw hphase
    have hnone : ∀ k' op, ¬ Receives s.calls k' w.index op := by
      intro k' op hreceives
      obtain rfl := hsole k' op hreceives
      obtain ⟨submitted, heq⟩ := hreceives
      rw [hcall, Option.some.injEq] at heq
      exact hreceived ⟨op, by rw [heq]⟩
    cases hloop : s.loop with
    | idle =>
      exact canReceive_of_buffered hcall hunfinished hloop
        ((hall w.index).chan_of_idle ha hindex hloop hnone)
    | sending j op =>
      -- The loop may hold the lock for another index; its send goes through and frees the lock.
      let u : Channels := { s with
        indexChan := Function.update s.indexChan j (some (some op)), loop := .idle }
      have hsend : s.step h .send = some u := by
        simp only [step, hloop, (hall j).chan_of_sending hloop, u]
      have hslot : u.Slot w.index := (hall w.index).step (transition_of_step hsend)
      have hchan : u.indexChan w.index = some (some a.op) :=
        hslot.chan_of_idle ha hindex rfl hnone
      obtain ⟨es, t, i, hes, hrun, ht⟩ : CanReceive h u k a.op :=
        canReceive_of_buffered (s := u) hcall hunfinished rfl hchan
      refine ⟨.send :: es, t, i, by simpa using hes, ?_, ht⟩
      rw [Machine.run_cons, show (channels h).step s .send = some u from hsend]
      exact hrun

/-- For every interleaving of calls and apply loop: the loop always sends into an empty slot; what
a call receives is the one Op applied at its index, as the loop sends it for the message with that
index; and the only call on an applied index can receive the Op as long as it has not timed out. -/
theorem answers_of_reachable (hreach : (channels h).Reachable s) :
    (∀ i op, s.loop = .sending i op → s.indexChan i = some none) ∧
    (∀ (k : ℕ) (w : Waiter) (op : Op), s.calls[k]? = some w → w.phase = .received op →
      (∃ a, s.AppliedAt w.index a ∧ a.op = op) ∧ Sent h s.taken w.index op) ∧
    ∀ (k : ℕ) (w : Waiter), ∀ a ∈ s.applied, s.calls[k]? = some w → a.index = w.index →
      (∀ (k' : ℕ) (w' : Waiter), s.calls[k']? = some w' → w'.index = w.index → k' = k) →
      w.phase ≠ .timedOut → CanReceive h s k a.op := by
  have hall := slot_of_reachable hreach
  refine ⟨fun i op hloop ↦ (hall i).chan_of_sending hloop, ?_, ?_⟩
  · intro k w op hcall hphase
    have hreceives : Receives s.calls k w.index op := ⟨w.op, by rw [hcall, ← hphase]⟩
    obtain ⟨a, ha, hai, hop⟩ := (hall w.index).applied_of_receives hreceives
    have hat : s.AppliedAt w.index a := by
      intro b
      constructor
      · rintro ⟨hb, hbi⟩
        exact (hall w.index).unique ha hai hb hbi
      · rintro rfl
        exact ⟨ha, hai⟩
    have hsent : Sent h s.taken a.index a.op := (applies_of_reachable hreach).applied a ha
    rw [hai, hop] at hsent
    exact ⟨⟨a, hat, hop⟩, hsent⟩
  · intro k w a ha hcall hindex hsole hphase
    apply canReceive hall hcall ha hindex hphase
    rintro k' op ⟨submitted, hcall'⟩
    exact hsole k' _ hcall' rfl

/-- A call registers after its index was applied, another index is applied that nobody waits for,
and the call has not received yet. -/
theorem answers_of_late_registration :
    ∃ s, (channels sampleHandlers).Reachable s ∧
      s.calls = [⟨(Request.query 0).toOp 1 1, 3, .waiting⟩] ∧ s.applied.length = 2 ∧
      (∀ i op, s.loop = .sending i op → s.indexChan i = some none) ∧
      (∀ (k : ℕ) (w : Waiter) (op : Op), s.calls[k]? = some w → w.phase = .received op →
        (∃ a, s.AppliedAt w.index a ∧ a.op = op) ∧ Sent sampleHandlers s.taken w.index op) ∧
      ∀ (k : ℕ) (w : Waiter), ∀ a ∈ s.applied, s.calls[k]? = some w → a.index = w.index →
        (∀ (k' : ℕ) (w' : Waiter), s.calls[k']? = some w' → w'.index = w.index → k' = k) →
        w.phase ≠ .timedOut → CanReceive sampleHandlers s k a.op := by
  have hrun : ∃ s, (channels sampleHandlers).Reachable s ∧
      s.calls = [⟨(Request.query 0).toOp 1 1, 3, .waiting⟩] ∧ s.applied.length = 2 :=
    Machine.exists_reachable
      [.start ((Request.query 0).toOp 1 1) 3,
        .deliver ⟨true, some ((Request.query 0).toOp 1 1), 3⟩ (some 0), .send, .register 0,
        .deliver ⟨true, some ((Request.leave []).toOp 2 1), 4⟩ none] (by decide)
  obtain ⟨s, hreach, hcalls, happlied⟩ := hrun
  exact ⟨s, hreach, hcalls, happlied, answers_of_reachable hreach⟩

end Channels

end DistKvRaft.ShardCtrler
