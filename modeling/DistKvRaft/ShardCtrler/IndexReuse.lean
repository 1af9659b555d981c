import DistKvRaft.ShardCtrler.IndexChannel

/-!
# One index for two calls

`Start` promises an index only for the case that the entry is committed.  A leader that loses and
regains its office can issue the same index for another entry, and then two calls wait on one
channel.  The Op applied at the index belongs to at most one of them, and either may take it.

As long as `Start` does not issue an index that an earlier call still waits for, the call whose
entry was applied is the one that receives the Op, unless it times out.  What counts is when the
index is issued: the entry may be applied before `Start` returns.
-/

namespace DistKvRaft.ShardCtrler

/-- The call has received or timed out. -/
def WaitPhase.isFinished : WaitPhase → Bool
  | .started | .waiting => false
  | .received _ | .timedOut => true

namespace Channels

variable {h : Handlers} {s t : Channels} {e : ChannelEvent} {k : ℕ}

/-- `Start` issues an index only when no earlier call still waits for it. -/
def ReturnsFreeIndex (s : Channels) : ChannelEvent → Prop
  | .start _ index => ∀ w ∈ s.calls, w.index = index → w.phase.isFinished = true
  | _ => True

instance (s : Channels) : ∀ e, Decidable (s.ReturnsFreeIndex e)
  | .start _ index =>
    inferInstanceAs (Decidable (∀ w ∈ s.calls, w.index = index → w.phase.isFinished = true))
  | .register _ | .receive _ | .timeout _ | .deliver _ _ | .send => inferInstanceAs (Decidable True)

/-- Who waits for which index when no index is issued to two calls at a time. -/
structure Owned (s : Channels) : Prop where
  origin : ∀ a ∈ s.applied, ∀ k, a.origin = some k →
    ∃ w, s.calls[k]? = some w ∧ w.index = a.index
  sole : ∀ (k k' : ℕ) (w w' : Waiter), s.calls[k]? = some w → s.calls[k']? = some w' →
    w.index = w'.index → w.phase.isFinished = false → w'.phase.isFinished = false → k = k'
  passed : ∀ a ∈ s.applied, ∀ k, a.origin = some k → ∀ k' op, Receives s.calls k' a.index op →
    k' ≠ k → ∃ w, s.calls[k]? = some w ∧ w.phase = .timedOut

theorem owned_init : (channels h).init.Owned := by
  constructor <;> simp [channels, initial]

/-- A call that timed out stays so when another, unfinished call is replaced. -/
theorem timedOut_set {calls : List Waiter} {j k : ℕ} {v v' : Waiter} (hcall : calls[k]? = some v)
    (hphase : v.phase.isFinished = false)
    (hj : ∃ w, calls[j]? = some w ∧ w.phase = .timedOut) :
    ∃ w, (calls.set k v')[j]? = some w ∧ w.phase = .timedOut := by
  obtain ⟨w, hw, htimed⟩ := hj
  have hne : k ≠ j := by
    rintro rfl
    rw [hcall] at hw
    cases hw
    rw [htimed] at hphase
    cases hphase
  exact ⟨w, by rwa [List.getElem?_set_ne hne], htimed⟩

/-- An unfinished call moves to another phase.  What is left to show is that every call with an
applied entry has timed out if another call has received its Op by then. -/
theorem Owned.set (hs : s.Owned) {v v' : Waiter} (hcall : s.calls[k]? = some v)
    (happlied : t.applied = s.applied) (hcalls : t.calls = s.calls.set k v')
    (hindex : v'.index = v.index) (hphase : v.phase.isFinished = false)
    (hpassed : ∀ a ∈ s.applied, ∀ j, a.origin = some j → ∀ k' op,
      Receives (s.calls.set k v') k' a.index op → k' ≠ j →
      ∃ w, s.calls[j]? = some w ∧ w.phase = .timedOut) : t.Owned := by
  have hk := (List.getElem?_eq_some_iff.mp hcall).1
  constructor
  · intro a ha j horigin
    rw [happlied] at ha
    obtain ⟨w, hw, hwi⟩ := hs.origin a ha j horigin
    simp only [hcalls, Lists.getElem?_set_eq_some hk]
    by_cases hj : j = k
    · subst hj
      rw [hcall] at hw
      cases hw
      exact ⟨v', Or.inl ⟨rfl, rfl⟩, hindex.trans hwi⟩
    · exact ⟨w, Or.inr ⟨hj, hw⟩, hwi⟩
  · intro j j' w w' hj hj' hww' hw hw'
    rw [hcalls, Lists.getElem?_set_eq_some hk] at hj hj'
    rcases hj with ⟨rfl, rfl⟩ | ⟨hne, hj⟩ <;> rcases hj' with ⟨rfl, rfl⟩ | ⟨hne', hj'⟩
    · rfl
    · exact hs.sole j j' v w' hcall hj' (hindex.symm.trans hww') hphase hw'
    · exact hs.sole j j' w v hj hcall (hww'.trans hindex) hw hphase
    · exact hs.sole j j' w w' hj hj' hww' hw hw'
  · intro a ha j horigin k' op hreceives hne
    rw [happlied] at ha
    rw [hcalls] at hreceives ⊢
    exact timedOut_set hcall hphase (hpassed a ha j horigin k' op hreceives hne)

theorem Owned.start (hs : s.Owned) {op : Op} {index : ℕ}
    (hok : s.ReturnsFreeIndex (.start op index)) :
    ({ s with calls := s.calls ++ [⟨op, index, .started⟩] } : Channels).Owned where
  origin a ha k horigin := by
    obtain ⟨w, hw, hwi⟩ := hs.origin a ha k horigin
    exact ⟨w, Lists.getElem?_concat_eq_some.mpr (Or.inl hw), hwi⟩
  sole j j' w w' hj hj' hww' hw hw' := by
    have hfinished : ∀ (i : ℕ) (v : Waiter), s.calls[i]? = some v → v.index = index →
        v.phase.isFinished = false → False := by
      intro i v hv hvi hphase
      rw [hok v (List.mem_of_getElem? hv) hvi] at hphase
      cases hphase
    rw [Lists.getElem?_concat_eq_some] at hj hj'
    rcases hj with hj | ⟨rfl, rfl⟩ <;> rcases hj' with hj' | ⟨rfl, rfl⟩
    · exact hs.sole j j' w w' hj hj' hww' hw hw'
    · exact (hfinished j w hj hww' hw).elim
    · exact (hfinished j' w' hj' hww'.symm hw').elim
    · rfl
  passed a ha k horigin k' op' hreceives hne := by
    rw [receives_concat] at hreceives
    obtain ⟨w, hw, htimed⟩ := hs.passed a ha k horigin k' op' hreceives hne
    exact ⟨w, Lists.getElem?_concat_eq_some.mpr (Or.inl hw), htimed⟩

/-- One step keeps the ownership when `Start` returns free indices only. -/
theorem Owned.step (hs : s.Owned) (hall : ∀ i, s.Slot i) (hok : s.ReturnsFreeIndex e)
    (ht : Transition h s e t) : t.Owned := by
  cases ht with
  | start op index => exact hs.start hok
  | register hloop hcall =>
    refine hs.set hcall rfl rfl rfl rfl ?_
    intro a ha j hj k' op hreceives hne
    rw [receives_set hcall (by simp) (by simp)] at hreceives
    exact hs.passed a ha j hj k' op hreceives hne
  | timeout hcall =>
    refine hs.set hcall rfl rfl rfl rfl ?_
    intro a ha j hj k' op hreceives hne
    rw [receives_set hcall (by simp) (by simp)] at hreceives
    exact hs.passed a ha j hj k' op hreceives hne
  | @receive k submitted sent index hcall hchan =>
    refine hs.set hcall rfl rfl rfl rfl ?_
    intro a ha j hj k' op hreceives hne
    rw [receives_set_received hcall] at hreceives
    rcases hreceives with ⟨rfl, -, hindex⟩ | hreceives
    · -- The receiver was the only unfinished call on its index, and nobody received before it.
      obtain ⟨w, hw, hwi⟩ := hs.origin a ha j hj
      refine ⟨w, hw, ?_⟩
      have hfinished : w.phase.isFinished = true := by
        by_contra hunfinished
        rw [Bool.not_eq_true] at hunfinished
        exact hne (hs.sole k' j _ w hcall hw (hindex.symm.trans hwi.symm) rfl hunfinished)
      cases hphase : w.phase with
      | started => simp [hphase, WaitPhase.isFinished] at hfinished
      | waiting => simp [hphase, WaitPhase.isFinished] at hfinished
      | timedOut => rfl
      | received op' =>
        have hother : Receives s.calls j index op' := ⟨w.op, by rw [hw, ← hphase, ← hindex, ← hwi]⟩
        have hempty := (hall index).chan_of_receives hother
        rw [hchan] at hempty
        cases hempty
    · exact hs.passed a ha j hj k' op hreceives hne
  | skip origin hmsg => exact ⟨hs.origin, hs.sole, hs.passed⟩
  | @deliver msg origin op hloop hmsg hnext =>
    have hmem : ∀ a, a ∈ (s.deliver h msg op origin).applied ↔
        a ∈ s.applied ∨ a = ⟨msg.commandIndex, (s.server.applyOp h op).2.1, origin⟩ := by
      intro a
      simp [Channels.deliver]
    refine ⟨?_, hs.sole, ?_⟩
    · intro a ha k hk
      rcases (hmem a).mp ha with hold | rfl
      · exact hs.origin a hold k hk
      · have hentry := hnext.2 k hk
        simp only [Option.map_eq_some_iff, Prod.mk.injEq] at hentry
        obtain ⟨w, hw, -, hwi⟩ := hentry
        exact ⟨w, hw, hwi⟩
    · intro a ha k hk k' op' hreceives hne
      rcases (hmem a).mp ha with hold | rfl
      · exact hs.passed a hold k hk k' op' hreceives hne
      · exact absurd hreceives (((hall _).empty_of_fresh hnext.1).2 k' op')
  | send hloop hchan => exact ⟨hs.origin, hs.sole, hs.passed⟩

/-- As long as `Start` only issues free indices: when the entry of a call was applied at its index
and the call has not timed out, no other call received the Op and the call itself can. -/
theorem origin_receives (hreach : (channels h).ReachableWhen ReturnsFreeIndex s) {a : Applied}
    {w : Waiter} (ha : a ∈ s.applied) (horigin : a.origin = some k) (hcall : s.calls[k]? = some w)
    (hphase : w.phase ≠ .timedOut) :
    (∀ k' op, Receives s.calls k' a.index op → k' = k) ∧ CanReceive h s k a.op := by
  have hall := slot_of_reachable hreach.reachable
  have hboth : (∀ i, s.Slot i) ∧ s.Owned := by
    apply Machine.ReachableFrom.invariant (I := fun s ↦ (∀ i, s.Slot i) ∧ s.Owned) hreach
    · exact ⟨slot_of_reachable (h := h) Machine.ReachableFrom.refl, owned_init⟩
    · rintro s e t ⟨hall, hs⟩ hok ht
      have htrans := transition_of_step ht
      exact ⟨fun i ↦ (hall i).step htrans, hs.step hall hok htrans⟩
  obtain ⟨-, hs⟩ := hboth
  have hsole : ∀ k' op, Receives s.calls k' a.index op → k' = k := by
    intro k' op hreceives
    by_contra hne
    obtain ⟨w', hw', htimed⟩ := hs.passed a ha k horigin k' op hreceives hne
    rw [hcall] at hw'
    cases hw'
    exact hphase htimed
  obtain ⟨w', hw', hindex⟩ := hs.origin a ha k horigin
  rw [hcall] at hw'
  cases hw'
  refine ⟨hsole, canReceive hall hcall ha hindex.symm hphase ?_⟩
  rw [hindex]
  exact hsole

/-- The index of a call that timed out is issued again, and the second entry is applied. -/
theorem origin_receives_after_timeout :
    ∃ s, (channels sampleHandlers).ReachableWhen ReturnsFreeIndex s ∧
      s.applied = [⟨7, (Request.leave []).toOp 2 1, some 1⟩] ∧
      s.calls = [⟨(Request.join []).toOp 1 1, 7, .timedOut⟩,
        ⟨(Request.leave []).toOp 2 1, 7, .waiting⟩] ∧
      (∀ k' op, Receives s.calls k' 7 op → k' = 1) ∧
      CanReceive sampleHandlers s 1 ((Request.leave []).toOp 2 1) := by
  have hrun : ∃ s, (channels sampleHandlers).ReachableWhen ReturnsFreeIndex s ∧
      s.applied = [⟨7, (Request.leave []).toOp 2 1, some 1⟩] ∧
      s.calls = [⟨(Request.join []).toOp 1 1, 7, .timedOut⟩,
        ⟨(Request.leave []).toOp 2 1, 7, .waiting⟩] :=
    Machine.exists_reachableWhen
      [.start ((Request.join []).toOp 1 1) 7, .register 0, .timeout 0,
        .start ((Request.leave []).toOp 2 1) 7,
        .deliver ⟨true, some ((Request.leave []).toOp 2 1), 7⟩ (some 1), .send, .register 1]
      (by decide)
  obtain ⟨s, hreach, happlied, hcalls⟩ := hrun
  refine ⟨s, hreach, happlied, hcalls, ?_⟩
  exact origin_receives hreach (a := ⟨7, (Request.leave []).toOp 2 1, some 1⟩) (by simp [happlied])
    rfl (by rw [hcalls]; rfl) (by simp)

/-- Two calls wait on one index.  The entry of the second one is applied, the first one takes the
Op, and the second one, which has not timed out, finds an empty channel that is never filled
again. -/
theorem other_call_receives :
    ∃ s, (channels sampleHandlers).Reachable s ∧
      s.applied = [⟨7, (Request.leave []).toOp 2 1, some 1⟩] ∧
      s.calls = [⟨(Request.join []).toOp 1 1, 7, .received ((Request.leave []).toOp 2 1)⟩,
        ⟨(Request.leave []).toOp 2 1, 7, .waiting⟩] ∧ s.indexChan 7 = some none :=
  Machine.exists_reachable
    [.start ((Request.join []).toOp 1 1) 7, .register 0, .start ((Request.leave []).toOp 2 1) 7,
      .register 1, .deliver ⟨true, some ((Request.leave []).toOp 2 1), 7⟩ (some 1), .send,
      .receive 0] (by decide)

end Channels

end DistKvRaft.ShardCtrler
