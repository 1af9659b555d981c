import DistKvRaft.Labrpc.Calls

/-!
# Calls end

`Call` is guaranteed to return, except if the handler does not return: no goroutine of a call waits
for something that never comes, and every step of a call but another look at a living server brings
it nearer to its end.  One goroutine receives the requests of all calls, so a call may have to wait
until that of another one is counted.  While an end is connected over a reliable network to a server
that stays, its calls are answered, each after exactly one execution.
-/

namespace DistKvRaft.Labrpc

open Go

section Delivery

variable {End Name : Type}

/-! ## Progress of one call -/

def Stage.rank : Stage → ℕ
  | .calling => 14
  | .received => 13
  | .counted => 12
  | .accepted => 11
  | .arrived => 10
  | .waiting => 5
  | .left _ => 4
  | .checked _ => 3
  | .delayed _ => 2
  | .sending _ | .unreachable => 1
  | .returned _ => 0

def Dispatch.rank : Dispatch → ℕ
  | .started => 4
  | .counted _ => 3
  | .entered => 2
  | .replied _ => 1
  | .none | .finished _ => 0

/-- A bound for the steps the goroutines of the call still take, looks at a living server aside. -/
def Call.rank (c : Call End Name) : ℕ := c.stage.rank + c.dispatch.rank

/-- The call has returned and left no goroutine behind. -/
def Call.isOver (c : Call End Name) : Bool :=
  c.stage.rank = 0 ∧ c.dispatch.isRunning = false

/-- The handler runs, and nobody else has anything to do: the client has its answer, or it waits for
a server that is alive. -/
def Call.AwaitsHandler (net : Network End Name) (c : Call End Name) : Prop :=
  c.dispatch = .entered ∧ (c.stage.rank = 0 ∨ c.stage = .waiting ∧
    ∀ link, c.link = some link → net.isServerDead c.request.endname link = false)

/-- The goroutine that receives from `endCh` has the request. -/
def Stage.isReceiving : Stage → Bool
  | .received | .counted => true
  | _ => false

/-- The request cannot be handed over, since that of another call is being received. -/
def Call.AwaitsReceiver (net : Network End Name) (c : Call End Name) : Prop :=
  c.stage = .calling ∧ net.receiving = true

def CallEvent.isHandler : CallEvent → Bool
  | .reply _ => true
  | _ => false

/-- Each step brings the call nearer to its end, or was a look at a living server. -/
theorem Call.Step.rank_lt {net net' : Network End Name} {c c' : Call End Name} {event : CallEvent}
    (hc : c.Valid) (h : c.Step net event net' c') : c'.rank < c.rank ∨
      (net' = net ∧ c' = c ∧ event = .timeout ∧
        ∃ link, c.link = some link ∧ net.isServerDead c.request.endname link = false) := by
  cases h with
  | goOn _ hlink halive => exact Or.inr ⟨rfl, rfl, rfl, _, hlink, halive⟩
  | launch h =>
    left
    simp [Call.rank, h, (hc.idle (by rw [h]; rfl)).1, Stage.rank, Dispatch.rank]
  | dispatch h | enter h | reply h | drain _ h =>
    left
    simp [Call.rank, h, Dispatch.rank]
  | takeReply h hreply =>
    left
    simp [Call.rank, h, hreply, Stage.rank, Dispatch.rank]
  | accept h | countCall h | countArgs h | abort h | read h | unreachable h | drop h | giveUp h
  | pass h | fail h | dropReply h | delayReply h | forward h | deliver h | expireReply h
  | expire h =>
    left
    simp [Call.rank, h, Stage.rank]

/-- The event takes the call on, or ends the process. -/
def Call.CanTake (net : Network End Name) (c : Call End Name) (event : CallEvent) : Prop :=
  c.isFatal net event = true ∨ (c.step net event).isSome = true

/-- The goroutine of the handler can go on before and after the handler. -/
theorem Call.Valid.exists_dispatch {c : Call End Name} (hc : c.Valid) (net : Network End Name)
    (hrunning : c.dispatch.isRunning = true) (hentered : c.dispatch ≠ .entered) :
    ∃ event, event.isHandler = false ∧ event ≠ .timeout ∧ c.CanTake net event := by
  cases hd : c.dispatch with
  | started =>
    obtain ⟨link, hlink⟩ := Option.ne_none_iff_exists'.mp (hc.linked (by simp [hd]))
    refine ⟨.dispatch, rfl, by simp, ?_⟩
    cases hserver : net.objects[link.server]? with
    | none => exact Or.inl (by simp [Call.isFatal, hd, hlink, hserver])
    | some rs => exact Or.inr (by simp [Call.step, hd, hlink, hserver])
  | counted known =>
    refine ⟨.enter, rfl, by simp, ?_⟩
    cases known with
    | false => exact Or.inl (by simp [Call.isFatal, hd])
    | true => exact Or.inr (by simp [Call.step, hd])
  | replied reply =>
    rcases hc.drained hrunning with hstage | hdrainer
    · exact ⟨.takeReply, rfl, by simp, Or.inr (by simp [Call.step, hd, hstage])⟩
    · exact ⟨.drain, rfl, by simp, Or.inr (by simp [Call.step, hd, hdrainer])⟩
  | entered => exact absurd hd hentered
  | none | finished => simp [hd, Dispatch.isRunning] at hrunning

/-- The client and `processReq` can go on unless they wait for the handler or for their turn. -/
theorem Call.Valid.exists_stage {net : Network End Name} {c : Call End Name} (hc : c.Valid)
    (hstopped : net.stopped = true → net.done = true) (hrank : c.stage.rank ≠ 0)
    (hwaiting : c.stage ≠ .waiting) (hreceiver : ¬ c.AwaitsReceiver net) :
    ∃ event, event.isHandler = false ∧ event ≠ .timeout ∧ c.CanTake net event := by
  cases hs : c.stage with
  | calling =>
    cases hup : net.stopped with
    | true => exact ⟨.abort, rfl, by simp, Or.inr (by simp [Call.step, hs, hstopped hup])⟩
    | false =>
      have hfree : net.receiving = false := Bool.eq_false_iff.mpr fun h ↦ hreceiver ⟨hs, h⟩
      exact ⟨.accept, rfl, by simp, Or.inr (by simp [Call.step, hs, hup, hfree])⟩
  | received => exact ⟨.countCall, rfl, by simp, Or.inr (by simp [Call.step, hs])⟩
  | counted => exact ⟨.countArgs, rfl, by simp, Or.inr (by simp [Call.step, hs])⟩
  | accepted =>
    refine ⟨.read, rfl, by simp, Or.inr ?_⟩
    cases hlink : net.readEndnameInfo c.request.endname <;> simp [Call.step, hs, hlink]
  | arrived => exact ⟨.launch, rfl, by simp, Or.inr (by simp [Call.step, hs])⟩
  | left reply =>
    obtain ⟨link, hlink⟩ := Option.ne_none_iff_exists'.mp (hc.linked (by simp [hs, Stage.isInside]))
    refine ⟨.check, rfl, by simp, Or.inr ?_⟩
    simp only [Call.step, hs, hlink]
    split <;> rfl
  | checked reply => exact ⟨.forward, rfl, by simp, Or.inr (by simp [Call.step, hs])⟩
  | delayed reply | unreachable => exact ⟨.expire, rfl, by simp, Or.inr (by simp [Call.step, hs])⟩
  | sending reply => exact ⟨.deliver, rfl, by simp, Or.inr (by simp [Call.step, hs])⟩
  | waiting => exact absurd hs hwaiting
  | returned reply => simp [hs, Stage.rank] at hrank

/-- A call that is neither over nor waiting can take a step of its own. -/
theorem Call.Valid.exists_step {net : Network End Name} {c : Call End Name} (hc : c.Valid)
    (hstopped : net.stopped = true → net.done = true) (hover : c.isOver = false)
    (hhandler : ¬ c.AwaitsHandler net) (hreceiver : ¬ c.AwaitsReceiver net) :
    ∃ event, event.isHandler = false ∧ (c.isFatal net event = true ∨
      ∃ next, c.step net event = some next ∧ next.2.rank < c.rank) := by
  have hstep : ∃ event, event.isHandler = false ∧ c.CanTake net event ∧
      (event = .timeout → ∀ link, c.link = some link →
        net.isServerDead c.request.endname link ≠ false) := by
    by_cases hstage : c.stage.rank ≠ 0 ∧ c.stage ≠ .waiting
    · obtain ⟨event, hevent, hne, htake⟩ :=
        hc.exists_stage hstopped hstage.1 hstage.2 hreceiver
      exact ⟨event, hevent, htake, fun heq ↦ absurd heq hne⟩
    · have hrunning : c.dispatch.isRunning = true := by
        by_cases hrank : c.stage.rank = 0
        · simpa [Call.isOver, hrank] using hover
        · exact (hc.running (by_contra fun hne ↦ hstage ⟨hrank, hne⟩)).1
      by_cases hentered : c.dispatch = .entered
      · -- the client still waits although the server is dead, which the timer will find out
        have hrank : c.stage.rank ≠ 0 := fun hrank ↦ hhandler ⟨hentered, Or.inl hrank⟩
        have hwaiting : c.stage = .waiting := by_contra fun hne ↦ hstage ⟨hrank, hne⟩
        obtain ⟨link, hlink⟩ :=
          Option.ne_none_iff_exists'.mp (hc.linked (Or.inl (by rw [hwaiting]; rfl)))
        refine ⟨.timeout, rfl, Or.inr ?_, fun _ link' hlink' halive ↦ ?_⟩
        · simp only [Call.step, hwaiting, hlink]
          split <;> rfl
        · refine hhandler ⟨hentered, Or.inr ⟨hwaiting, fun link'' hlink'' ↦ ?_⟩⟩
          cases hlink'.symm.trans hlink''
          exact halive
      · obtain ⟨event, hevent, hne, htake⟩ := hc.exists_dispatch net hrunning hentered
        exact ⟨event, hevent, htake, fun heq ↦ absurd heq hne⟩
  obtain ⟨event, hevent, hfatal | hsome, hdead⟩ := hstep
  · exact ⟨event, hevent, Or.inl hfatal⟩
  · obtain ⟨⟨net', c'⟩, hnext⟩ := Option.isSome_iff_exists.mp hsome
    rcases (Call.step_cases hnext).rank_lt hc with hlt | ⟨-, -, htimeout, link, hlink, halive⟩
    · exact ⟨event, hevent, Or.inr ⟨_, hnext, hlt⟩⟩
    · exact absurd halive (hdead htimeout link hlink)

/-- Who is receiving and who is received go together. -/
theorem Call.Step.receiving {net net' : Network End Name} {c c' : Call End Name}
    {event : CallEvent} (h : c.Step net event net' c') (hreceiving : net'.receiving = true) :
    c'.stage.isReceiving = true ∨ net.receiving = true ∧ c.stage.isReceiving = false := by
  cases h with
  | accept | countCall => exact Or.inl rfl
  | countArgs => cases hreceiving
  | dispatch | enter | reply | goOn | drain =>
    by_cases hstage : c.stage.isReceiving = true
    · exact Or.inl hstage
    · exact Or.inr ⟨hreceiving, Bool.eq_false_iff.mpr hstage⟩
  | abort h | read h | unreachable h | drop h | launch h | takeReply h | giveUp h | pass h | fail h
  | dropReply h | delayReply h | forward h | deliver h | expireReply h | expire h =>
    exact Or.inr ⟨hreceiving, by rw [h]; rfl⟩

/-! ## Progress of all calls -/

namespace Traffic

/-- A bound for the steps of all calls. -/
def remaining (s : Traffic End Name) : ℕ := (s.calls.map Call.rank).sum

variable [DecidableEq End] [DecidableEq Name]

/-- The goroutine that receives from `endCh` only returns when the network is done. -/
theorem done_of_stopped {s : Traffic End Name} (h : (labrpc End Name).Reachable s) :
    s.net.stopped = true → s.net.done = true := by
  apply h.invariant (I := fun s ↦ s.net.stopped = true → s.net.done = true)
  · intro hinit
    cases hinit
  · intro s e t hs hstep
    cases transition_of_step hstep with
    | @change change net happly =>
      cases change <;> simp only [Network.apply] at happly <;> (try split_ifs at happly) <;>
        cases happly <;> first | exact hs | exact fun _ ↦ rfl
    | exit | call => exact hs
    | stop hdone => exact fun _ ↦ hdone
    | advance _ _ hc => cases hc <;> exact hs

/-- While the goroutine is busy, there is a call whose request it has. -/
theorem exists_receiving {s : Traffic End Name} (h : (labrpc End Name).Reachable s) :
    s.net.receiving = true →
      ∃ (j : ℕ) (c : Call End Name), s.calls[j]? = some c ∧ c.stage.isReceiving = true := by
  apply h.invariant (I := fun s ↦ s.net.receiving = true →
    ∃ (j : ℕ) (c : Call End Name), s.calls[j]? = some c ∧ c.stage.isReceiving = true)
  · intro hinit
    cases hinit
  · intro s e t hs hstep
    cases transition_of_step hstep with
    | @change change net happly =>
      cases change <;> simp only [Network.apply] at happly <;> (try split_ifs at happly) <;>
        cases happly <;> exact hs
    | exit | stop => exact hs
    | call request =>
      intro hreceiving
      obtain ⟨j, c, hj, hstage⟩ := hs hreceiving
      exact ⟨j, c, Lists.getElem?_concat_eq_some.mpr (Or.inl hj), hstage⟩
    | @advance k _ c c' _ hk _ hc =>
      intro hreceiving
      have hset : (s.calls.set k c')[k]? = some c' :=
        List.getElem?_set_self (List.getElem?_eq_some_iff.mp hk).1
      rcases hc.receiving hreceiving with hstage | ⟨hbefore, hnot⟩
      · exact ⟨k, c', hset, hstage⟩
      · obtain ⟨j, d, hj, hstage⟩ := hs hbefore
        have hne : k ≠ j := by
          rintro rfl
          cases hk.symm.trans hj
          rw [hnot] at hstage
          cases hstage
        exact ⟨j, d, (List.getElem?_set_ne hne).trans hj, hstage⟩

/-- A step of a call brings all calls together nearer to their end, or was a look at a living
server, or the process has ended at an unknown method. -/
theorem remaining_advance {s t : Traffic End Name} (hs : s.Valid) {k : ℕ} {event : CallEvent}
    (h : s.step (.advance k event) = some t) :
    t.remaining < s.remaining ∨ t.exited = true ∨ event = .timeout ∧ t = s ∧
      ∃ c link, s.calls[k]? = some c ∧ c.link = some link ∧
        s.net.isServerDead c.request.endname link = false := by
  cases transition_of_step h with
  | exit => exact Or.inr (Or.inl rfl)
  | @advance _ _ c _ _ hk _ hc =>
    rcases hc.rank_lt (hs _ (List.mem_of_getElem? hk)) with
      hlt | ⟨rfl, rfl, rfl, link, hlink, halive⟩
    · exact Or.inl (Lists.sum_map_set_lt hk hlt)
    · refine Or.inr (Or.inr ⟨rfl, ?_, _, link, hk, hlink, halive⟩)
      obtain ⟨hlt, rfl⟩ := List.getElem?_eq_some_iff.mp hk
      simp [logEntry]

/-- Call `k` can take a step that is none of its handler and brings the calls nearer to their end,
or ends the process. -/
def CanProceed (s : Traffic End Name) (k : ℕ) : Prop :=
  ∃ event t, event.isHandler = false ∧ s.step (.advance k event) = some t ∧
    (t.remaining < s.remaining ∨ t.exited = true)

theorem canProceed {s : Traffic End Name} (h : (labrpc End Name).Reachable s)
    (hrunning : s.exited = false) {k : ℕ} {c : Call End Name} (hk : s.calls[k]? = some c)
    (hover : c.isOver = false) (hhandler : ¬ c.AwaitsHandler s.net)
    (hreceiver : ¬ c.AwaitsReceiver s.net) : s.CanProceed k := by
  have hc := valid_of_reachable h c (List.mem_of_getElem? hk)
  obtain ⟨event, hevent, hnext⟩ := hc.exists_step (done_of_stopped h) hover hhandler hreceiver
  by_cases hfatal : c.isFatal s.net event = true
  · refine ⟨event, s.exit, hevent, ?_, Or.inr rfl⟩
    simp [step, hrunning, isFatal, hk, hfatal]
  · obtain ⟨next, hnext, hlt⟩ := hnext.resolve_left hfatal
    have hstep : s.step (.advance k event) = some { s with
        net := next.1
        calls := s.calls.set k next.2
        log := s.log ++ logEntry k c event } := by
      simp [step, hrunning, isFatal, hk, hfatal, hnext]
    exact ⟨event, _, hevent, hstep, Or.inl (Lists.sum_map_set_lt hk hlt)⟩

/-- The request of a call is received without waiting for anyone. -/
theorem canProceed_of_isReceiving {s : Traffic End Name} (h : (labrpc End Name).Reachable s)
    (hrunning : s.exited = false) {j : ℕ} {d : Call End Name} (hj : s.calls[j]? = some d)
    (hstage : d.stage.isReceiving = true) : s.CanProceed j := by
  have hreceived : d.stage = .received ∨ d.stage = .counted := by
    cases hd : d.stage <;> simp [hd, Stage.isReceiving] at hstage ⊢
  apply canProceed h hrunning hj
  · rcases hreceived with hd | hd <;> simp [Call.isOver, hd, Stage.rank]
  · rintro ⟨-, hrank | ⟨hwaiting, -⟩⟩
    · rcases hreceived with hd | hd <;> simp [hd, Stage.rank] at hrank
    · simp [hwaiting] at hreceived
  · rintro ⟨hcalling, -⟩
    simp [hcalling] at hreceived

/-- **Calls end.** In every reachable state of a running process every step of a call brings the
calls nearer to their end, looks at a living server aside.  A call that cannot take such a step on
its own is over, without a goroutine left behind, or its handler is running and has not returned,
while the client has its answer or waits for a living server, or it waits until the request of
another call is received, which can take such a step. -/
theorem calls_return {s : Traffic End Name} (h : (labrpc End Name).Reachable s)
    (hrunning : s.exited = false) :
    (∀ k event t, s.step (.advance k event) = some t →
      t.remaining < s.remaining ∨ t.exited = true ∨ event = .timeout ∧ t = s ∧
        ∃ c link, s.calls[k]? = some c ∧ c.link = some link ∧
          s.net.isServerDead c.request.endname link = false) ∧
    ∀ k c, s.calls[k]? = some c →
      c.isOver = true ∨ c.AwaitsHandler s.net ∨ s.CanProceed k ∨
        c.AwaitsReceiver s.net ∧ ∃ (j : ℕ) (d : Call End Name), s.calls[j]? = some d ∧
          d.stage.isReceiving = true ∧ s.CanProceed j := by
  refine ⟨fun k event t hstep ↦ remaining_advance (valid_of_reachable h) hstep, ?_⟩
  intro k c hk
  by_cases hover : c.isOver = true
  · exact Or.inl hover
  by_cases hhandler : c.AwaitsHandler s.net
  · exact Or.inr (Or.inl hhandler)
  right
  right
  by_cases hreceiver : c.AwaitsReceiver s.net
  · obtain ⟨j, d, hj, hstage⟩ := exists_receiving h hreceiver.2
    exact Or.inr ⟨hreceiver, j, d, hj, hstage, canProceed_of_isReceiving h hrunning hj hstage⟩
  · exact Or.inl (canProceed h hrunning hk (Bool.eq_false_iff.mpr hover) hhandler hreceiver)

/-- The server of a call is deleted while its handler runs: the call can still end. -/
theorem calls_return_sample :
    ∃ s : Traffic ℕ ℕ, (labrpc ℕ ℕ).Reachable s ∧ s.calls.map Call.dispatch = [.entered] ∧
      s.CanProceed 0 := by
  have hrun : ∃ s : Traffic ℕ ℕ, (labrpc ℕ ℕ).Reachable s ∧ s.exited = false ∧
      s.calls.map Call.dispatch = [.entered] ∧ s.calls.map Call.stage = [.waiting] ∧
      (s.calls.all fun c ↦ c.link.any (s.net.isServerDead c.request.endname)) = true :=
    Machine.exists_reachable (sampleSetup ++ (sampleCall 0).take 8 ++ [.change (.deleteServer 0)])
      (by decide)
  obtain ⟨s, hs, hrunning, hdispatch, hstage, hdead⟩ := hrun
  obtain ⟨c, hcalls⟩ : ∃ c, s.calls = [c] := by
    apply List.length_eq_one_iff.mp
    simpa using congrArg List.length hdispatch
  simp only [hcalls, List.map_cons, List.map_nil, List.cons.injEq, and_true] at hdispatch hstage
  have hk : s.calls[0]? = some c := by rw [hcalls]; rfl
  rcases (calls_return hs hrunning).2 0 c hk with hover | hhandler | hproceed | hreceiver
  · simp [Call.isOver, hstage, Stage.rank] at hover
  · obtain ⟨-, hrank | ⟨-, halive⟩⟩ := hhandler
    · simp [hstage, Stage.rank] at hrank
    · simp only [hcalls, List.all_cons, List.all_nil, Bool.and_true, Option.any_eq_true] at hdead
      obtain ⟨link, hlink, hdead⟩ := hdead
      rw [halive link hlink] at hdead
      cases hdead
  · exact ⟨s, hs, by simp [hcalls, hdispatch], hproceed⟩
  · have hcalling := hreceiver.1.1
    rw [hstage] at hcalling
    cases hcalling

end Traffic

/-! ## Healthy connections -/

/-- The end leads to a registered server over a network that loses nothing and is not cleaned up. -/
structure Network.Healthy (net : Network End Name) (endname : End) (name : Name) (server : ℕ) :
    Prop where
  reliable : net.reliable = true
  running : net.done = false
  enabled : net.enabled endname = true
  connected : net.connections endname = some name
  registered : net.servers name = some server

instance [DecidableEq Name] (net : Network End Name) (endname : End) (name : Name) (server : ℕ) :
    Decidable (net.Healthy endname name server) :=
  decidable_of_iff (net.reliable = true ∧ net.done = false ∧ net.enabled endname = true ∧
      net.connections endname = some name ∧ net.servers name = some server)
    ⟨fun ⟨hreliable, hrunning, henabled, hconnected, hregistered⟩ ↦
      ⟨hreliable, hrunning, henabled, hconnected, hregistered⟩,
      fun h ↦ ⟨h.reliable, h.running, h.enabled, h.connected, h.registered⟩⟩

/-- A call on a healthy connection has lost nothing so far. -/
structure Call.Intact (name : Name) (server : ℕ) (c : Call End Name) : Prop where
  link : ∀ link, c.link = some link →
    link.reliable = true ∧ link.name = name ∧ link.server = server
  reachable : c.stage ≠ .unreachable
  answered : c.stage ≠ .left none ∧ c.stage ≠ .returned none

theorem Network.Healthy.isServerDead {net : Network End Name} {endname : End} {name : Name}
    {server : ℕ} (h : net.Healthy endname name server) {link : Link Name} (hname : link.name = name)
    (hserver : link.server = server) : net.isServerDead endname link = false := by
  simp [Network.isServerDead, h.enabled, hname, hserver, h.registered]

theorem Network.Healthy.readEndnameInfo {net : Network End Name} {endname : End} {name : Name}
    {server : ℕ} (h : net.Healthy endname name server) :
    net.readEndnameInfo endname = some ⟨server, name, true, net.longReordering⟩ := by
  simp [Network.readEndnameInfo, h.enabled, h.connected, h.registered, h.reliable]

theorem Call.Intact.step {net net' : Network End Name} {c c' : Call End Name} {event : CallEvent}
    {name : Name} {server : ℕ} (hc : c.Intact name server)
    (hnet : net.Healthy c.request.endname name server) (h : c.Step net event net' c') :
    c'.Intact name server := by
  have hdead : ∀ link, c.link = some link →
      net.isServerDead c.request.endname link = false := by
    intro link hlink
    obtain ⟨-, hname, hserver⟩ := hc.link link hlink
    exact hnet.isServerDead hname hserver
  cases h with
  | accept | countCall | countArgs | launch | takeReply | pass | delayReply | forward | deliver
  | expireReply =>
    exact ⟨hc.link, by simp, by simp⟩
  | dispatch | enter | reply | goOn | drain => exact ⟨hc.link, hc.reachable, hc.answered⟩
  | read _ hlink =>
    rw [hnet.readEndnameInfo] at hlink
    refine ⟨fun link heq ↦ ?_, by simp, by simp⟩
    cases hlink
    cases heq
    exact ⟨rfl, rfl, rfl⟩
  | abort _ hdone =>
    rw [hnet.running] at hdone
    cases hdone
  | unreachable _ hlink =>
    rw [hnet.readEndnameInfo] at hlink
    cases hlink
  | drop _ hlink hreliable | dropReply _ hlink hreliable =>
    rw [(hc.link _ hlink).1] at hreliable
    cases hreliable
  | giveUp _ hlink h =>
    rw [hdead _ hlink] at h
    cases h
  | fail h hlink hnone =>
    rcases hnone with rfl | h
    · exact absurd h hc.answered.1
    · rw [hdead _ hlink] at h
      cases h
  | expire h => exact absurd h hc.reachable

section Healthy

variable [DecidableEq End] [DecidableEq Name] {endname : End} {name : Name} {server : ℕ}

namespace Traffic

/-- The calls that an end has made since the first `n` calls are intact. -/
def IntactSince (endname : End) (name : Name) (server n : ℕ) (s : Traffic End Name) :
    Prop :=
  n ≤ s.calls.length ∧ ∀ k c, n ≤ k → s.calls[k]? = some c → c.request.endname = endname →
    c.Intact name server

theorem IntactSince.step {s t : Traffic End Name} {n : ℕ} {event : Event End Name}
    (hs : s.IntactSince endname name server n) (hnet : s.net.Healthy endname name server)
    (h : s.step event = some t) : t.IntactSince endname name server n := by
  obtain ⟨hn, hs⟩ := hs
  cases transition_of_step h with
  | change | exit | stop => exact ⟨hn, hs⟩
  | call request =>
    refine ⟨by simp only [List.length_append]; omega, fun k c hk hc hend ↦ ?_⟩
    rcases Lists.getElem?_concat_eq_some.mp hc with hc | ⟨-, rfl⟩
    · exact hs k c hk hc hend
    · refine ⟨fun link hlink ↦ ?_, by simp [newCall], by simp [newCall]⟩
      cases hlink
  | @advance j _ c₀ _ _ hj _ hstep =>
    refine ⟨by simpa using hn, fun k c hk hc hend ↦ ?_⟩
    have hlt := (List.getElem?_eq_some_iff.mp hj).1
    rcases (Lists.getElem?_set_eq_some hlt).mp hc with ⟨rfl, rfl⟩ | ⟨-, hc⟩
    · rw [hstep.request_eq] at hend
      exact (hs k c₀ hk hj hend).step (hend ▸ hnet) hstep
    · exact hs k c hk hc hend

/-- **Exactly once on healthy connections.** While an end leads to a registered server over a
reliable network that is not cleaned up, every call it makes that has returned was executed exactly
once, by that server, and has returned the reply of the execution. -/
theorem exactly_once_of_healthy {s t : Traffic End Name} (hs : (labrpc End Name).Reachable s)
    (h : (labrpc End Name).ReachableFrom (fun u _ ↦ u.net.Healthy endname name server) s t)
    {k : ℕ} {c : Call End Name} {result : Option GoString} (hk : s.calls.length ≤ k)
    (hc : t.calls[k]? = some c) (hend : c.request.endname = endname)
    (hreturned : c.stage = .returned result) :
    ∃ reply, result = some reply ∧ c.dispatch = .finished reply ∧
      (t.log.filter fun entry ↦ entry.1 = k) = [(k, server)] := by
  have hintact : t.IntactSince endname name server s.calls.length := by
    apply Machine.ReachableFrom.invariant h
    · refine ⟨Nat.le_refl _, fun k c hk hc ↦ ?_⟩
      have hlt := (List.getElem?_eq_some_iff.mp hc).1
      omega
    · intro s e t hs hnet hstep
      exact hs.step hnet hstep
  have hcall := hintact.2 k c hk hc hend
  have ht : (labrpc End Name).Reachable t :=
    Machine.ReachableFrom.trans hs (h.mono fun _ _ _ ↦ trivial)
  obtain ⟨reply, rfl⟩ : ∃ reply, result = some reply := by
    apply Option.ne_none_iff_exists'.mp
    rintro rfl
    exact hcall.answered.2 hreturned
  have hvalid := valid_of_reachable ht c (List.mem_of_getElem? hc)
  have hfinished := hvalid.received reply (by rw [hreturned]; rfl)
  obtain ⟨link, hlink, hlog⟩ := mem_log_of_isInvoked ht hc (by rw [hfinished]; rfl)
  refine ⟨reply, rfl, hfinished, ?_⟩
  have hsingle := Lists.filter_key_eq_singleton (once_of_reachable ht).nodup hlog
  rwa [(hcall.link link hlink).2.2] at hsingle

/-- Two calls are made on a healthy connection, and the second one returns first. -/
theorem exactly_once_of_healthy_sample :
    ∃ t : Traffic ℕ ℕ, (labrpc ℕ ℕ).Reachable t ∧ ∃ c, t.calls[1]? = some c ∧
      c.stage = .returned (some [3]) ∧ (t.log.filter fun entry ↦ entry.1 = 1) = [(1, 0)] := by
  let more : List (Event ℕ ℕ) := (sampleCall 0).take 6 ++ sampleCall 1
  have hrun : ∃ s : Traffic ℕ ℕ, (labrpc ℕ ℕ).Reachable s ∧ s.calls.length = 0 ∧
      ((labrpc ℕ ℕ).runWhen (fun u _ ↦ u.net.Healthy 0 0 0) s more).any
        (fun t ↦ (t.calls.map fun c ↦ (c.request.endname, c.stage)) =
          [(0, .waiting), (0, .returned (some [3]))]) = true :=
    Machine.exists_reachable sampleSetup (by decide)
  obtain ⟨s, hs, hnone, hmore⟩ := hrun
  obtain ⟨t, ht, hcalls⟩ := (Option.any_eq_true _ _).mp hmore
  have hreach := Machine.ReachableFrom.of_runWhen ht
  have hsecond : (t.calls.map fun c ↦ (c.request.endname, c.stage))[1]? =
      some (0, .returned (some [3])) := by
    rw [of_decide_eq_true hcalls]
    rfl
  rw [List.getElem?_map] at hsecond
  obtain ⟨c, hc, hpair⟩ := Option.map_eq_some_iff.mp hsecond
  obtain ⟨hend, hstage⟩ := Prod.mk.injEq .. ▸ hpair
  obtain ⟨-, -, -, hlog⟩ := exactly_once_of_healthy hs hreach (by omega) hc hend hstage
  exact ⟨t, Machine.ReachableFrom.trans hs (hreach.mono fun _ _ _ ↦ trivial), c, hc, hstage, hlog⟩

end Traffic

end Healthy

end Delivery

end DistKvRaft.Labrpc
