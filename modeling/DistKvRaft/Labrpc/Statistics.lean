import DistKvRaft.Labrpc.Calls
import Mathlib.Algebra.Order.BigOperators.Group.List

/-!
# The network's statistics

The tests put bounds on the number of calls and on the bytes that are sent.  The network counts both
without its lock, each after or before the channel operation it belongs to, and every server counts
the requests that come in, under its lock and before the handler is called.  Here the counters are
compared with the calls themselves.  They are exact whenever no call is between a step and the
counter that goes with it.
-/

namespace DistKvRaft.Labrpc

open Go

/-- The server has counted the request. -/
def Dispatch.isCounted : Dispatch → Bool
  | .counted _ | .entered | .replied _ | .finished _ => true
  | _ => false

/-- The counters of the network are up to date with where the call stands. -/
def Stage.isSettled : Stage → Bool
  | .received | .counted | .sending _ => false
  | _ => true

/-- The handler was entered if the server has counted the request. -/
def Dispatch.isSettled : Dispatch → Bool
  | .counted _ => false
  | _ => true

namespace Call

variable {End Name : Type}

/-- The call as a number of requests that the network has received. -/
def sent (c : Call End Name) : ℕ := if c.stage = .calling then 0 else 1

/-- The bytes of the request, once it was received, and of the reply, once the client has it. -/
def transferred (c : Call End Name) : ℕ :=
  (if c.stage = .calling then 0 else c.request.args.length) +
    match c.stage with
    | .returned (some reply) => reply.length
    | _ => 0

/-- The call as a number of requests that were added to `count`. -/
def counted (c : Call End Name) : ℕ :=
  match c.stage with
  | .calling | .received => 0
  | _ => 1

/-- The bytes of the call that were added to `bytes`. -/
def countedBytes (c : Call End Name) : ℕ :=
  match c.stage with
  | .calling | .received | .counted => 0
  | .sending reply | .returned (some reply) => c.request.args.length + reply.length
  | _ => c.request.args.length

/-- The call as a number of requests that have come in at one of some servers. -/
def countedAt (p : ℕ → Bool) (c : Call End Name) : ℕ :=
  if c.dispatch.isCounted ∧ c.link.any (p ·.server) then 1 else 0

/-- The call as a number of handlers that were entered at one of some servers. -/
def enteredAt (p : ℕ → Bool) (c : Call End Name) : ℕ :=
  if c.dispatch.isInvoked ∧ c.link.any (p ·.server) then 1 else 0

/-- The call is not between a step and the counter that goes with it. -/
def isSettled (c : Call End Name) : Bool := c.stage.isSettled ∧ c.dispatch.isSettled

variable {net net' : Network End Name} {c c' : Call End Name} {event : CallEvent}

theorem Step.count_add (h : c.Step net event net' c') (hdone : net.done = false) :
    net'.count + .ofNat 32 c.counted = net.count + .ofNat 32 c'.counted := by
  cases h with
  | countCall h => simp [counted, h]
  | abort _ h =>
    rw [hdone] at h
    cases h
  | dispatch | enter | reply | goOn | drain => rfl
  | accept h | countArgs h | read h | unreachable h | drop h | launch h | takeReply h | giveUp h
  | pass h | fail h | dropReply h | delayReply h | forward h | deliver h | expireReply h
  | expire h =>
    simp [counted, h, Network.countBytes]

theorem Step.bytes_add (h : c.Step net event net' c') (hdone : net.done = false) :
    net'.bytes + .ofNat 64 c.countedBytes = net.bytes + .ofNat 64 c'.countedBytes := by
  cases h with
  | abort _ h =>
    rw [hdone] at h
    cases h
  | dispatch | enter | reply | goOn | drain => rfl
  | countArgs h => simp [countedBytes, h, Network.countBytes]
  | forward h | expireReply h =>
    simp [countedBytes, h, Network.countBytes, BitVec.ofNat_add, BitVec.add_assoc, BitVec.add_comm]
  | accept h | countCall h | read h | unreachable h | drop h | launch h | takeReply h | giveUp h
  | pass h | dropReply h | delayReply h | deliver h | expire h =>
    simp [countedBytes, h]
  | fail h => simp [countedBytes, h]

/-- A handler that is entered is logged. -/
theorem Step.log_add (h : c.Step net event net' c') (hc : c.Valid) (k : ℕ) (p : ℕ → Bool) :
    (Traffic.logEntry k c event).countP (p ·.2) + c.enteredAt p = c'.enteredAt p := by
  cases h with
  | enter h =>
    obtain ⟨link, hlink⟩ := Option.ne_none_iff_exists'.mp (hc.linked (by simp [h]))
    simp [Traffic.logEntry, enteredAt, h, hlink, Dispatch.isInvoked, List.countP_cons]
  | dispatch h | reply h | takeReply _ h | drain _ h =>
    simp [Traffic.logEntry, enteredAt, h, Dispatch.isInvoked]
  | read h | launch h =>
    have hidle := (hc.idle (by rw [h]; rfl)).1
    simp [Traffic.logEntry, enteredAt, hidle, Dispatch.isInvoked]
  | _ => simp [Traffic.logEntry, enteredAt]

/-- The server that a request comes in at counts it. -/
theorem Step.objects_add (h : c.Step net event net' c') (hc : c.Valid) {j : ℕ} {rs' : Server}
    (hj : net'.objects[j]? = some rs') : ∃ rs, net.objects[j]? = some rs ∧
      rs'.count + .ofNat 64 (c.countedAt (· = j)) =
        rs.count + .ofNat 64 (c'.countedAt (· = j)) := by
  cases h with
  | @dispatch link _ h hlink =>
    simp only [Network.countDispatch, List.getElem?_modify] at hj
    obtain ⟨rs, hrs, rfl⟩ := Option.map_eq_some_iff.mp hj
    refine ⟨rs, hrs, ?_⟩
    by_cases hserver : link.server = j
    · simp [countedAt, h, hlink, hserver, Dispatch.isCounted]
    · simp [countedAt, h, hlink, hserver, Dispatch.isCounted]
  | enter h | reply h | takeReply _ h | drain _ h =>
    exact ⟨rs', hj, by simp [countedAt, h, Dispatch.isCounted]⟩
  | read h | launch h =>
    have hidle := (hc.idle (by rw [h]; rfl)).1
    exact ⟨rs', hj, by simp [countedAt, hidle, Dispatch.isCounted]⟩
  | _ => exact ⟨rs', hj, rfl⟩

theorem Step.done_eq (h : c.Step net event net' c') : net'.done = net.done := by
  cases h <;> rfl

theorem Step.length_objects (h : c.Step net event net' c') :
    net'.objects.length = net.objects.length := by
  cases h with
  | dispatch => exact List.length_modify ..
  | _ => rfl

/-- The server that counts a request exists. -/
theorem Step.made (h : c.Step net event net' c') (hc : c.Valid)
    (hmade : c.dispatch.isCounted = true → ∀ link, c.link = some link →
      link.server < net.objects.length) (hcounted : c'.dispatch.isCounted = true)
    {link : Link Name} (hlink : c'.link = some link) : link.server < net.objects.length := by
  cases h with
  | @dispatch link' rs h hlink' hserver =>
    cases hlink'.symm.trans hlink
    exact (List.getElem?_eq_some_iff.mp hserver).1
  | enter h | reply h | takeReply _ h | drain _ h => exact hmade (by rw [h]; rfl) link hlink
  | read h | launch h =>
    have hidle := (hc.idle (by rw [h]; rfl)).1
    simp [hidle, Dispatch.isCounted] at hcounted
  | _ => exact hmade hcounted link hlink

/-! ## Calls that are not between two steps -/

theorem counted_eq_sent (h : c.isSettled = true) : c.counted = c.sent := by
  have hstage : c.stage.isSettled = true := (of_decide_eq_true h).1
  unfold counted sent
  cases hs : c.stage with
  | received => simp [hs, Stage.isSettled] at hstage
  | _ => rfl

theorem countedBytes_eq_transferred (h : c.isSettled = true) : c.countedBytes = c.transferred := by
  have hstage : c.stage.isSettled = true := (of_decide_eq_true h).1
  unfold countedBytes transferred
  cases hs : c.stage with
  | received | counted | sending => simp [hs, Stage.isSettled] at hstage
  | returned reply => cases reply <;> rfl
  | _ => rfl

theorem countedAt_eq_enteredAt (h : c.isSettled = true) (p : ℕ → Bool) :
    c.countedAt p = c.enteredAt p := by
  have hdispatch : c.dispatch.isSettled = true := (of_decide_eq_true h).2
  unfold countedAt enteredAt
  cases hd : c.dispatch with
  | counted => simp [hd, Dispatch.isSettled] at hdispatch
  | _ => rfl

/-- A handler was entered before only if the request was received. -/
theorem Valid.enteredAt_le_sent (hc : c.Valid) (p : ℕ → Bool) : c.enteredAt p ≤ c.sent := by
  unfold enteredAt sent
  split_ifs with hentered hstage
  · rw [(hc.idle (by rw [hstage]; rfl)).1] at hentered
    cases hentered.1
  all_goals omega

end Call

/-- A counter of some width that goes with a sum over all calls. -/
theorem eq_ofNat_sum_set {α : Type*} {l : List α} {k w : ℕ} {a b : α} {f : α → ℕ} {x y : BitVec w}
    (hk : l[k]? = some a) (hx : x = .ofNat w (l.map f).sum)
    (h : y + .ofNat w (f a) = x + .ofNat w (f b)) : y = .ofNat w ((l.set k b).map f).sum := by
  apply (BitVec.add_left_inj (.ofNat w (f a))).mp
  rw [h, hx, ← BitVec.ofNat_add, ← BitVec.ofNat_add, Lists.sum_map_set_add hk]

namespace Traffic

variable {End Name : Type} {s t : Traffic End Name}

/-- The requests that came in at a server object, all of which exist. -/
structure ServersCounted (objects : List Server) (calls : List (Call End Name)) : Prop where
  made : ∀ c ∈ calls, c.dispatch.isCounted = true → ∀ link, c.link = some link →
    link.server < objects.length
  count : ∀ (j : ℕ) (rs : Server), objects[j]? = some rs →
    rs.count = .ofNat 64 (calls.map (Call.countedAt (· = j))).sum

/-- The counters stand as the calls do. -/
structure Counted (s : Traffic End Name) : Prop where
  count : s.net.done = false → s.net.count = .ofNat 32 (s.calls.map Call.counted).sum
  bytes : s.net.done = false → s.net.bytes = .ofNat 64 (s.calls.map Call.countedBytes).sum
  log : ∀ p : ℕ → Bool, s.log.countP (p ·.2) = (s.calls.map (Call.enteredAt p)).sum
  servers : ServersCounted s.net.objects s.calls

/-- Another server object has counted nothing. -/
theorem ServersCounted.concat {objects : List Server} {calls : List (Call End Name)}
    (h : ServersCounted objects calls) : ServersCounted (objects ++ [makeServer]) calls := by
  refine ⟨fun c hc hcounted link hlink ↦ ?_, fun j rs hj ↦ ?_⟩
  · have hlt := h.made c hc hcounted link hlink
    rw [List.length_append]
    omega
  · rcases Lists.getElem?_concat_eq_some.mp hj with hj | ⟨rfl, rfl⟩
    · exact h.count j rs hj
    · have hnone : ∀ c ∈ calls, c.countedAt (· = objects.length) = 0 := by
        intro c hc
        unfold Call.countedAt
        rw [if_neg]
        rintro ⟨hcounted, hserver⟩
        obtain ⟨link, hlink, hserver⟩ := (Option.any_eq_true _ _).mp hserver
        have hlt := h.made c hc hcounted link hlink
        rw [of_decide_eq_true hserver] at hlt
        exact lt_irrefl _ hlt
      rw [List.sum_eq_zero (by simpa using hnone)]
      rfl

/-- A change of server objects that leaves their counters alone. -/
theorem ServersCounted.modify {objects : List Server} {calls : List (Call End Name)}
    (h : ServersCounted objects calls) (server : ℕ) {f : Server → Server}
    (hf : ∀ rs, (f rs).count = rs.count) : ServersCounted (objects.modify server f) calls := by
  refine ⟨fun c hc hcounted link hlink ↦ by simpa using h.made c hc hcounted link hlink,
    fun j rs hj ↦ ?_⟩
  rw [List.getElem?_modify] at hj
  obtain ⟨old, hold, rfl⟩ := Option.map_eq_some_iff.mp hj
  rw [← h.count j old hold]
  split_ifs
  · exact hf old
  · rfl

/-- A call goes on. -/
theorem ServersCounted.advance {net net' : Network End Name} {calls : List (Call End Name)}
    (h : ServersCounted net.objects calls) {k : ℕ} {c c' : Call End Name} {event : CallEvent}
    (hk : calls[k]? = some c) (hc : c.Valid) (hstep : c.Step net event net' c') :
    ServersCounted net'.objects (calls.set k c') := by
  refine ⟨fun d hd hcounted link hlink ↦ ?_, fun j rs hj ↦ ?_⟩
  · rw [hstep.length_objects]
    rcases List.mem_or_eq_of_mem_set hd with hd | rfl
    · exact h.made d hd hcounted link hlink
    · exact hstep.made hc (h.made c (List.mem_of_getElem? hk)) hcounted hlink
  · obtain ⟨old, hold, hadd⟩ := hstep.objects_add hc hj
    exact eq_ofNat_sum_set hk (h.count j old hold) hadd

theorem Counted.call (hs : s.Counted) (request : Request End) :
    Counted { s with calls := s.calls ++ [newCall request] } := by
  refine ⟨fun hdone ↦ ?_, fun hdone ↦ ?_, fun p ↦ ?_, fun c hc hcounted ↦ ?_, fun j rs hj ↦ ?_⟩
  · simpa [newCall, Call.counted] using hs.count hdone
  · simpa [newCall, Call.countedBytes] using hs.bytes hdone
  · simpa [newCall, Call.enteredAt, Dispatch.isInvoked] using hs.log p
  · rcases List.mem_append.mp hc with hc | hc
    · exact hs.servers.made c hc hcounted
    · rw [List.mem_singleton.mp hc] at hcounted
      cases hcounted
  · simpa [newCall, Call.countedAt, Dispatch.isCounted] using hs.servers.count j rs hj

variable [DecidableEq End] [DecidableEq Name]

theorem Counted.change {change : Change End Name} {net : Network End Name} (hs : s.Counted)
    (h : s.net.apply change = some net) : Counted { s with net } := by
  cases change with
  | makeServer =>
    cases h
    exact ⟨hs.count, hs.bytes, hs.log, hs.servers.concat⟩
  | addService server svc =>
    cases h
    exact ⟨hs.count, hs.bytes, hs.log, hs.servers.modify server fun _ ↦ rfl⟩
  | addServer | deleteServer | connect | enable | setReliable | setLongReordering =>
    cases h
    exact ⟨hs.count, hs.bytes, hs.log, hs.servers⟩
  | makeEnd =>
    rw [Network.apply, Option.ite_none_left_eq_some] at h
    cases h.2
    exact ⟨hs.count, hs.bytes, hs.log, hs.servers⟩
  | cleanup =>
    rw [Network.apply, Option.ite_none_left_eq_some] at h
    cases h.2
    refine ⟨fun hopen ↦ ?_, fun hopen ↦ ?_, hs.log, hs.servers⟩
    · cases hopen
    · cases hopen
  | deleteEnd =>
    rw [Network.apply, Option.ite_none_right_eq_some] at h
    cases h.2
    exact ⟨hs.count, hs.bytes, hs.log, hs.servers⟩

theorem Counted.step {event : Event End Name} (hs : s.Counted) (hvalid : s.Valid)
    (h : s.step event = some t) : t.Counted := by
  cases transition_of_step h with
  | change happly => exact hs.change happly
  | exit | stop => exact ⟨hs.count, hs.bytes, hs.log, hs.servers⟩
  | call request => exact hs.call request
  | @advance k event c c' net hk _ hstep =>
    have hc := hvalid c (List.mem_of_getElem? hk)
    refine ⟨fun hdone ↦ ?_, fun hdone ↦ ?_, fun p ↦ ?_, hs.servers.advance hk hc hstep⟩
    · have hopen : s.net.done = false := hstep.done_eq.symm.trans hdone
      exact eq_ofNat_sum_set hk (hs.count hopen) (hstep.count_add hopen)
    · have hopen : s.net.done = false := hstep.done_eq.symm.trans hdone
      exact eq_ofNat_sum_set hk (hs.bytes hopen) (hstep.bytes_add hopen)
    · have hlog := hstep.log_add hc k p
      have hsum := Lists.sum_map_set_add (f := Call.enteredAt p) hk c'
      rw [List.countP_append, hs.log p]
      dsimp only
      omega

theorem counted_of_reachable (hs : (labrpc End Name).Reachable s) : s.Counted := by
  have hboth : s.Valid ∧ s.Counted := by
    refine hs.invariant (I := fun s ↦ s.Valid ∧ s.Counted) ⟨?_, ?_⟩ fun s e t hst hstep ↦
      ⟨hst.1.step hstep, hst.2.step hst.1 hstep⟩
    · intro c hc
      cases hc
    · refine ⟨fun _ ↦ rfl, fun _ ↦ rfl, fun _ ↦ rfl, ?_, ?_⟩
      · simp [labrpc, initial]
      · simp [labrpc, initial, makeNetwork]
  exact hboth.2

/-- **The statistics are exact.** Before the network is cleaned up, whenever no call is between a
step and the counter that goes with it, the total count is the number of calls whose request was
received, and the total of bytes that of these requests and of the replies that were forwarded, as
integers of their width.  A server's count is the number of times its handlers were entered.  At any
moment the handlers were entered at most as often as requests were received. -/
theorem statistics_exact (hs : (labrpc End Name).Reachable s) (hdone : s.net.done = false) :
    ((∀ c ∈ s.calls, c.isSettled = true) →
      s.net.getTotalCount = ((s.calls.map Call.sent).sum : ℤ).bmod (2 ^ 32) ∧
      s.net.getTotalBytes = ((s.calls.map Call.transferred).sum : ℤ).bmod (2 ^ 64) ∧
      ∀ (name : Name) (server : ℕ), s.net.servers name = some server →
        server < s.net.objects.length → s.net.getCount name =
          some (((s.log.countP fun e ↦ e.2 = server : ℕ) : ℤ).bmod (2 ^ 64))) ∧
      s.log.length ≤ (s.calls.map Call.sent).sum := by
  have hcounted := counted_of_reachable hs
  refine ⟨fun hsettled ↦ ⟨?_, ?_, fun name server hname hlt ↦ ?_⟩, ?_⟩
  · rw [Network.getTotalCount, hcounted.count hdone,
      List.map_congr_left fun c hc ↦ Call.counted_eq_sent (hsettled c hc)]
    exact BitVec.toInt_ofNat _
  · rw [Network.getTotalBytes, hcounted.bytes hdone,
      List.map_congr_left fun c hc ↦ Call.countedBytes_eq_transferred (hsettled c hc)]
    exact BitVec.toInt_ofNat _
  · have hget := List.getElem?_eq_getElem hlt
    rw [Network.getCount, hname, Option.bind_some, hget, Option.map_some,
      hcounted.servers.count server _ hget, hcounted.log (· = server),
      List.map_congr_left fun c hc ↦ Call.countedAt_eq_enteredAt (hsettled c hc) _]
    exact congrArg some (BitVec.toInt_ofNat _)
  · have htotal := hcounted.log fun _ ↦ true
    rw [List.countP_true] at htotal
    rw [htotal]
    apply List.sum_le_sum
    intro c hc
    exact (valid_of_reachable hs c hc).enteredAt_le_sent _

/-- One call was answered and another one is on its way. -/
theorem statistics_exact_sample :
    ∃ s : Traffic ℕ ℕ, (labrpc ℕ ℕ).Reachable s ∧ s.net.done = false ∧
      s.net.getTotalCount = 2 ∧ s.net.getTotalBytes = 5 ∧ s.net.getCount 0 = some 1 := by
  have hrun : ∃ s : Traffic ℕ ℕ, (labrpc ℕ ℕ).Reachable s ∧ s.net.done = false ∧
      (∀ c ∈ s.calls, c.isSettled = true) ∧
      s.calls.map Call.sent = [1, 1] ∧ s.calls.map Call.transferred = [3, 2] ∧
      s.log = [(0, 0)] ∧ s.net.servers 0 = some 0 ∧ s.net.objects.length = 1 :=
    Machine.exists_reachable
      (sampleSetup ++ sampleCall 0 ++ (sampleCall 1).take 4) (by decide)
  obtain ⟨s, hs, hdone, hsettled, hsent, htransferred, hlog, hname, hobjects⟩ := hrun
  obtain ⟨hcount, hbytes, hservers⟩ := (statistics_exact hs hdone).1 hsettled
  refine ⟨s, hs, hdone, ?_, ?_, ?_⟩
  · rw [hcount, hsent]
    rfl
  · rw [hbytes, htransferred]
    rfl
  · rw [hservers 0 0 hname (by omega), hlog]
    rfl

end Traffic

end DistKvRaft.Labrpc
