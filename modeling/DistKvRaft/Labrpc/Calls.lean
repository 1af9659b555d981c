import DistKvRaft.Foundation.Refinement
import DistKvRaft.Labrpc.Network

/-!
# Calls are executed at most once

What a client may rely on, as a machine of its own: a call is executed at most once, by one server;
it ends at most once, either with the reply of its execution or without one; and when it ends
without a reply nothing is known about its execution, which may lie ahead.  The network with all its
goroutines, timers and losses refines this machine.
-/

namespace DistKvRaft.Labrpc

open Go

/-! ## Remote calls as their users see them -/

/-- A remote call: the server that executes it, the reply of the execution, and how it ended. -/
structure RemoteCall where
  invoked : Option ℕ
  reply : Option GoString
  result : Option (Option GoString)

/-- All calls, and who executed them in which order. -/
structure Rpc where
  calls : List RemoteCall
  log : List (ℕ × ℕ)

inductive RpcEvent
  | issue
  | invoke (k server : ℕ)
  | finish (k : ℕ) (reply : GoString)
  | succeed (k : ℕ)
  | fail (k : ℕ)

namespace RemoteCall

def issued : RemoteCall := ⟨none, none, none⟩

/-- The execution begins, once. -/
def invoke (c : RemoteCall) (server : ℕ) : Option RemoteCall :=
  if c.invoked = none then some { c with invoked := some server } else none

def finish (c : RemoteCall) (reply : GoString) : Option RemoteCall :=
  if c.invoked ≠ none ∧ c.reply = none then some { c with reply := some reply } else none

/-- The call ends with the reply of its execution. -/
def succeed (c : RemoteCall) : Option RemoteCall :=
  if c.result = none ∧ c.reply ≠ none then some { c with result := some c.reply } else none

def fail (c : RemoteCall) : Option RemoteCall :=
  if c.result = none then some { c with result := some none } else none

end RemoteCall

namespace Rpc

/-- Change call `k`. -/
def update (s : Rpc) (k : ℕ) (f : RemoteCall → Option RemoteCall) : Option Rpc :=
  ((s.calls[k]?).bind f).map fun c ↦ { s with calls := s.calls.set k c }

def step (s : Rpc) : RpcEvent → Option Rpc
  | .issue => some { s with calls := s.calls ++ [.issued] }
  | .invoke k server =>
    (s.update k (·.invoke server)).map fun t ↦ { t with log := t.log ++ [(k, server)] }
  | .finish k reply => s.update k (·.finish reply)
  | .succeed k => s.update k RemoteCall.succeed
  | .fail k => s.update k RemoteCall.fail

end Rpc

/-- Remote calls with at-most-once semantics. -/
def rpc : Machine Rpc RpcEvent := ⟨⟨[], []⟩, Rpc.step⟩

namespace Rpc

theorem update_eq_some {s t : Rpc} {k : ℕ} {f : RemoteCall → Option RemoteCall}
    (h : s.update k f = some t) : ∃ c c', s.calls[k]? = some c ∧ f c = some c' ∧
      t = { s with calls := s.calls.set k c' } := by
  obtain ⟨c', hc', rfl⟩ := Option.map_eq_some_iff.mp h
  obtain ⟨c, hc, hf⟩ := Option.bind_eq_some_iff.mp hc'
  exact ⟨c, c', hc, hf, rfl⟩

/-- The log names each call once, with the server that executes it, and a call that succeeded did so
with the reply of its execution. -/
structure Once (s : Rpc) : Prop where
  nodup : (s.log.map Prod.fst).Nodup
  mem_log : ∀ k server, (k, server) ∈ s.log ↔
    ∃ c, s.calls[k]? = some c ∧ c.invoked = some server
  replied : ∀ c ∈ s.calls, c.reply ≠ none → c.invoked ≠ none
  succeeded : ∀ c ∈ s.calls, ∀ reply, c.result = some (some reply) → c.reply = some reply

/-- A change of a call that leaves its server alone. -/
theorem Once.set {s : Rpc} (hs : s.Once) {k : ℕ} {c c' : RemoteCall} (hc : s.calls[k]? = some c)
    (hinvoked : c'.invoked = c.invoked) (hreply : c'.reply ≠ none → c'.invoked ≠ none)
    (hresult : ∀ reply, c'.result = some (some reply) → c'.reply = some reply) :
    Once { s with calls := s.calls.set k c' } := by
  have hlt := (List.getElem?_eq_some_iff.mp hc).1
  refine ⟨hs.nodup, fun i server ↦ ?_, fun x hx ↦ ?_, fun x hx ↦ ?_⟩
  · rw [hs.mem_log]
    by_cases hi : i = k
    · subst hi
      rw [List.getElem?_set_self hlt, hc]
      simp [hinvoked]
    · simp [Ne.symm hi]
  · rcases List.mem_or_eq_of_mem_set hx with hx | rfl
    · exact hs.replied x hx
    · exact hreply
  · rcases List.mem_or_eq_of_mem_set hx with hx | rfl
    · exact hs.succeeded x hx
    · exact hresult

theorem Once.issue {s : Rpc} (hs : s.Once) : Once { s with calls := s.calls ++ [.issued] } := by
  refine ⟨hs.nodup, fun i server ↦ ?_, fun x hx ↦ ?_, fun x hx ↦ ?_⟩
  · rw [hs.mem_log]
    constructor
    · rintro ⟨c, hc, hinvoked⟩
      exact ⟨c, Lists.getElem?_concat_eq_some.mpr (Or.inl hc), hinvoked⟩
    · rintro ⟨c, hc, hinvoked⟩
      rcases Lists.getElem?_concat_eq_some.mp hc with hc | ⟨-, rfl⟩
      · exact ⟨c, hc, hinvoked⟩
      · cases hinvoked
  · rcases List.mem_append.mp hx with hx | hx
    · exact hs.replied x hx
    · rw [List.mem_singleton.mp hx]
      exact fun hreply ↦ absurd rfl hreply
  · rcases List.mem_append.mp hx with hx | hx
    · exact hs.succeeded x hx
    · rw [List.mem_singleton.mp hx]
      intro reply hreply
      cases hreply

theorem Once.invoke {s : Rpc} (hs : s.Once) {k server : ℕ} {c : RemoteCall}
    (hc : s.calls[k]? = some c) (hfresh : c.invoked = none) :
    Once { s with
      calls := s.calls.set k { c with invoked := some server }
      log := s.log ++ [(k, server)] } := by
  have hlt := (List.getElem?_eq_some_iff.mp hc).1
  have hnew : k ∉ s.log.map Prod.fst := by
    intro hk
    obtain ⟨⟨k', server'⟩, hmem, rfl⟩ := List.mem_map.mp hk
    obtain ⟨c', hc', hinvoked⟩ := (hs.mem_log _ _).mp hmem
    cases hc.symm.trans hc'
    rw [hfresh] at hinvoked
    cases hinvoked
  refine ⟨?_, fun i server' ↦ ?_, fun x hx ↦ ?_, fun x hx ↦ ?_⟩
  · rw [List.map_append, List.map_singleton, ← List.concat_eq_append]
    exact hs.nodup.concat hnew
  · dsimp only
    rw [List.mem_append, hs.mem_log, List.mem_singleton, Prod.mk.injEq]
    by_cases hi : i = k
    · subst hi
      rw [List.getElem?_set_self hlt, hc]
      simp [hfresh, eq_comm]
    · simp [hi, Ne.symm hi]
  · rcases List.mem_or_eq_of_mem_set hx with hx | rfl
    · exact hs.replied x hx
    · exact fun _ ↦ Option.some_ne_none _
  · rcases List.mem_or_eq_of_mem_set hx with hx | rfl
    · exact hs.succeeded x hx
    · exact hs.succeeded c (List.mem_of_getElem? hc)

theorem Once.step {s t : Rpc} (hs : s.Once) {e : RpcEvent} (h : s.step e = some t) : t.Once := by
  cases e with
  | issue =>
    cases h
    exact hs.issue
  | invoke k server =>
    obtain ⟨u, hu, rfl⟩ := Option.map_eq_some_iff.mp h
    obtain ⟨c, c', hc, hf, rfl⟩ := update_eq_some hu
    simp only [RemoteCall.invoke] at hf
    split_ifs at hf with hfresh
    cases hf
    exact hs.invoke hc hfresh
  | finish k reply =>
    obtain ⟨c, c', hc, hf, rfl⟩ := update_eq_some h
    simp only [RemoteCall.finish] at hf
    split_ifs at hf with hif
    cases hf
    refine hs.set hc rfl (fun _ ↦ hif.1) fun r hr ↦ ?_
    have hold := hs.succeeded c (List.mem_of_getElem? hc) r hr
    rw [hif.2] at hold
    cases hold
  | succeed k =>
    obtain ⟨c, c', hc, hf, rfl⟩ := update_eq_some h
    simp only [RemoteCall.succeed] at hf
    split_ifs at hf with hif
    cases hf
    exact hs.set hc rfl (hs.replied c (List.mem_of_getElem? hc)) fun r hr ↦ Option.some.inj hr
  | fail k =>
    obtain ⟨c, c', hc, hf, rfl⟩ := update_eq_some h
    simp only [RemoteCall.fail] at hf
    split_ifs at hf with hif
    cases hf
    exact hs.set hc rfl (hs.replied c (List.mem_of_getElem? hc)) fun r hr ↦ by cases hr

theorem once_of_reachable {s : Rpc} (h : rpc.Reachable s) : s.Once := by
  apply h.invariant _ fun s e t hs hstep ↦ hs.step hstep
  exact ⟨List.nodup_nil, by simp [rpc], by simp [rpc], by simp [rpc]⟩

end Rpc

/-! ## What a call has done so far -/

/-- No handler was started yet. -/
def Stage.isEarly : Stage → Bool
  | .calling | .received | .counted | .accepted | .unreachable | .arrived => true
  | _ => false

/-- `processReq` has found a server and not yet looked for the last time whether it is dead. -/
def Stage.isInside : Stage → Bool
  | .arrived | .waiting | .left _ => true
  | _ => false

/-- The handler's reply that `processReq` or the client has in hands. -/
def Stage.reply : Stage → Option GoString
  | .left reply | .returned reply => reply
  | .checked reply | .delayed reply | .sending reply => some reply
  | _ => none

/-- The goroutine of the handler runs. -/
def Dispatch.isRunning : Dispatch → Bool
  | .started | .counted _ | .entered | .replied _ => true
  | _ => false

def Dispatch.isInvoked : Dispatch → Bool
  | .entered | .replied _ | .finished _ => true
  | _ => false

/-- What the handler answered. -/
def Dispatch.answer : Dispatch → Option GoString
  | .replied reply | .finished reply => some reply
  | _ => Option.none

section Calls

variable {End Name : Type}

/-- How the goroutines of a call stand to each other. -/
structure Call.Valid (c : Call End Name) : Prop where
  idle : c.stage.isEarly = true → c.dispatch = .none ∧ c.drainer = false
  linked : c.stage.isInside = true ∨ c.dispatch ≠ .none → c.link ≠ none
  running : c.stage = .waiting → c.dispatch.isRunning = true ∧ c.drainer = false
  received : ∀ reply, c.stage.reply = some reply → c.dispatch = .finished reply
  drained : c.dispatch.isRunning = true → c.stage = .waiting ∨ c.drainer = true

namespace Call.Valid

variable {c : Call End Name}

theorem dispatch_of_running (h : c.dispatch.isRunning = true) : c.dispatch ≠ .none := by
  intro hnone
  rw [hnone] at h
  cases h

/-- Nobody has a reply in hands while the handler's goroutine runs. -/
theorem reply_of_running (hc : c.Valid) (h : c.dispatch.isRunning = true) :
    c.stage.reply = none := by
  by_contra hne
  obtain ⟨reply, hreply⟩ := Option.ne_none_iff_exists'.mp hne
  rw [hc.received reply hreply] at h
  cases h

/-- `processReq` goes on before a handler is started. -/
theorem early (hc : c.Valid) {stage : Stage} {link : Option (Link Name)}
    (hold : c.stage.isEarly = true) (hnew : stage.isEarly = true)
    (hlink : stage.isInside = true → link ≠ none) :
    Valid ({ c with stage, link } : Call End Name) where
  idle _ := hc.idle hold
  linked h := h.elim hlink fun hne ↦ absurd (hc.idle hold).1 hne
  running h := by
    cases h
    cases hnew
  received _ h := by
    cases stage with
    | calling | received | counted | accepted | unreachable | arrived => cases h
    | waiting | left | checked | delayed | sending | returned => cases hnew
  drained h := absurd (hc.idle hold).1 (dispatch_of_running h)

/-- `processReq` goes on outside the loop, and keeps the reply or drops it. -/
theorem late (hc : c.Valid) {stage : Stage} (hold : c.stage ≠ .waiting)
    (hearly : stage.isEarly = false) (hinside : stage.isInside = false)
    (hreply : ∀ reply, stage.reply = some reply → c.stage.reply = some reply) :
    Valid ({ c with stage } : Call End Name) where
  idle h := by simp [hearly] at h
  linked h := hc.linked (h.imp_left fun h ↦ by simp [hinside] at h)
  running h := by
    cases h
    cases hinside
  received reply h := hc.received reply (hreply reply h)
  drained h := Or.inr ((hc.drained h).resolve_left hold)

/-- The handler's goroutine goes on. -/
theorem runs (hc : c.Valid) {dispatch : Dispatch} (hold : c.dispatch.isRunning = true)
    (hnew : dispatch.isRunning = true) : Valid ({ c with dispatch } : Call End Name) where
  idle h := absurd (hc.idle h).1 (dispatch_of_running hold)
  linked _ := hc.linked (Or.inr (dispatch_of_running hold))
  running h := ⟨hnew, (hc.running h).2⟩
  received reply h := by
    have hnone : c.stage.reply = none := hc.reply_of_running hold
    cases hnone.symm.trans h
  drained _ := hc.drained hold

theorem launch (hc : c.Valid) (h : c.stage = .arrived) :
    Valid ({ c with stage := .waiting, dispatch := .started } : Call End Name) where
  idle h := by cases h
  linked _ := hc.linked (Or.inl (by rw [h]; rfl))
  running _ := ⟨rfl, (hc.idle (by rw [h]; rfl)).2⟩
  received _ h := by cases h
  drained _ := Or.inl rfl

/-- The loop takes the reply. -/
theorem takeReply (hc : c.Valid) (h : c.stage = .waiting) (reply : GoString) :
    Valid ({ c with stage := .left (some reply), dispatch := .finished reply } :
      Call End Name) where
  idle h := by cases h
  linked _ := hc.linked (Or.inl (by rw [h]; rfl))
  running h := by cases h
  received _ h := by
    cases h
    rfl
  drained h := by cases h

/-- The loop ends because the server is dead, and leaves a drainer behind. -/
theorem giveUp (hc : c.Valid) (h : c.stage = .waiting) :
    Valid ({ c with stage := .left none, drainer := true } : Call End Name) where
  idle h := by cases h
  linked _ := hc.linked (Or.inl (by rw [h]; rfl))
  running h := by cases h
  received _ h := by cases h
  drained _ := Or.inr rfl

theorem drain (hc : c.Valid) (h : c.drainer = true) {reply : GoString}
    (hreply : c.dispatch = .replied reply) :
    Valid ({ c with dispatch := .finished reply } : Call End Name) where
  idle hearly := by
    rw [(hc.idle hearly).2] at h
    cases h
  linked _ := hc.linked (Or.inr (by rw [hreply]; exact Dispatch.noConfusion))
  running hwaiting := by
    rw [(hc.running hwaiting).2] at h
    cases h
  received r hr := by
    have hnone : c.stage.reply = none := hc.reply_of_running (by rw [hreply]; rfl)
    cases hnone.symm.trans hr
  drained h := by cases h

/-- Every step moves one goroutine, and what is known of the others follows from where it was. -/
theorem step {net net' : Network End Name} {c' : Call End Name} {event : CallEvent} (hc : c.Valid)
    (h : c.Step net event net' c') : c'.Valid := by
  cases h with
  | accept h | countCall h | countArgs h | unreachable h =>
    exact hc.early (by rw [h]; rfl) rfl fun hinside ↦ by cases hinside
  | read h => exact hc.early (by rw [h]; rfl) rfl fun _ ↦ Option.some_ne_none _
  | launch h => exact hc.launch h
  | dispatch h | enter h | reply h => exact hc.runs (by rw [h]; rfl) rfl
  | takeReply h => exact hc.takeReply h _
  | giveUp h => exact hc.giveUp h
  | goOn => exact hc
  | drain h hreply => exact hc.drain h hreply
  | abort h | drop h | fail h | dropReply h | expire h =>
    exact hc.late (by simp [h]) rfl rfl fun _ hreply ↦ by cases hreply
  | pass h | delayReply h | forward h | deliver h | expireReply h =>
    exact hc.late (by simp [h]) rfl rfl fun _ hreply ↦ by rw [h, ← hreply]; rfl

end Call.Valid

/-- What the client sees of a call, and what the server did. -/
def Call.abs (c : Call End Name) : RemoteCall where
  invoked := if c.dispatch.isInvoked then c.link.map Link.server else none
  reply := c.dispatch.answer
  result := match c.stage with
    | .returned reply => some reply
    | _ => none

namespace Traffic

def abs (s : Traffic End Name) : Rpc := ⟨s.calls.map Call.abs, s.log⟩

/-- Every call is valid. -/
def Valid (s : Traffic End Name) : Prop := ∀ c ∈ s.calls, c.Valid

theorem Valid.set {s : Traffic End Name} (hs : s.Valid) {c : Call End Name} (hc : c.Valid) (k : ℕ)
    (net : Network End Name) (log : List (ℕ × ℕ)) :
    Valid { s with net, calls := s.calls.set k c, log } := by
  intro x hx
  rcases List.mem_or_eq_of_mem_set hx with hx | rfl
  · exact hs x hx
  · exact hc

theorem valid_newCall (request : Request End) : (newCall request : Call End Name).Valid where
  idle _ := ⟨rfl, rfl⟩
  linked h := by simp [newCall, Stage.isInside] at h
  running h := by cases h
  received _ h := by cases h
  drained h := by cases h

theorem Valid.step [DecidableEq End] [DecidableEq Name] {s t : Traffic End Name}
    {event : Event End Name} (hs : s.Valid) (h : s.step event = some t) : t.Valid := by
  cases transition_of_step h with
  | change | exit | stop => exact hs
  | call request =>
    intro x hx
    rcases List.mem_append.mp hx with hx | hx
    · exact hs x hx
    · rw [List.mem_singleton.mp hx]
      exact valid_newCall request
  | advance hk _ hc =>
    exact hs.set ((hs _ (List.mem_of_getElem? hk)).step hc) _ _ _

/-- What a step of call `k` is to the client and its server. -/
def callEvents (net : Network End Name) (c : Call End Name) (k : ℕ) : CallEvent → List RpcEvent
  | .enter => (c.link.map fun link ↦ .invoke k link.server).toList
  | .reply reply => [.finish k reply]
  | .deliver => [.succeed k]
  | .abort | .drop | .dropReply => [.fail k]
  | .check =>
    match c.stage, c.link with
    | .left (some _), some link =>
      if net.isServerDead c.request.endname link then [.fail k] else []
    | _, _ => [.fail k]
  | .expire => if c.stage = .unreachable then [.fail k] else []
  | _ => []

/-- A step of a call as a step of the remote call, with what it adds to the log. -/
inductive AbsStep (k : ℕ) (c c' : RemoteCall) : List RpcEvent → List (ℕ × ℕ) → Prop
  | stutter (h : c' = c) : AbsStep k c c' [] []
  | invoke {server : ℕ} (h : c.invoke server = some c') :
      AbsStep k c c' [.invoke k server] [(k, server)]
  | finish (reply : GoString) (h : c.finish reply = some c') : AbsStep k c c' [.finish k reply] []
  | succeed (h : c.succeed = some c') : AbsStep k c c' [.succeed k] []
  | fail (h : c.fail = some c') : AbsStep k c c' [.fail k] []

theorem abs_result {c : Call End Name} (h : ∀ reply, c.stage ≠ .returned reply) :
    c.abs.result = none := by
  cases hstage : c.stage with
  | returned reply => exact absurd hstage (h reply)
  | _ => simp [Call.abs, hstage]

/-- A call that has not returned may fail. -/
theorem abs_fail {c : Call End Name} (h : ∀ reply, c.stage ≠ .returned reply) :
    c.abs.fail = some ({ c with stage := .returned none } : Call End Name).abs := by
  rw [RemoteCall.fail, if_pos (abs_result h)]
  rfl

/-- The reply that `processReq` has in hands is that of the execution. -/
theorem abs_succeed {c : Call End Name} (hc : c.Valid) {reply : GoString}
    (hreply : c.stage.reply = some reply) (h : ∀ reply, c.stage ≠ .returned reply) :
    c.abs.succeed = some ({ c with stage := .returned (some reply) } : Call End Name).abs := by
  have hanswer : c.abs.reply = some reply := by
    simp [Call.abs, hc.received reply hreply, Dispatch.answer]
  rw [RemoteCall.succeed, if_pos ⟨abs_result h, by simp [hanswer]⟩, hanswer, ← hanswer]
  simp only [Call.abs]

theorem absStep_of_step {net net' : Network End Name} {c c' : Call End Name} {event : CallEvent}
    (hc : c.Valid) (h : c.Step net event net' c') (k : ℕ) :
    AbsStep k c.abs c'.abs (callEvents net c k event) (logEntry k c event) := by
  cases h with
  | accept h | countCall h | countArgs h | unreachable h | giveUp h | delayReply h | forward h =>
    exact .stutter (by simp [Call.abs, h])
  | goOn => exact .stutter rfl
  | read h | launch h =>
    have hidle := (hc.idle (by rw [h]; rfl)).1
    exact .stutter (by simp [Call.abs, h, hidle, Dispatch.isInvoked, Dispatch.answer])
  | dispatch h => exact .stutter (by simp [Call.abs, h, Dispatch.isInvoked, Dispatch.answer])
  | takeReply h hreply =>
    exact .stutter (by simp [Call.abs, h, hreply, Dispatch.isInvoked, Dispatch.answer])
  | drain h hreply =>
    exact .stutter (by simp [Call.abs, hreply, Dispatch.isInvoked, Dispatch.answer])
  | enter h =>
    obtain ⟨link, hlink⟩ := Option.ne_none_iff_exists'.mp (hc.linked (by simp [h]))
    simp only [callEvents, logEntry, hlink, Option.map_some, Option.toList_some]
    exact .invoke (by simp [Call.abs, RemoteCall.invoke, h, Dispatch.isInvoked, Dispatch.answer])
  | reply h reply =>
    obtain ⟨link, hlink⟩ := Option.ne_none_iff_exists'.mp (hc.linked (by simp [h]))
    apply AbsStep.finish reply
    simp [Call.abs, RemoteCall.finish, h, hlink, Dispatch.isInvoked, Dispatch.answer]
  | pass h hlink halive =>
    have hevents : callEvents net c k .check = [] := by simp [callEvents, h, hlink, halive]
    rw [hevents]
    exact .stutter (by simp [Call.abs, h])
  | @fail reply link h hlink hdead =>
    have hevents : callEvents net c k .check = [.fail k] := by
      cases reply with
      | none => simp [callEvents, h]
      | some reply => simp [callEvents, h, hlink, hdead.resolve_left (Option.some_ne_none reply)]
    rw [hevents]
    exact .fail (abs_fail (by simp [h]))
  | abort h | drop h | dropReply h => exact .fail (abs_fail (by simp [h]))
  | expire h =>
    have hevents : callEvents net c k .expire = [.fail k] := if_pos h
    rw [hevents]
    exact .fail (abs_fail (by simp [h]))
  | expireReply h =>
    have hevents : callEvents net c k .expire = [] := if_neg (by simp [h])
    rw [hevents]
    exact .stutter (by simp [Call.abs, h])
  | deliver h => exact .succeed (abs_succeed hc (by rw [h]; rfl) (by simp [h]))

/-- What a step of call `k` does to the remote calls. -/
theorem run_of_absStep {s : Traffic End Name} {k : ℕ} {c c' : Call End Name}
    {events : List RpcEvent} {entries : List (ℕ × ℕ)} (hk : s.calls[k]? = some c)
    (h : AbsStep k c.abs c'.abs events entries) (net : Network End Name) :
    rpc.run s.abs events = some
      (abs { s with net, calls := s.calls.set k c', log := s.log ++ entries }) := by
  have hget : s.abs.calls[k]? = some c.abs := by simp [abs, hk]
  have ht : abs { s with net, calls := s.calls.set k c', log := s.log ++ entries } =
      ⟨s.abs.calls.set k c'.abs, s.abs.log ++ entries⟩ := by
    simp [abs, List.map_set]
  rw [ht]
  cases h with
  | stutter h =>
    obtain ⟨hlt, heq⟩ := List.getElem?_eq_some_iff.mp hget
    rw [h, ← heq, List.set_getElem_self, List.append_nil]
    rfl
  | invoke h | finish _ h | succeed h | fail h =>
    simp [Machine.run, rpc, Rpc.step, Rpc.update, hget, h]

/-- What an event is to the clients and servers. -/
def rpcEvents [DecidableEq End] [DecidableEq Name] (s : Traffic End Name) (event : Event End Name) :
    List RpcEvent :=
  if s.isFatal event then []
  else match event with
    | .call _ => [.issue]
    | .advance k event =>
      match s.calls[k]? with
      | some c => callEvents s.net c k event
      | none => []
    | .change _ | .stop => []

/-- The network refines remote calls with at-most-once semantics. -/
def refinement (End Name : Type) [DecidableEq End] [DecidableEq Name] :
    Refinement (labrpc End Name) rpc where
  abs := abs
  label := rpcEvents
  inv := Valid
  abs_init := rfl
  inv_init := fun _ hc ↦ absurd hc List.not_mem_nil
  inv_step := fun _ _ _ hs hstep ↦ hs.step hstep
  abs_step := by
    intro s e t hs hstep
    cases transition_of_step hstep with
    | exit hfatal =>
      have hnone : s.rpcEvents e = [] := if_pos hfatal
      rw [hnone]
      rfl
    | change happly => simp [rpcEvents, isFatal, happly, Machine.run, abs]
    | stop => rfl
    | call request => simp [rpcEvents, isFatal, Machine.run, rpc, Rpc.step, abs, newCall, Call.abs,
        RemoteCall.issued, Dispatch.isInvoked, Dispatch.answer]
    | @advance _ _ _ _ net hk hfatal hc =>
      have hrun := run_of_absStep hk (absStep_of_step (hs _ (List.mem_of_getElem? hk)) hc _) net
      simpa [rpcEvents, isFatal, hk, hfatal] using hrun

variable [DecidableEq End] [DecidableEq Name]

theorem valid_of_reachable {s : Traffic End Name} (h : (labrpc End Name).Reachable s) : s.Valid :=
  (refinement End Name).inv_of_reachable h

theorem once_of_reachable {s : Traffic End Name} (h : (labrpc End Name).Reachable s) :
    s.abs.Once :=
  Rpc.once_of_reachable ((refinement End Name).reachable h)

/-- A call whose handler was entered is in the log, with its server. -/
theorem mem_log_of_isInvoked {s : Traffic End Name} (h : (labrpc End Name).Reachable s) {k : ℕ}
    {c : Call End Name} (hk : s.calls[k]? = some c) (hinvoked : c.dispatch.isInvoked = true) :
    ∃ link, c.link = some link ∧ (k, link.server) ∈ s.log := by
  have hc := valid_of_reachable h c (List.mem_of_getElem? hk)
  have hne : c.dispatch ≠ .none := fun hnone ↦ by simp [hnone, Dispatch.isInvoked] at hinvoked
  obtain ⟨link, hlink⟩ := Option.ne_none_iff_exists'.mp (hc.linked (Or.inr hne))
  refine ⟨link, hlink, ?_⟩
  apply ((once_of_reachable h).mem_log k link.server).mpr
  exact ⟨c.abs, by simp [abs, hk], by simp [Call.abs, hinvoked, hlink]⟩

/-- **At most once.** In every interleaving the calls are remote calls with at-most-once semantics:
no call enters a handler twice, and a client gets a reply only from the one execution of its call,
on the server that its end was connected to. -/
theorem calls_at_most_once {s : Traffic End Name} (h : (labrpc End Name).Reachable s) :
    rpc.Reachable s.abs ∧ (s.log.map Prod.fst).Nodup ∧
      ∀ k c reply, s.calls[k]? = some c → c.stage = .returned (some reply) →
        ∃ link, c.link = some link ∧ (k, link.server) ∈ s.log ∧ c.dispatch = .finished reply := by
  refine ⟨(refinement End Name).reachable h, (once_of_reachable h).nodup, ?_⟩
  intro k c reply hk hstage
  have hc := valid_of_reachable h c (List.mem_of_getElem? hk)
  have hfinished := hc.received reply (by rw [hstage]; rfl)
  obtain ⟨link, hlink, hlog⟩ := mem_log_of_isInvoked h hk (by rw [hfinished]; rfl)
  exact ⟨link, hlink, hlog, hfinished⟩

/-- A network with one end that leads to one server. -/
def sampleSetup : List (Event ℕ ℕ) :=
  [.change (.makeEnd 0), .change .makeServer,
    .change (.addService 0 ⟨ascii "Raft", [ascii "AppendEntries"]⟩), .change (.addServer 0 0),
    .change (.connect 0 0), .change (.enable 0 true)]

/-- The steps of a call that is answered. -/
def sampleCall (k : ℕ) : List (Event ℕ ℕ) :=
  .call ⟨0, ascii "Raft.AppendEntries", [1, 2]⟩ ::
    [CallEvent.accept, .countCall, .countArgs, .read, .launch, .dispatch, .enter, .reply [3],
      .takeReply, .check, .forward, .deliver].map (.advance k)

/-- Two calls are answered, and a third one fails after its handler was entered. -/
theorem calls_at_most_once_sample :
    ∃ s : Traffic ℕ ℕ, (labrpc ℕ ℕ).Reachable s ∧ s.log = [(0, 0), (1, 0), (2, 0)] ∧
      (s.log.map Prod.fst).Nodup ∧
        ∃ c, s.calls[1]? = some c ∧ c.stage = .returned (some [3]) ∧
          c.dispatch = .finished [3] := by
  have hrun : ∃ s : Traffic ℕ ℕ, (labrpc ℕ ℕ).Reachable s ∧ s.log = [(0, 0), (1, 0), (2, 0)] ∧
      s.calls.map Call.stage = [.returned (some [3]), .returned (some [3]), .returned none] :=
    Machine.exists_reachable
      (sampleSetup ++ sampleCall 0 ++ sampleCall 1 ++
        .call ⟨0, ascii "Raft.AppendEntries", []⟩ ::
          ([CallEvent.accept, .countCall, .countArgs, .read, .launch].map (.advance 2) ++
            [.change (.deleteServer 0), .advance 2 .dispatch, .advance 2 .enter,
              .advance 2 .timeout, .advance 2 .check]))
      (by decide)
  obtain ⟨s, hs, hlog, hstages⟩ := hrun
  obtain ⟨-, hnodup, hreturned⟩ := calls_at_most_once hs
  have hsecond : (s.calls.map Call.stage)[1]? = some (.returned (some [3])) := by rw [hstages]; rfl
  rw [List.getElem?_map] at hsecond
  obtain ⟨c, hc, hstage⟩ := Option.map_eq_some_iff.mp hsecond
  obtain ⟨-, -, -, hfinished⟩ := hreturned 1 c [3] hc hstage
  exact ⟨s, hs, hlog, hnodup, c, hc, hstage, hfinished⟩

end Traffic

end Calls

end DistKvRaft.Labrpc
