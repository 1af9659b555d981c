import DistKvRaft.ShardCtrler.Server

/-!
# The duplicate filter of the shard controller

The filter keeps one timestamp per client.  Seen over a whole log, it lets pass exactly those Ops
that are later than all earlier ones of their client, and the Ops of other clients do not matter:
any two logs with the same Ops of a client, in the same order, run the same of them.

An Op that passes reaches the switch over its command, which has no default: a command other than
`Join`, `Leave`, `Move` and `Query` runs no handler, and yet its timestamp is kept.
-/

namespace DistKvRaft.ShardCtrler

variable {h : Handlers}

/-- The valid Ops of a log with the handlers that `runShardCtrler`, started in `s`, calls for
them. -/
def verdicts (h : Handlers) : Server → List ApplyMsg → List (Op × Option HandlerCall)
  | _, [] => []
  | s, msg :: msgs =>
    (match msg.validOp, (s.receive h msg).2 with
      | some op, some delivery => [(op, delivery.handler)]
      | _, _ => []) ++ verdicts h (s.receive h msg).1 msgs

/-- The valid Ops of one client, in the order of the log. -/
def clientOps (client : ClientId) (msgs : List ApplyMsg) : List Op :=
  (msgs.filterMap ApplyMsg.validOp).filter fun op ↦ op.clientId = client

/-- What becomes of the Ops of one client. -/
def clientVerdicts (h : Handlers) (client : ClientId) (msgs : List ApplyMsg) :
    List (Op × Option HandlerCall) :=
  (verdicts h startServer msgs).filter fun verdict ↦ verdict.1.clientId = client

/-- The handler of an Op that the filter has decided on. -/
def handlerOf (h : Handlers) (verdict : Op × Bool) : Op × Option HandlerCall :=
  (verdict.1, if verdict.2 then (h.dispatch [] verdict.1).handler else none)

/-- Which handler is called does not depend on the configurations. -/
theorem handler_dispatch (configs configs' : List Config) (op : Op) :
    (h.dispatch configs op).handler = (h.dispatch configs' op).handler := by
  unfold Handlers.dispatch
  split_ifs <;> rfl

theorem handler_applyOp (s : Server) (op : Op) :
    (op, (s.applyOp h op).2.2) =
      handlerOf h (op, Watermark.accepts s.cache op.clientId op.timeStamp) := by
  rw [handlerOf, ← Server.isNew_eq_accepts, Server.applyOp]
  split_ifs
  · dsimp only
    rw [handler_dispatch s.configs []]
  · rfl

/-- The verdicts of the loop are those of the watermark filter. -/
theorem verdicts_eq (s : Server) (msgs : List ApplyMsg) :
    verdicts h s msgs = (Watermark.verdicts Op.clientId Op.timeStamp s.cache
      (msgs.filterMap ApplyMsg.validOp)).map (handlerOf h) := by
  induction msgs generalizing s with
  | nil => rfl
  | cons msg msgs ih =>
    rw [verdicts, List.filterMap_cons]
    cases hmsg : msg.validOp with
    | none =>
      rw [Server.receive_of_not_validOp hmsg]
      exact ih s
    | some op =>
      rw [Server.receive_of_validOp hmsg, ih, Server.cache_applyOp]
      dsimp only
      rw [handler_applyOp]
      rfl

/-- Each client's Ops are treated as if there were no others. -/
theorem clientVerdicts_eq (client : ClientId) (msgs : List ApplyMsg) :
    clientVerdicts h client msgs = (Watermark.verdicts Op.clientId Op.timeStamp startServer.cache
      (clientOps client msgs)).map (handlerOf h) := by
  rw [clientVerdicts, verdicts_eq, List.filter_map]
  exact congrArg _ (Watermark.filter_verdicts Op.clientId Op.timeStamp rfl _)

section Message

variable {earlier : List ApplyMsg} {msg : ApplyMsg} {op : Op}

/-- An Op that is the latest of its client goes through the switch. -/
theorem applyOp_of_isLatest (hlatest : IsLatest earlier op) :
    (stateAfter h earlier).applyOp h op =
      ({ configs := (h.dispatch (stateAfter h earlier).configs op).configs
         cache := Function.update (stateAfter h earlier).cache op.clientId (some op.timeStamp) },
        (h.dispatch (stateAfter h earlier).configs op).op,
        (h.dispatch (stateAfter h earlier).configs op).handler) := by
  rw [Server.applyOp, if_pos (isNew_stateAfter_iff.mpr hlatest)]

theorem applyOp_of_not_isLatest (hstale : ¬ IsLatest earlier op) :
    (stateAfter h earlier).applyOp h op = (stateAfter h earlier, op, none) := by
  apply Server.applyOp_of_not_isNew
  rw [← Bool.not_eq_true, isNew_stateAfter_iff]
  exact hstale

theorem stateAfter_of_validOp (hmsg : msg.validOp = some op) :
    stateAfter h (earlier ++ [msg]) = ((stateAfter h earlier).applyOp h op).1 := by
  rw [stateAfter_concat, Server.receive_of_validOp hmsg]

/-- Every other message leaves configurations and timestamps as they are. -/
theorem stateAfter_of_skipped (hskip : ∀ op, msg.validOp = some op → ¬ IsLatest earlier op) :
    stateAfter h (earlier ++ [msg]) = stateAfter h earlier := by
  cases hmsg : msg.validOp with
  | none => rw [stateAfter_concat, Server.receive_of_not_validOp hmsg]
  | some op => rw [stateAfter_of_validOp hmsg, applyOp_of_not_isLatest (hskip op hmsg)]

/-- A handler is called exactly for an Op that is the latest of its client and names one. -/
theorem exists_handler_deliveryAfter_iff (hmsg : msg.validOp = some op) :
    (∃ delivery call, deliveryAfter h earlier msg = some delivery ∧
      delivery.handler = some call) ↔ IsLatest earlier op ∧ op.command ∈ handledCommands := by
  rw [deliveryAfter_of_validOp hmsg, ← @exists_handler_iff h (stateAfter h earlier).configs op]
  by_cases hlatest : IsLatest earlier op
  · simp [applyOp_of_isLatest hlatest, hlatest]
  · simp [applyOp_of_not_isLatest hlatest, hlatest]

/-- And then it is run on the configurations so far. -/
theorem handlerRun_of_deliveryAfter (hmsg : msg.validOp = some op) {delivery : Delivery}
    {call : HandlerCall} (hdelivery : deliveryAfter h earlier msg = some delivery)
    (hcall : delivery.handler = some call) :
    HandlerRun h op (stateAfter h earlier).configs call
      (stateAfter h (earlier ++ [msg])).configs delivery.op := by
  have hlatest := ((exists_handler_deliveryAfter_iff hmsg).mp ⟨delivery, call, hdelivery, hcall⟩).1
  rw [deliveryAfter_of_validOp hmsg, applyOp_of_isLatest hlatest] at hdelivery
  cases hdelivery
  rw [stateAfter_of_validOp hmsg, applyOp_of_isLatest hlatest]
  exact handlerRun_of_dispatch hcall

/-- An Op with another command leaves nothing but its timestamp. -/
theorem stateAfter_of_not_handled (hmsg : msg.validOp = some op) (hlatest : IsLatest earlier op)
    (hcommand : op.command ∉ handledCommands) :
    stateAfter h (earlier ++ [msg]) = { stateAfter h earlier with
      cache := Function.update (stateAfter h earlier).cache op.clientId (some op.timeStamp) } := by
  rw [stateAfter_of_validOp hmsg, applyOp_of_isLatest hlatest, dispatch_of_not_handled hcommand]

end Message

/-- **The filter runs the strict maxima that name a handler.** For every log: a handler is run for a
valid Op if and only if its timestamp is strictly after those of all earlier valid Ops of its client
and its command is one of the four; it is then the handler that the command names, run with the
arguments of the Op on the configurations so far.  `cache` holds each client's greatest timestamp,
and none for a client without a valid Op.  Every message whose Op is skipped or that holds none
changes neither configurations nor timestamps, and an Op that passes the filter with another command
changes its client's timestamp only.  Which Ops of a client are run depends on that client's Ops
alone. -/
theorem filter_runs_strict_maxima (h : Handlers) :
    (∀ earlier msg op, msg.validOp = some op →
      ((∃ delivery call, deliveryAfter h earlier msg = some delivery ∧
          delivery.handler = some call) ↔ IsLatest earlier op ∧ op.command ∈ handledCommands) ∧
      ∀ delivery call, deliveryAfter h earlier msg = some delivery → delivery.handler = some call →
        HandlerRun h op (stateAfter h earlier).configs call
          (stateAfter h (earlier ++ [msg])).configs delivery.op) ∧
    (∀ msgs client,
      (stateAfter h msgs).cache client = none ∧ (∀ time, (client, time) ∉ stamps msgs) ∨
      ∃ latest, (stateAfter h msgs).cache client = some latest ∧
        IsGreatest {time | (client, time) ∈ stamps msgs} latest) ∧
    (∀ earlier msg, (∀ op, msg.validOp = some op → ¬ IsLatest earlier op) →
      stateAfter h (earlier ++ [msg]) = stateAfter h earlier) ∧
    (∀ earlier msg op, msg.validOp = some op → IsLatest earlier op →
      op.command ∉ handledCommands →
      stateAfter h (earlier ++ [msg]) = { stateAfter h earlier with
        cache := Function.update (stateAfter h earlier).cache op.clientId (some op.timeStamp) }) ∧
    ∀ msgs msgs' client, clientOps client msgs = clientOps client msgs' →
      clientVerdicts h client msgs = clientVerdicts h client msgs' := by
  refine ⟨fun earlier msg op hmsg ↦ ⟨exists_handler_deliveryAfter_iff hmsg,
      fun _ _ ↦ handlerRun_of_deliveryAfter hmsg⟩, fun msgs ↦ cache_tracks msgs,
    fun _ _ ↦ stateAfter_of_skipped, fun _ _ _ ↦ stateAfter_of_not_handled,
    fun msgs msgs' client hops ↦ ?_⟩
  rw [clientVerdicts_eq, clientVerdicts_eq, hops]

/-- The first Op of a client, with no command: it is sent, its timestamp is kept, and no handler is
called. -/
theorem empty_command_runs_no_handler :
    let op : Op := ⟨[], [], [], 0, 0, 0, Config.zero, 1, 5⟩
    IsLatest [] op ∧
      deliveryAfter sampleHandlers [] ⟨true, some op, 1⟩ = some ⟨1, op, none⟩ ∧
      (stateAfter sampleHandlers [⟨true, some op, 1⟩]).cache 1 = some 5 := by
  decide

end DistKvRaft.ShardCtrler
