import DistKvRaft.ShardCtrler.Clerk

/-!
# The answers to queries

The answer to a query travels inside its Op: `handleQuery` stores a configuration in `ReplyQuery`,
and the loop sends that Op on the index channel.  An Op that the duplicate filter stops is sent as
it was submitted, with the zero configuration in `ReplyQuery`.  With handlers that behave as they
are documented no configuration of the server is the zero one, so the two cases can be told apart.
-/

namespace DistKvRaft.ShardCtrler

open Go (ascii)

variable {h : Handlers} {configs configs' : List Config} {msgs earlier : List ApplyMsg}
  {msg : ApplyMsg} {op : Op} {reply : Config}

/-- There is a configuration, and none is the zero one. -/
structure Numbered (configs : List Config) : Prop where
  ne_nil : configs ≠ []
  num_nonneg : ∀ config ∈ configs, 0 ≤ config.num
  ne_zero : ∀ config ∈ configs, config ≠ Config.zero

theorem numbered_startServer : Numbered startServer.configs := by
  constructor <;> simp [startServer, Config.zero]

/-- A new configuration has a positive number, which the zero configuration has not. -/
theorem Numbered.of_extends (hnum : Numbered configs) (hext : Extends configs configs') :
    Numbered configs' := by
  have hlast := List.getLast?_eq_some_getLast hnum.ne_nil
  obtain ⟨new, rfl, hnew⟩ := hext _ hlast
  have hpos : 0 < new.num := by
    have hnonneg := hnum.num_nonneg _ (List.getLast_mem hnum.ne_nil)
    omega
  constructor
  · simp
  · simpa [or_imp, forall_and] using ⟨hnum.num_nonneg, hpos.le⟩
  · have hne : new ≠ Config.zero := by
      rintro rfl
      exact lt_irrefl _ hpos
    simpa [or_imp, forall_and] using ⟨hnum.ne_zero, hne⟩

theorem Numbered.dispatch (hnum : Numbered configs) (hdoc : h.Documented) (op : Op) :
    Numbered (h.dispatch configs op).configs := by
  unfold Handlers.dispatch
  split_ifs
  · exact hnum.of_extends (hdoc.join _ _)
  · exact hnum.of_extends (hdoc.leave _ _)
  · exact hnum.of_extends (hdoc.move _ _ _)
  · exact hnum
  · exact hnum

theorem Numbered.applyOp {s : Server} (hnum : Numbered s.configs) (hdoc : h.Documented) (op : Op) :
    Numbered (s.applyOp h op).1.configs := by
  unfold Server.applyOp
  split_ifs
  · exact hnum.dispatch hdoc op
  · exact hnum

/-- No configuration of a server is ever the zero one. -/
theorem numbered_stateAfter (hdoc : h.Documented) (msgs : List ApplyMsg) :
    Numbered (stateAfter h msgs).configs := by
  apply stateAfter_induction (P := fun _ s ↦ Numbered s.configs)
  · exact numbered_startServer
  · intro _ _ s _ hnum
    exact hnum
  · intro _ _ op s _ hnum
    exact hnum.applyOp hdoc op

/-- The configuration that a query fetches after any messages is not the zero one. -/
theorem handleQuery_ne_zero (hdoc : h.Documented) (msgs : List ApplyMsg) (num : ℤ) :
    h.handleQuery (stateAfter h msgs).configs num ≠ Config.zero := by
  have hnum := numbered_stateAfter hdoc msgs
  exact hnum.ne_zero _ (hdoc.query _ num hnum.ne_nil)

/-- The configuration answers the query Op of the message: `handleQuery` computes it on the
configurations after the message, or it computed it when the same call was executed before. -/
def QueryAnswer (h : Handlers) (earlier : List ApplyMsg) (msg : ApplyMsg) (op : Op)
    (reply : Config) : Prop :=
  reply = h.handleQuery (stateAfter h (earlier ++ [msg])).configs op.argsQuery ∨
    ∃ before first between op', earlier = before ++ first :: between ∧ first.validOp = some op' ∧
      op'.command = ascii "Query" ∧ op'.clientId = op.clientId ∧ op'.timeStamp = op.timeStamp ∧
      IsLatest before op' ∧
      reply = h.handleQuery (stateAfter h (before ++ [first])).configs op.argsQuery

theorem QueryAnswer.ne_zero (hanswer : QueryAnswer h earlier msg op reply) (hdoc : h.Documented) :
    reply ≠ Config.zero := by
  rcases hanswer with hnow | ⟨before, first, _, _, -, -, -, -, -, -, hthen⟩
  · rw [hnow]
    exact handleQuery_ne_zero hdoc _ _
  · rw [hthen]
    exact handleQuery_ne_zero hdoc _ _

/-- A query that gets past the filter is sent with the computed answer, and leaves the
configurations as they are. -/
theorem applyOp_query {s : Server} (hquery : op.command = ascii "Query")
    (hnew : s.isNew op = true) :
    (s.applyOp h op).1.configs = s.configs ∧
      (s.applyOp h op).2.1.replyQuery = h.handleQuery s.configs op.argsQuery := by
  simp [Server.applyOp, dispatch_query hquery, hnew]

/-- For any messages whose Ops were submitted with the zero reply: every query Op is sent with an
answer that `handleQuery` computed for its call, exactly when every query Op is later than all
valid Ops of its client before it. -/
theorem queries_answered_iff (hdoc : h.Documented)
    (hsubmitted : ∀ msg ∈ msgs, ∀ op, msg.validOp = some op → op.replyQuery = Config.zero) :
    (∀ earlier msg later op sent, msgs = earlier ++ msg :: later → msg.validOp = some op →
      op.command = ascii "Query" → deliveryAfter h earlier msg = some sent →
        QueryAnswer h earlier msg op sent.op.replyQuery ∧ sent.op.replyQuery ≠ Config.zero) ↔
    ∀ earlier msg later op, msgs = earlier ++ msg :: later → msg.validOp = some op →
      op.command = ascii "Query" → IsLatest earlier op := by
  constructor
  · intro hanswered earlier msg later op hmsgs hmsg hquery
    by_contra hstale
    have hold : (stateAfter h earlier).isNew op = false := by
      rw [← Bool.not_eq_true, isNew_stateAfter_iff]
      exact hstale
    have hsent := (hanswered earlier msg later op _ hmsgs hmsg hquery
      (deliveryAfter_of_validOp hmsg)).2
    rw [Server.applyOp_of_not_isNew hold] at hsent
    exact hsent (hsubmitted msg (by simp [hmsgs]) op hmsg)
  · intro hlatest earlier msg later op sent hmsgs hmsg hquery hsent
    have hnew : (stateAfter h earlier).isNew op = true :=
      isNew_stateAfter_iff.mpr (hlatest earlier msg later op hmsgs hmsg hquery)
    obtain ⟨hconfigs, hreply⟩ := applyOp_query (h := h) hquery hnew
    have hanswer : QueryAnswer h earlier msg op sent.op.replyQuery := by
      rw [deliveryAfter_of_validOp hmsg, Option.some.injEq] at hsent
      left
      rw [stateAfter_concat, Server.receive_of_validOp hmsg, hconfigs, ← hsent]
      exact hreply
    exact ⟨hanswer, hanswer.ne_zero hdoc⟩

/-- A join and two queries of different calls. -/
theorem queries_answered_iff_sample :
    (∀ earlier msg later op sent,
      [⟨true, some ((Request.query 0).toOp 1 5), 1⟩, ⟨true, some ((Request.join []).toOp 2 3), 2⟩,
        ⟨true, some ((Request.query (-1)).toOp 1 6), 3⟩] = earlier ++ msg :: later →
      msg.validOp = some op → op.command = ascii "Query" →
      deliveryAfter sampleHandlers earlier msg = some sent →
        QueryAnswer sampleHandlers earlier msg op sent.op.replyQuery ∧
          sent.op.replyQuery ≠ Config.zero) ↔
    ∀ earlier msg later op,
      [⟨true, some ((Request.query 0).toOp 1 5), 1⟩, ⟨true, some ((Request.join []).toOp 2 3), 2⟩,
        ⟨true, some ((Request.query (-1)).toOp 1 6), 3⟩] = earlier ++ msg :: later →
      msg.validOp = some op → op.command = ascii "Query" → IsLatest earlier op :=
  queries_answered_iff documented_sampleHandlers (by simp [ApplyMsg.validOp, Request.toOp, Op.bare])

/-- Two attempts of one query are committed: the second one is sent with the zero configuration,
which answers nothing. -/
theorem repeated_query_unanswered :
    deliveryAfter sampleHandlers [⟨true, some ((Request.query (-1)).toOp 1 5), 1⟩]
        ⟨true, some ((Request.query (-1)).toOp 1 5), 2⟩ =
      some ⟨2, (Request.query (-1)).toOp 1 5, none⟩ ∧
    ((Request.query (-1)).toOp 1 5).replyQuery = Config.zero ∧
    ¬ QueryAnswer sampleHandlers [⟨true, some ((Request.query (-1)).toOp 1 5), 1⟩]
        ⟨true, some ((Request.query (-1)).toOp 1 5), 2⟩ ((Request.query (-1)).toOp 1 5)
        ((Request.query (-1)).toOp 1 5).replyQuery := by
  refine ⟨by decide, rfl, ?_⟩
  intro hanswer
  exact hanswer.ne_zero documented_sampleHandlers rfl

end DistKvRaft.ShardCtrler
