import DistKvRaft.ShardKV.Clerk

/-!
# What an operation has tried

An operation tries servers in the order of the two loops, each with the same arguments, and it
returns with the reply of an execution by a server of the group that has the key.
-/

namespace DistKvRaft.ShardKV

open Go Labrpc
open ShardCtrler (Config)

section Attempts

variable {End : Type}

/-! ## Attempts and what became of them -/

/-- The attempt went to a server of the group over an end of its own. -/
structure Attempt.Valid (wire : Wire) (args : Args) (t : Traffic End GoString) (a : Attempt End) :
    Prop where
  owner : ownerAt a.config args.key a.si = some a.server
  made : t.net.ends a.endname = true
  connected : t.net.connections a.endname = some a.server
  sent : ∃ c, t.calls[a.call]? = some c ∧
    c.request = ⟨a.endname, args.svcMeth, wire.encode args⟩ ∧
    ∀ link, c.link = some link → link.name = a.server

/-- The call has returned, and the clerk draws the conclusion. -/
def Attempt.Judged (wire : Wire) (args : Args) (t : Traffic End GoString) (a : Attempt End)
    (verdict : Verdict) : Prop :=
  ∃ c reply, t.calls[a.call]? = some c ∧ c.stage = .returned reply ∧
    args.judge (reply.map wire.decode) = verdict

/-- The call has returned without the answer. -/
def Attempt.Failed (wire : Wire) (args : Args) (t : Traffic End GoString) (a : Attempt End) :
    Prop :=
  a.Judged wire args t .wrongGroup ∨ a.Judged wire args t .next

/-- An attempt after another: the next server of the group, if the other one had no answer, or the
first server after the controller was asked again. -/
def Attempt.Follows (wire : Wire) (args : Args) (t : Traffic End GoString) (a b : Attempt End) :
    Prop :=
  a.call < b.call ∧
    ((b.si = a.si + 1 ∧ b.config = a.config ∧ a.Judged wire args t .next) ∨
      (b.si = 0 ∧ a.Failed wire args t))

/-- Where an operation stands after its last attempt. -/
def Operation.Stands (wire : Wire) (t : Traffic End GoString) (op : Operation End) : Prop :=
  match op.phase with
  | .asking => ∀ a ∈ op.attempts.getLast?, a.Failed wire op.args t
  | .trying si => ∀ a ∈ op.attempts.getLast?,
      (si = a.si + 1 ∧ op.config = a.config ∧ a.Judged wire op.args t .next) ∨
        (si = 0 ∧ a.Failed wire op.args t)
  | .calling si k => ∃ a ∈ op.attempts.getLast?, a.call = k ∧ a.si = si ∧ a.config = op.config
  | .returned value => ∃ a ∈ op.attempts.getLast?,
      a.config = op.config ∧ a.Judged wire op.args t (.accept value)

structure Operation.Valid (wire : Wire) (t : Traffic End GoString) (op : Operation End) : Prop where
  attempts : ∀ a ∈ op.attempts, a.Valid wire op.args t
  order : op.attempts.IsChain (Attempt.Follows wire op.args t)
  stands : op.Stands wire t

theorem exists_reply_of_accept {wire : Wire} {args : Args} {result : Option GoString}
    {value : GoString} (h : args.judge (result.map wire.decode) = .accept value) :
    ∃ reply, result = some reply := by
  cases result with
  | none => cases args <;> cases h
  | some reply => exact ⟨reply, rfl⟩

theorem Attempt.Follows.failed {wire : Wire} {args : Args} {t : Traffic End GoString}
    {a b : Attempt End} (h : a.Follows wire args t b) : a.Failed wire args t := by
  rcases h.2 with ⟨-, -, hnext⟩ | ⟨-, hfailed⟩
  · exact Or.inr hnext
  · exact hfailed

/-! ## Other steps on the network -/

/-- The end of the attempt is left alone, and its call goes on. -/
structure Attempt.Kept (t t' : Traffic End GoString) (a : Attempt End) : Prop where
  made : t.net.ends a.endname = true → t'.net.ends a.endname = true
  connected : t.net.ends a.endname = true →
    t'.net.connections a.endname = t.net.connections a.endname
  call : ∀ c, t.calls[a.call]? = some c →
    ∃ c', t'.calls[a.call]? = some c' ∧ (c' = c ∨ ∃ e net', c.Step t.net e net' c')

variable {wire : Wire} {args : Args} {t t' : Traffic End GoString} {a b : Attempt End}
  {op : Operation End} {verdict : Verdict}

theorem Attempt.kept_refl (t : Traffic End GoString) (a : Attempt End) : a.Kept t t :=
  ⟨id, fun _ ↦ rfl, fun c hc ↦ ⟨c, hc, Or.inl rfl⟩⟩

theorem Attempt.Valid.kept (ha : a.Valid wire args t) (h : a.Kept t t') :
    a.Valid wire args t' := by
  refine ⟨ha.owner, h.made ha.made, (h.connected ha.made).trans ha.connected, ?_⟩
  obtain ⟨c, hc, hrequest, hlink⟩ := ha.sent
  obtain ⟨c', hc', rfl | ⟨e, net', hstep⟩⟩ := h.call c hc
  · exact ⟨c', hc', hrequest, hlink⟩
  · refine ⟨c', hc', hstep.request_eq.trans hrequest, fun link hlink' ↦ ?_⟩
    rcases hstep.link_cases with heq | heq
    · exact hlink link (heq.symm.trans hlink')
    · -- the end is read now, and is still connected to the server
      rw [heq, hrequest] at hlink'
      have hname := (Network.connections_of_readEndnameInfo hlink').2
      exact (Option.some.inj (ha.connected.symm.trans hname)).symm

theorem Attempt.Judged.kept (ha : a.Judged wire args t verdict) (h : a.Kept t t') :
    a.Judged wire args t' verdict := by
  obtain ⟨c, reply, hc, hstage, hverdict⟩ := ha
  obtain ⟨c', hc', rfl | ⟨e, net', hstep⟩⟩ := h.call c hc
  · exact ⟨c', reply, hc', hstage, hverdict⟩
  · exact ⟨c', reply, hc', hstep.stage_of_returned hstage, hverdict⟩

theorem Attempt.Failed.kept (ha : a.Failed wire args t) (h : a.Kept t t') :
    a.Failed wire args t' :=
  ha.imp (fun ha ↦ ha.kept h) fun ha ↦ ha.kept h

theorem Attempt.Follows.kept (hab : a.Follows wire args t b) (h : a.Kept t t') :
    a.Follows wire args t' b :=
  ⟨hab.1, hab.2.imp (fun ⟨hsi, hconfig, hnext⟩ ↦ ⟨hsi, hconfig, hnext.kept h⟩)
    fun ⟨hsi, hfailed⟩ ↦ ⟨hsi, hfailed.kept h⟩⟩

theorem Operation.Valid.kept (hop : op.Valid wire t) (h : ∀ a ∈ op.attempts, a.Kept t t') :
    op.Valid wire t' := by
  have hlast : ∀ a ∈ op.attempts.getLast?, a.Kept t t' :=
    fun a ha ↦ h a (List.mem_of_mem_getLast? ha)
  refine ⟨fun a ha ↦ (hop.attempts a ha).kept (h a ha), ?_, ?_⟩
  · exact hop.order.imp_of_mem_imp fun a b ha _ hab ↦ hab.kept (h a ha)
  · have hstands := hop.stands
    unfold Operation.Stands at hstands ⊢
    cases hphase : op.phase with
    | asking =>
      rw [hphase] at hstands
      exact fun a ha ↦ (hstands a ha).kept (hlast a ha)
    | trying si =>
      rw [hphase] at hstands
      intro a ha
      exact (hstands a ha).imp (fun ⟨hsi, hconfig, hnext⟩ ↦ ⟨hsi, hconfig, hnext.kept (hlast a ha)⟩)
        fun ⟨hsi, hfailed⟩ ↦ ⟨hsi, hfailed.kept (hlast a ha)⟩
    | calling si k =>
      rw [hphase] at hstands
      exact hstands
    | returned value =>
      rw [hphase] at hstands
      obtain ⟨a, ha, hconfig, haccept⟩ := hstands
      exact ⟨a, ha, hconfig, haccept.kept (hlast a ha)⟩

/-! ## The clerk's own steps -/

namespace Operation.Valid

/-- A new end and a call on it for the server that is next. -/
theorem send (hop : op.Valid wire t') {si : ℕ} {endname : End} {server : GoString}
    (hphase : op.phase = .trying si) (hserver : ownerAt op.config op.args.key si = some server)
    (hmade : t'.net.ends endname = true) (hconnected : t'.net.connections endname = some server)
    (hcalls : t'.calls = t.calls ++
      [Traffic.newCall ⟨endname, op.args.svcMeth, wire.encode op.args⟩])
    (hearlier : ∀ a ∈ op.attempts, a.call < t.calls.length) :
    Operation.Valid wire t' { op with
      phase := .calling si t.calls.length
      attempts := op.attempts ++ [⟨t.calls.length, endname, op.config, si, server⟩] } := by
  have hget : t'.calls[t.calls.length]? =
      some (Traffic.newCall ⟨endname, op.args.svcMeth, wire.encode op.args⟩) := by
    rw [hcalls]
    exact List.getElem?_concat_length
  refine ⟨fun a ha ↦ ?_, ?_, ?_⟩
  · rcases List.mem_append.mp ha with ha | ha
    · exact hop.attempts a ha
    · rw [List.mem_singleton.mp ha]
      exact ⟨hserver, hmade, hconnected, _, hget, rfl, fun link hlink ↦ by cases hlink⟩
  · refine List.isChain_append.mpr ⟨hop.order, .singleton _, fun a ha b hb ↦ ?_⟩
    cases hb
    have hstands := hop.stands
    rw [Operation.Stands, hphase] at hstands
    exact ⟨hearlier a (List.mem_of_mem_getLast? ha), hstands a ha⟩
  · exact ⟨_, List.getLast?_concat, rfl, rfl, rfl⟩

theorem receive (hop : op.Valid wire t) {si k : ℕ} {c : Call End GoString}
    {reply : Option GoString} (hphase : op.phase = .calling si k) (hc : t.calls[k]? = some c)
    (hreply : c.stage = .returned reply) :
    Operation.Valid wire t
      { op with phase := (op.args.judge (reply.map wire.decode)).phase si } := by
  refine ⟨hop.attempts, hop.order, ?_⟩
  have hstands := hop.stands
  rw [Operation.Stands, hphase] at hstands
  obtain ⟨a, ha, rfl, rfl, hconfig⟩ := hstands
  have hjudged : a.Judged wire op.args t (op.args.judge (reply.map wire.decode)) :=
    ⟨c, reply, hc, hreply, rfl⟩
  cases hverdict : op.args.judge (reply.map wire.decode) with
  | accept value => exact ⟨a, ha, hconfig, hverdict ▸ hjudged⟩
  | wrongGroup =>
    intro b hb
    cases Option.mem_unique ha hb
    exact Or.inl (hverdict ▸ hjudged)
  | next =>
    intro b hb
    cases Option.mem_unique ha hb
    exact Or.inl ⟨rfl, hconfig.symm, hverdict ▸ hjudged⟩

theorem configure (hop : op.Valid wire t) (hphase : op.phase = .asking) (config : Config) :
    Operation.Valid wire t { op with config, phase := .trying 0 } := by
  refine ⟨hop.attempts, hop.order, fun a ha ↦ Or.inr ⟨rfl, ?_⟩⟩
  have hstands := hop.stands
  rw [Operation.Stands, hphase] at hstands
  exact hstands a ha

theorem retry (hop : op.Valid wire t) {si : ℕ} (hphase : op.phase = .trying si) :
    Operation.Valid wire t { op with phase := .asking } := by
  refine ⟨hop.attempts, hop.order, fun a ha ↦ ?_⟩
  have hstands := hop.stands
  rw [Operation.Stands, hphase] at hstands
  rcases hstands a ha with ⟨-, -, hnext⟩ | ⟨-, hfailed⟩
  · exact Or.inr hnext
  · exact hfailed

end Operation.Valid

/-! ## Every step keeps the order -/

variable [DecidableEq End]

/-- Others can only make new ends and change ends that are not the clerk's. -/
theorem apply_kept {net net' : Network End GoString} {change : Change End GoString} {endname : End}
    (h : net.apply change = some net') (hother : concerns endname (.change change) = false)
    (hmade : net.ends endname = true) :
    net'.ends endname = true ∧ net'.connections endname = net.connections endname := by
  cases change with
  | makeEnd e =>
    rw [Network.apply, Option.ite_none_left_eq_some] at h
    obtain ⟨hnew, heq⟩ := h
    have hne : endname ≠ e := fun heq ↦ hnew (heq ▸ hmade)
    cases heq
    exact ⟨by simp [hne, hmade], by simp [hne]⟩
  | deleteEnd e =>
    rw [Network.apply, Option.ite_none_right_eq_some] at h
    obtain ⟨-, heq⟩ := h
    have hne : endname ≠ e := fun heq ↦ by simp [concerns, heq] at hother
    cases heq
    exact ⟨by simp [hne, hmade], by simp [hne]⟩
  | connect e name =>
    have hne : endname ≠ e := fun heq ↦ by simp [concerns, heq] at hother
    cases h
    exact ⟨hmade, by simp [hne]⟩
  | makeServer | addService | addServer | deleteServer | enable | setReliable | setLongReordering =>
    cases h
    exact ⟨hmade, rfl⟩
  | cleanup =>
    rw [Network.apply, Option.ite_none_left_eq_some] at h
    cases h.2
    exact ⟨hmade, rfl⟩

theorem Attempt.kept_of_step {event : Labrpc.Event End GoString} (h : t.step event = some t')
    (hother : concerns a.endname event = false) : a.Kept t t' := by
  have hends : t.net.ends a.endname = true → t'.net.ends a.endname = true ∧
      t'.net.connections a.endname = t.net.connections a.endname := by
    intro hmade
    cases Traffic.transition_of_step h with
    | change happly => exact apply_kept happly hother hmade
    | exit | call | stop => exact ⟨hmade, rfl⟩
    | advance _ _ hstep =>
      obtain ⟨hends, -, hconnections⟩ := hstep.ends_eq
      exact ⟨hends ▸ hmade, congrFun hconnections _⟩
  refine ⟨fun hmade ↦ (hends hmade).1, fun hmade ↦ (hends hmade).2, fun c hc ↦ ?_⟩
  obtain ⟨c', hc', hstep⟩ := Traffic.exists_call_of_step h hc
  exact ⟨c', hc', hstep.imp_right fun ⟨e, hstep⟩ ↦ ⟨e, _, hstep⟩⟩

end Attempts

namespace Store

section Runs

variable {End : Type} [DecidableEq End] {wire : Wire} {s t : Store End} {event : StoreEvent End}

/-- Clerks only use the network as any client can. -/
theorem traffic_of_step (h : s.step wire event = some t) :
    (labrpc End GoString).ReachableFrom (fun _ _ ↦ True) s.traffic t.traffic := by
  have hrunning : s.traffic.exited = false := by
    unfold step at h
    rw [Option.ite_none_left_eq_some] at h
    exact Bool.eq_false_iff.mpr h.1
  cases transition_of_step h with
  | network _ hstep | exit hstep => exact .single trivial hstep
  | start | configure | receive | retry => exact .refl
  | @send p si op endname server traffic _ _ _ hfresh htraffic =>
    have hrun : (labrpc End GoString).run s.traffic
        [.change (.makeEnd endname), .change (.connect endname server),
          .change (.enable endname true),
          .call ⟨endname, op.args.svcMeth, wire.encode op.args⟩] = some traffic := by
      rw [htraffic]
      simp [Machine.run, labrpc, Traffic.step, Traffic.isFatal, hrunning, Network.apply, hfresh]
    exact .of_run Machine.permits_true hrun

theorem traffic_reachable (h : (store End wire).Reachable s) :
    (labrpc End GoString).Reachable s.traffic := by
  apply h.invariant (I := fun s ↦ (labrpc End GoString).Reachable s.traffic)
  · exact Machine.ReachableFrom.refl
  · intro s e t hs hstep
    exact Machine.ReachableFrom.trans hs (traffic_of_step hstep)

/-- Every operation is valid. -/
def Valid (wire : Wire) (s : Store End) : Prop := ∀ op ∈ s.operations, op.Valid wire s.traffic

omit [DecidableEq End] in
/-- One operation goes on while the others are kept. -/
theorem Valid.set (hs : s.Valid wire) {traffic : Traffic End GoString} {p : ℕ}
    {op : Operation End} (hop : op.Valid wire traffic)
    (hkept : ∀ op ∈ s.operations, ∀ a ∈ op.attempts, a.Kept s.traffic traffic) :
    Valid wire { traffic, operations := s.operations.set p op } := by
  intro x hx
  rcases List.mem_or_eq_of_mem_set hx with hx | rfl
  · exact (hs x hx).kept (hkept x hx)
  · exact hop

theorem Valid.step (hs : s.Valid wire) (h : s.step wire event = some t) : t.Valid wire := by
  have hsame : ∀ op ∈ s.operations, ∀ a ∈ op.attempts, a.Kept s.traffic s.traffic :=
    fun _ _ a _ ↦ a.kept_refl s.traffic
  cases transition_of_step h with
  | @network event traffic hprivate hstep =>
    intro op hop
    apply (hs op hop).kept
    intro a ha
    apply Attempt.kept_of_step hstep
    by_contra hconcerns
    apply Bool.eq_false_iff.mp hprivate
    exact List.any_eq_true.mpr
      ⟨op, hop, List.any_eq_true.mpr ⟨a, ha, Bool.not_eq_false _ ▸ hconcerns⟩⟩
  | exit =>
    intro op hop
    exact (hs op hop).kept fun a _ ↦ ⟨id, fun _ ↦ rfl, fun c hc ↦ ⟨c, hc, Or.inl rfl⟩⟩
  | start args =>
    intro op hop
    rcases List.mem_append.mp hop with hop | hop
    · exact hs op hop
    · rw [List.mem_singleton.mp hop]
      exact ⟨fun a ha ↦ absurd ha List.not_mem_nil, .nil, fun a ha ↦ by cases ha⟩
  | configure hp config hphase =>
    exact hs.set ((hs _ (List.mem_of_getElem? hp)).configure hphase config) hsame
  | @send p si op endname server traffic hp hphase hserver hfresh htraffic =>
    have hkept : ∀ op ∈ s.operations, ∀ a ∈ op.attempts, a.Kept s.traffic traffic := by
      intro op hop a ha
      have hne : a.endname ≠ endname := by
        intro heq
        rw [← heq, ((hs op hop).attempts a ha).made] at hfresh
        cases hfresh
      rw [htraffic]
      refine ⟨fun hmade ↦ by simp [hne, hmade], fun _ ↦ by simp [hne], fun c hc ↦ ?_⟩
      exact ⟨c, Lists.getElem?_concat_eq_some.mpr (Or.inl hc), Or.inl rfl⟩
    have hop := hs op (List.mem_of_getElem? hp)
    refine hs.set (((hop.kept (hkept op (List.mem_of_getElem? hp))).send hphase hserver ?_ ?_ ?_
      fun a ha ↦ ?_)) hkept
    · rw [htraffic]
      exact Function.update_self ..
    · rw [htraffic]
      exact Function.update_self ..
    · rw [htraffic]
    · obtain ⟨c, hc, -⟩ := (hop.attempts a ha).sent
      exact (List.getElem?_eq_some_iff.mp hc).1
  | receive hp hphase hc hreply =>
    exact hs.set ((hs _ (List.mem_of_getElem? hp)).receive hphase hc hreply) hsame
  | retry hp hphase => exact hs.set ((hs _ (List.mem_of_getElem? hp)).retry hphase) hsame

theorem valid_of_reachable (h : (store End wire).Reachable s) : s.Valid wire := by
  apply h.invariant (I := Valid wire)
  · exact fun op hop ↦ absurd hop List.not_mem_nil
  · exact fun s e t hs hstep ↦ hs.step hstep

/-! ## Executions -/

/-- **Operations are executed by the owner.** Whenever `Get`, `Put` or `Append` has returned, its
last request was executed exactly once, by a server that the configuration which the clerk used last
lists for the group of the key's shard, and the value is from the reply of that execution.  Every
earlier request of the operation failed or was refused. -/
theorem returned_executed (h : (store End wire).Reachable s) {op : Operation End}
    (hop : op ∈ s.operations) {value : GoString} (hreturned : op.phase = .returned value) :
    ∃ earlier last c link reply, op.attempts = earlier ++ [last] ∧
      ownerAt op.config op.args.key last.si = some link.name ∧
      s.traffic.calls[last.call]? = some c ∧
      c.request = ⟨last.endname, op.args.svcMeth, wire.encode op.args⟩ ∧
      (s.traffic.log.filter fun entry ↦ entry.1 = last.call) = [(last.call, link.server)] ∧
      c.link = some link ∧ c.dispatch = .finished reply ∧
      op.args.judge (some (wire.decode reply)) = .accept value ∧
      ∀ a ∈ earlier, a.Failed wire op.args s.traffic := by
  have hvalid := valid_of_reachable h op hop
  have htraffic := traffic_reachable h
  have hstands := hvalid.stands
  rw [Operation.Stands, hreturned] at hstands
  obtain ⟨last, hlast, hconfig, c, result, hc, hstage, hverdict⟩ := hstands
  obtain ⟨earlier, hattempts⟩ := List.getLast?_eq_some_iff.mp hlast
  have hmem : last ∈ op.attempts := List.mem_of_mem_getLast? hlast
  obtain ⟨reply, rfl⟩ := exists_reply_of_accept hverdict
  have hfinished := (Traffic.valid_of_reachable htraffic c (List.mem_of_getElem? hc)).received reply
    (by rw [hstage]; rfl)
  obtain ⟨link, hlink, hlog⟩ := Traffic.mem_log_of_isInvoked htraffic hc (by rw [hfinished]; rfl)
  obtain ⟨c', hc', hrequest, hname⟩ := (hvalid.attempts last hmem).sent
  cases hc.symm.trans hc'
  refine ⟨earlier, last, c, link, reply, hattempts, ?_, hc, hrequest, ?_, hlink, hfinished,
    hverdict, fun a ha ↦ ?_⟩
  · rw [← hconfig, hname link hlink]
    exact (hvalid.attempts last hmem).owner
  · exact Lists.filter_key_eq_singleton (Traffic.once_of_reachable htraffic).nodup hlog
  · have horder := hvalid.order
    rw [hattempts] at horder
    obtain ⟨b, hab⟩ := Lists.exists_rel_of_isChain_concat horder ha
    exact hab.failed

/-- A codec for short tests: the first byte of a reply is its error. -/
def sampleWire : Wire where
  encode args := args.key
  decode
    | [] => ⟨.other [], []⟩
    | byte :: value =>
      ⟨if byte = 0 then .ok else if byte = 1 then .errWrongGroup else .errWrongLeader, value⟩

/-- One group of two servers for all shards. -/
def sampleConfig : Config :=
  { num := 1, shards := fun _ ↦ 100, groups := some [(100, [ascii "a", ascii "b"])] }

/-- Two servers, and a `Get` that asks both of them. -/
def sampleGet : List (StoreEvent ℕ) :=
  let service : Service := ⟨ascii "ShardKV", [ascii "Get", ascii "PutAppend"]⟩
  let answer (k : ℕ) (reply : GoString) : List (StoreEvent ℕ) :=
    [CallEvent.accept, .countCall, .countArgs, .read, .launch, .dispatch, .enter, .reply reply,
      .takeReply, .check, .forward, .deliver].map fun e ↦ .network (.advance k e)
  [.network (.change .makeServer), .network (.change (.addService 0 service)),
    .network (.change (.addServer (ascii "a") 0)), .network (.change .makeServer),
    .network (.change (.addService 1 service)), .network (.change (.addServer (ascii "b") 1)),
    .start (.get [65] 7 1), .configure 0 sampleConfig, .send 0 0] ++ answer 0 [2] ++
  [.receive 0, .send 0 1] ++ answer 1 [0, 42] ++ [.receive 0]

/-- The first server is not the leader, and the second one answers. -/
theorem returned_executed_sample :
    ∃ s : Store ℕ, (store ℕ sampleWire).Reachable s ∧ ∃ op ∈ s.operations,
      op.phase = .returned [42] ∧ ∃ earlier last, op.attempts = earlier ++ [last] ∧
        ∀ a ∈ earlier, a.Failed sampleWire op.args s.traffic := by
  have hrun : ∃ s : Store ℕ, (store ℕ sampleWire).Reachable s ∧
      s.operations.map Operation.phase = [.returned [42]] :=
    Machine.exists_reachable sampleGet (by decide)
  obtain ⟨s, hs, hphases⟩ := hrun
  have hmem : Phase.returned [42] ∈ s.operations.map Operation.phase := by simp [hphases]
  obtain ⟨op, hop, hreturned⟩ := List.mem_map.mp hmem
  obtain ⟨earlier, last, -, -, -, hattempts, -, -, -, -, -, -, -, hfailed⟩ :=
    returned_executed hs hop hreturned
  exact ⟨s, hs, op, hop, hreturned, earlier, last, hattempts, hfailed⟩

/-- **Executions are for the operation.** However often an operation is tried, every attempt makes a
call of its own, which is executed at most once, all with the same arguments, each by a server that
the configuration of its attempt lists for the group of the key's shard.  The attempts follow the
order of the group. -/
theorem executed_for_operation (h : (store End wire).Reachable s) {op : Operation End}
    (hop : op ∈ s.operations) :
    op.attempts.IsChain (Attempt.Follows wire op.args s.traffic) ∧
      (op.attempts.map Attempt.call).Nodup ∧
      (∀ a ∈ op.attempts, (s.traffic.log.filter fun entry ↦ entry.1 = a.call).length ≤ 1) ∧
      ∀ a ∈ op.attempts, ∀ server, (a.call, server) ∈ s.traffic.log →
        ∃ c link, s.traffic.calls[a.call]? = some c ∧
          c.request = ⟨a.endname, op.args.svcMeth, wire.encode op.args⟩ ∧
          c.link = some link ∧ link.server = server ∧
          ownerAt a.config op.args.key a.si = some link.name := by
  have hvalid := valid_of_reachable h op hop
  have honce := Traffic.once_of_reachable (traffic_reachable h)
  refine ⟨hvalid.order, ?_, fun a _ ↦ ?_, fun a ha server hlog ↦ ?_⟩
  · have hcalls : (op.attempts.map Attempt.call).IsChain (· < ·) :=
      (List.isChain_map _).mpr (hvalid.order.imp fun a b hab ↦ hab.1)
    exact hcalls.pairwise.imp fun hlt ↦ hlt.ne
  · have hcount := List.nodup_iff_count_le_one.mp honce.nodup a.call
    rw [List.count, List.countP_map, List.countP_eq_length_filter] at hcount
    simpa [Traffic.abs, Function.comp_def, beq_eq_decide] using hcount
  · obtain ⟨c, hc, hrequest, hname⟩ := (hvalid.attempts a ha).sent
    obtain ⟨r, hr, hinvoked⟩ := (honce.mem_log a.call server).mp hlog
    simp only [Traffic.abs, List.getElem?_map, hc, Option.map_some, Option.some.injEq] at hr
    rw [← hr] at hinvoked
    simp only [Call.abs] at hinvoked
    rw [Option.ite_none_right_eq_some, Option.map_eq_some_iff] at hinvoked
    obtain ⟨-, link, hlink, hserver⟩ := hinvoked
    refine ⟨c, link, hc, hrequest, hlink, hserver, ?_⟩
    rw [hname link hlink]
    exact (hvalid.attempts a ha).owner

/-- Both requests of the `Get` were executed. -/
theorem executed_for_operation_sample :
    ∃ s : Store ℕ, (store ℕ sampleWire).Reachable s ∧ s.traffic.log = [(0, 0), (1, 1)] ∧
      ∃ op ∈ s.operations, op.attempts.map Attempt.call = [0, 1] ∧
        (op.attempts.map Attempt.call).Nodup ∧
        op.attempts.IsChain (Attempt.Follows sampleWire op.args s.traffic) := by
  have hrun : ∃ s : Store ℕ, (store ℕ sampleWire).Reachable s ∧
      s.traffic.log = [(0, 0), (1, 1)] ∧
      (s.operations.map fun op ↦ op.attempts.map Attempt.call) = [[0, 1]] :=
    Machine.exists_reachable sampleGet (by decide)
  obtain ⟨s, hs, hlog, hcalls⟩ := hrun
  have hmem : [0, 1] ∈ s.operations.map fun op ↦ op.attempts.map Attempt.call := by simp [hcalls]
  obtain ⟨op, hop, hattempts⟩ := List.mem_map.mp hmem
  obtain ⟨horder, hnodup, -⟩ := executed_for_operation hs hop
  exact ⟨s, hs, hlog, op, hop, hattempts, hnodup, horder⟩

end Runs

end Store

end DistKvRaft.ShardKV
