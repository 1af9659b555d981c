import DistKvRaft.Labrpc.Calls
import DistKvRaft.ShardCtrler.Server

/-!
# Key/value clerks on the network

A clerk asks the controller for the configuration, tries the servers of the group that has the shard
of its key one after another, and asks again when a server says that the group is the wrong one or
when no server is left.  It does so until a server answers.  Here any number of clerks run over the
simulated network, in any interleaving with all other traffic.  What the controller answers is up to
the events, and so is what the servers do.

`make_end` is the function that the tests pass: it makes an end under a random name, connects and
enables it.  Nobody else has the name, so this is one step with the call that follows.
-/

namespace DistKvRaft.ShardKV

open Go Labrpc
open ShardCtrler (Config ClientId Time nShards)

/-! ## Requests and replies -/

/-- The constants of `Err`; any other string, the empty one included, is `other`. -/
inductive Err
  | ok
  | errNoKey
  | errWrongGroup
  | errWrongLeader
  | errWrongVersion
  | errNotReady
  | other (text : GoString)
  deriving DecidableEq

/-- What a clerk reads of `GetReply` and `PutAppendReply`; the latter has no value. -/
structure Reply where
  err : Err
  value : GoString

inductive PutOp
  | put
  | append

/-- `GetArgs` and `PutAppendArgs`. -/
inductive Args
  | get (key : GoString) (clientId : ClientId) (timeStamp : Time)
  | putAppend (key value : GoString) (op : PutOp) (clientId : ClientId) (timeStamp : Time)

namespace Args

def key : Args → GoString
  | .get key _ _ | .putAppend key _ _ _ _ => key

def clientId : Args → ClientId
  | .get _ clientId _ | .putAppend _ _ _ clientId _ => clientId

def svcMeth : Args → GoString
  | .get .. => ascii "ShardKV.Get"
  | .putAppend .. => ascii "ShardKV.PutAppend"

end Args

/-- How `labgob` puts the arguments into a request and reads a reply. -/
structure Wire where
  encode : Args → GoString
  decode : GoString → Reply

/-- What a clerk does after a call. -/
inductive Verdict
  /-- return the value -/
  | accept (value : GoString)
  /-- ask for another configuration -/
  | wrongGroup
  /-- try the next server -/
  | next
  deriving DecidableEq

def Args.judge : Args → Option Reply → Verdict
  | _, none => .next
  | .get .., some reply =>
    if reply.err = .ok ∨ reply.err = .errNoKey then .accept reply.value
    else if reply.err = .errWrongGroup then .wrongGroup
    else .next
  | .putAppend .., some reply =>
    if reply.err = .ok then .accept []
    else if reply.err = .errWrongGroup then .wrongGroup
    else .next

def key2shard (key : GoString) : Fin nShards :=
  ⟨(match key with
    | [] => 0
    | byte :: _ => byte.val) % nShards, Nat.mod_lt _ (by decide)⟩

/-- The server at place `si` of the group that has the shard of the key, if there is one. -/
def ownerAt (config : Config) (key : GoString) (si : ℕ) : Option GoString :=
  ((config.groups.getD []).lookup (config.shards (key2shard key))).bind fun servers ↦ servers[si]?

/-! ## Clerks -/

/-- Where `Get` or `PutAppend` stands. -/
inductive Phase
  /-- in `Query`, at first or after a pause -/
  | asking
  | trying (si : ℕ)
  /-- in the call that has this number on the network -/
  | calling (si call : ℕ)
  | returned (value : GoString)
  deriving DecidableEq

def Phase.isReturned : Phase → Bool
  | .returned _ => true
  | _ => false

def Verdict.phase (si : ℕ) : Verdict → Phase
  | .accept value => .returned value
  | .wrongGroup => .asking
  | .next => .trying (si + 1)

/-- A call to the server at place `si` of the group, according to `config`. -/
structure Attempt (End : Type) where
  call : ℕ
  endname : End
  config : Config
  si : ℕ
  server : GoString

/-- A call of `Get`, `Put` or `Append`, with what it has tried so far. -/
structure Operation (End : Type) where
  args : Args
  config : Config
  phase : Phase
  attempts : List (Attempt End)

namespace Operation

variable {End : Type}

/-- `Call` has returned. -/
def receive (wire : Wire) (calls : List (Call End GoString)) (op : Operation End) :
    Option (Operation End) :=
  match op.phase with
  | .calling si k =>
    (calls[k]?).bind fun c ↦
      match c.stage with
      | .returned reply =>
        some { op with phase := (op.args.judge (reply.map wire.decode)).phase si }
      | _ => none
  | _ => none

/-- No server is left, or the configuration does not have the group. -/
def retry (op : Operation End) : Option (Operation End) :=
  match op.phase with
  | .trying si =>
    match ownerAt op.config op.args.key si with
    | none => some { op with phase := .asking }
    | some _ => none
  | _ => none

end Operation

/-- All operations of all clerks, over the network. -/
structure Store (End : Type) where
  traffic : Traffic End GoString
  operations : List (Operation End)

inductive StoreEvent (End : Type)
  /-- anything else on the network -/
  | network (event : Labrpc.Event End GoString)
  | start (args : Args)
  /-- `Query` returns -/
  | configure (p : ℕ) (config : Config)
  | send (p : ℕ) (endname : End)
  /-- `Call` has returned -/
  | receive (p : ℕ)
  /-- no server is left -/
  | retry (p : ℕ)

/-- The event names the end. -/
def concerns {End Name : Type} [DecidableEq End] (endname : End) : Labrpc.Event End Name → Bool
  | .change (.deleteEnd e) | .change (.connect e _) | .change (.enable e _) => e = endname
  | .call request => request.endname = endname
  | _ => false

/-- The function `make_end` that the tests pass; `none` where the process ends. -/
def makeEnd {End : Type} [DecidableEq End] (net : Network End GoString) (endname : End)
    (servername : GoString) : Option (Network End GoString) :=
  (net.apply (.makeEnd endname)).bind fun net ↦
    (net.apply (.connect endname servername)).bind fun net ↦ net.apply (.enable endname true)

namespace Store

section Model

variable {End : Type} [DecidableEq End] (wire : Wire) (s : Store End)

/-- An operation of the clerk has not returned. -/
def isBusy (clientId : ClientId) : Bool :=
  s.operations.any fun op ↦ op.args.clientId = clientId ∧ op.phase.isReturned = false

/-- The event names an end that a clerk has made. -/
def isPrivate (event : Labrpc.Event End GoString) : Bool :=
  s.operations.any fun op ↦ op.attempts.any fun a ↦ concerns a.endname event

/-- `make_end` for the server at place `si`, and the call. -/
def send (p : ℕ) (op : Operation End) (endname : End) : Option (Store End) :=
  match op.phase with
  | .trying si =>
    (ownerAt op.config op.args.key si).map fun server ↦
      match makeEnd s.traffic.net endname server with
      | none => { s with traffic := s.traffic.exit }
      | some net =>
        { traffic := { s.traffic with
            net
            calls := s.traffic.calls ++
              [Traffic.newCall ⟨endname, op.args.svcMeth, wire.encode op.args⟩] }
          operations := s.operations.set p { op with
            phase := .calling si s.traffic.calls.length
            attempts := op.attempts ++
              [⟨s.traffic.calls.length, endname, op.config, si, server⟩] } }
  | _ => none

def step (event : StoreEvent End) : Option (Store End) :=
  if s.traffic.exited then none
  else match event with
    | .network event =>
      if s.isPrivate event then none
      else (s.traffic.step event).map fun traffic ↦ { s with traffic }
    | .start args =>
      if s.isBusy args.clientId then none
      else some { s with operations := s.operations ++ [⟨args, Config.zero, .asking, []⟩] }
    | .configure p config =>
      (s.operations[p]?).bind fun op ↦
        if op.phase = .asking then
          some { s with operations := s.operations.set p { op with config, phase := .trying 0 } }
        else none
    | .send p endname => (s.operations[p]?).bind fun op ↦ s.send wire p op endname
    | .receive p =>
      (s.operations[p]?).bind fun op ↦ (op.receive wire s.traffic.calls).map fun op ↦
        { s with operations := s.operations.set p op }
    | .retry p =>
      (s.operations[p]?).bind fun op ↦ op.retry.map fun op ↦
        { s with operations := s.operations.set p op }

end Model

end Store

/-- The machine of clerks on a network. -/
def store (End : Type) [DecidableEq End] (wire : Wire) : Machine (Store End) (StoreEvent End) :=
  ⟨⟨Traffic.initial, []⟩, Store.step wire⟩

/-! ## What a step can do -/

section Steps

variable {End : Type} [DecidableEq End]

theorem makeEnd_eq (net : Network End GoString) (endname : End) (server : GoString) :
    makeEnd net endname server =
      if net.ends endname then none
      else some { net with
        ends := Function.update net.ends endname true
        enabled := Function.update net.enabled endname true
        connections := Function.update net.connections endname (some server) } := by
  unfold makeEnd
  rw [Network.apply]
  split_ifs
  · rfl
  · simp [Network.apply]

namespace Store

/-- The steps of the machine, one case for each outcome. -/
inductive Transition (wire : Wire) (s : Store End) : StoreEvent End → Store End → Prop
  | network {event : Labrpc.Event End GoString} {traffic : Traffic End GoString}
      (hprivate : s.isPrivate event = false) (h : s.traffic.step event = some traffic) :
      Transition wire s (.network event) { s with traffic }
  | exit {event : StoreEvent End} {change : Labrpc.Event End GoString}
      (h : s.traffic.step change = some s.traffic.exit) :
      Transition wire s event { s with traffic := s.traffic.exit }
  | start (args : Args) :
      Transition wire s (.start args)
        { s with operations := s.operations ++ [⟨args, Config.zero, .asking, []⟩] }
  | configure {p : ℕ} {op : Operation End} (hp : s.operations[p]? = some op) (config : Config)
      (h : op.phase = .asking) :
      Transition wire s (.configure p config)
        { s with operations := s.operations.set p { op with config, phase := .trying 0 } }
  | send {p si : ℕ} {op : Operation End} {endname : End} {server : GoString}
      {traffic : Traffic End GoString} (hp : s.operations[p]? = some op)
      (h : op.phase = .trying si) (hserver : ownerAt op.config op.args.key si = some server)
      (hfresh : s.traffic.net.ends endname = false)
      (htraffic : traffic = { s.traffic with
        net := { s.traffic.net with
          ends := Function.update s.traffic.net.ends endname true
          enabled := Function.update s.traffic.net.enabled endname true
          connections := Function.update s.traffic.net.connections endname (some server) }
        calls := s.traffic.calls ++
          [Traffic.newCall ⟨endname, op.args.svcMeth, wire.encode op.args⟩] }) :
      Transition wire s (.send p endname)
        { traffic
          operations := s.operations.set p { op with
            phase := .calling si s.traffic.calls.length
            attempts := op.attempts ++
              [⟨s.traffic.calls.length, endname, op.config, si, server⟩] } }
  | receive {p si k : ℕ} {op : Operation End} {c : Call End GoString} {reply : Option GoString}
      (hp : s.operations[p]? = some op) (h : op.phase = .calling si k)
      (hc : s.traffic.calls[k]? = some c) (hreply : c.stage = .returned reply) :
      Transition wire s (.receive p) { s with
        operations := s.operations.set p
          { op with phase := (op.args.judge (reply.map wire.decode)).phase si } }
  | retry {p si : ℕ} {op : Operation End} (hp : s.operations[p]? = some op)
      (h : op.phase = .trying si) (hserver : ownerAt op.config op.args.key si = none) :
      Transition wire s (.retry p)
        { s with operations := s.operations.set p { op with phase := .asking } }

variable {wire : Wire} {s t : Store End} {event : StoreEvent End}

theorem transition_of_send {p : ℕ} {op : Operation End} {endname : End}
    (hrunning : s.traffic.exited = false) (hp : s.operations[p]? = some op)
    (h : s.send wire p op endname = some t) : Transition wire s (.send p endname) t := by
  unfold send at h
  split at h
  · next si hphase =>
    obtain ⟨server, hserver, heq⟩ := Option.map_eq_some_iff.mp h
    rw [makeEnd_eq] at heq
    by_cases hends : s.traffic.net.ends endname = true
    · rw [if_pos hends] at heq
      subst heq
      have hexit : s.traffic.step (.change (.makeEnd endname)) = some s.traffic.exit := by
        simp [Traffic.step, Traffic.isFatal, hrunning, Network.apply, hends]
      exact .exit hexit
    · rw [if_neg hends] at heq
      subst heq
      exact .send hp hphase hserver (Bool.eq_false_iff.mpr hends) rfl
  · cases h

theorem transition_of_step (h : s.step wire event = some t) : Transition wire s event t := by
  unfold step at h
  rw [Option.ite_none_left_eq_some] at h
  obtain ⟨hrunning, h⟩ := h
  cases event with
  | network event =>
    dsimp only at h
    rw [Option.ite_none_left_eq_some] at h
    obtain ⟨traffic, htraffic, rfl⟩ := Option.map_eq_some_iff.mp h.2
    exact .network (Bool.eq_false_iff.mpr h.1) htraffic
  | start args =>
    dsimp only at h
    rw [Option.ite_none_left_eq_some] at h
    cases h.2
    exact .start args
  | configure p config =>
    obtain ⟨op, hp, hop⟩ := Option.bind_eq_some_iff.mp h
    rw [Option.ite_none_right_eq_some] at hop
    cases hop.2
    exact .configure hp config hop.1
  | send p endname =>
    obtain ⟨op, hp, hop⟩ := Option.bind_eq_some_iff.mp h
    exact transition_of_send (Bool.eq_false_iff.mpr hrunning) hp hop
  | receive p =>
    obtain ⟨op, hp, hop⟩ := Option.bind_eq_some_iff.mp h
    obtain ⟨op', hreceive, rfl⟩ := Option.map_eq_some_iff.mp hop
    unfold Operation.receive at hreceive
    split at hreceive
    · next si k hphase =>
      obtain ⟨c, hc, hstage⟩ := Option.bind_eq_some_iff.mp hreceive
      split at hstage
      · next reply hreply =>
        cases hstage
        exact .receive hp hphase hc hreply
      · cases hstage
    · cases hreceive
  | retry p =>
    obtain ⟨op, hp, hop⟩ := Option.bind_eq_some_iff.mp h
    obtain ⟨op', hretry, rfl⟩ := Option.map_eq_some_iff.mp hop
    unfold Operation.retry at hretry
    split at hretry
    · next si hphase =>
      split at hretry
      · next hserver =>
        cases hretry
        exact .retry hp hphase hserver
      · cases hretry
    · cases hretry

end Store

end Steps

end DistKvRaft.ShardKV
