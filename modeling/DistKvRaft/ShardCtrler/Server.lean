import DistKvRaft.Foundation.Watermark
import DistKvRaft.Go.Strings
import Mathlib.Data.Fintype.Pi
import Mathlib.Data.Int.Order.Basic

/-!
# The shard controller's apply loop

The controller keeps a list of numbered configurations and one timestamp per client.  Its loop
`runShardCtrler` takes messages from Raft one by one.  A message that carries an `Op` and is valid
goes through the duplicate filter: the Op reaches its handler only when the client has no
timestamp in `cache` yet or the Op's timestamp is strictly later.  Executed or not, the Op is then
sent on the channel of its index.

The bodies of `handleJoin`, `handleLeave`, `handleMove` and `handleQuery` are not in the
repository.  They enter as a parameter: the first three compute the new list of configurations
from the old one and the arguments in the Op, the last one computes the configuration that is
stored in the Op's reply.  The comments in `common.go` and the code in `README.md` say more about
them; that part is the hypothesis `Handlers.Documented`, named where it is needed.

Timestamps are wall-clock values.  A map that is present is its list of entries, and the nil map
is kept apart from the empty one.
-/

namespace DistKvRaft.ShardCtrler

open Go (GoString ascii)

/-- The number of shards. -/
def nShards : ℕ := 10

/-- An `int64` client id. -/
abbrev ClientId := ℤ

/-- A wall-clock reading. -/
abbrev Time := ℤ

/-- A `map[int][]string` from group ids to server names, as its entries. -/
abbrev Groups := List (ℤ × List GoString)

/-- An assignment of shards to groups; `groups` is `none` for a nil map. -/
structure Config where
  num : ℤ
  shards : Fin nShards → ℤ
  groups : Option Groups
  deriving DecidableEq

/-- Go's zero value of a configuration. -/
def Config.zero : Config := { num := 0, shards := fun _ ↦ 0, groups := none }

/-- A command as it travels through Raft; the reply of a query travels in it too. -/
structure Op where
  command : GoString
  argsJoin : Groups
  argsLeave : List ℤ
  argsMoveShard : ℤ
  argsMoveGid : ℤ
  argsQuery : ℤ
  replyQuery : Config
  clientId : ClientId
  timeStamp : Time
  deriving DecidableEq

/-- A message on `applyCh`; `command` is `none` when it does not hold an `Op`. -/
structure ApplyMsg where
  commandValid : Bool
  command : Option Op
  commandIndex : ℕ
  deriving DecidableEq

/-- The Op of a message that gets past the type assertion and the test of `CommandValid`. -/
def ApplyMsg.validOp (msg : ApplyMsg) : Option Op :=
  if msg.commandValid then msg.command else none

/-- The command handlers, whose bodies the repository does not show. -/
structure Handlers where
  handleJoin : List Config → Groups → List Config
  handleLeave : List Config → List ℤ → List Config
  handleMove : List Config → ℤ → ℤ → List Config
  handleQuery : List Config → ℤ → Config

/-- A handler's result adds one configuration with the next number. -/
def Extends (configs configs' : List Config) : Prop :=
  ∀ latest, configs.getLast? = some latest →
    ∃ new, configs' = configs ++ [new] ∧ new.num = latest.num + 1

/-- The documented behaviour of the handlers: a join, leave or move generates a new, numbered
configuration, and a query fetches one of the configurations. -/
structure Handlers.Documented (h : Handlers) : Prop where
  join : ∀ configs servers, Extends configs (h.handleJoin configs servers)
  leave : ∀ configs gids, Extends configs (h.handleLeave configs gids)
  move : ∀ configs shard gid, Extends configs (h.handleMove configs shard gid)
  query : ∀ configs num, configs ≠ [] → h.handleQuery configs num ∈ configs

/-- Append the latest configuration with the next number, changed by `f`. -/
def appendConfig (configs : List Config) (f : Config → Config) : List Config :=
  match configs.getLast? with
  | none => configs
  | some latest => configs ++ [{ f latest with num := latest.num + 1 }]

/-- Handlers that do what the comments ask for, without spreading the shards over the groups. -/
def sampleHandlers : Handlers where
  handleJoin configs servers := appendConfig configs fun latest ↦
    { latest with groups := latest.groups.map (· ++ servers) }
  handleLeave configs gids := appendConfig configs fun latest ↦
    { latest with groups := latest.groups.map (·.filter fun group ↦ group.1 ∉ gids) }
  handleMove configs shard gid := appendConfig configs fun latest ↦
    { latest with shards := fun i ↦ if (i : ℤ) = shard then gid else latest.shards i }
  handleQuery configs num :=
    match configs.find? (·.num = num) with
    | some config => config
    | none => configs.getLastD Config.zero

theorem extends_appendConfig (configs : List Config) (f : Config → Config) :
    Extends configs (appendConfig configs f) := by
  intro latest hlatest
  simp [appendConfig, hlatest]

theorem documented_sampleHandlers : sampleHandlers.Documented where
  join _ _ := extends_appendConfig _ _
  leave _ _ := extends_appendConfig _ _
  move _ _ _ := extends_appendConfig _ _
  query configs num hne := by
    dsimp only [sampleHandlers]
    split
    next config hfind => exact List.mem_of_find?_eq_some hfind
    next => rw [List.getLastD_eq_getLast?, List.getLast?_eq_getLast_of_ne_nil hne]; simp

/-- The part of `ShardCtrler` that the apply loop owns. -/
structure Server where
  configs : List Config
  cache : ClientId → Option Time

/-- The state `StartServer` sets up: one configuration without groups, and no timestamps. -/
def startServer : Server :=
  { configs := [{ num := 0, shards := fun _ ↦ 0, groups := some [] }], cache := fun _ ↦ none }

/-- The duplicate test of the loop: no timestamp is known, or the Op's one is after it. -/
def Server.isNew (s : Server) (op : Op) : Bool :=
  match s.cache op.clientId with
  | none => true
  | some lastTime => decide (lastTime < op.timeStamp)

/-- A call of one of the four handlers, with what it reads of the Op. -/
inductive HandlerCall
  | join (servers : Groups)
  | leave (gids : List ℤ)
  | move (shard gid : ℤ)
  | query (num : ℤ)
  deriving DecidableEq

/-- What the switch over `op.Command` comes to: the handler it called, if any, the configurations
after it, and the Op as the handler leaves it. -/
structure Dispatched where
  handler : Option HandlerCall
  configs : List Config
  op : Op

/-- The switch over `op.Command`.  It has no default, so for any other command nothing is called. -/
def Handlers.dispatch (h : Handlers) (configs : List Config) (op : Op) : Dispatched :=
  if op.command = ascii "Join" then
    ⟨some (.join op.argsJoin), h.handleJoin configs op.argsJoin, op⟩
  else if op.command = ascii "Leave" then
    ⟨some (.leave op.argsLeave), h.handleLeave configs op.argsLeave, op⟩
  else if op.command = ascii "Move" then
    ⟨some (.move op.argsMoveShard op.argsMoveGid),
      h.handleMove configs op.argsMoveShard op.argsMoveGid, op⟩
  else if op.command = ascii "Query" then
    ⟨some (.query op.argsQuery), configs,
      { op with replyQuery := h.handleQuery configs op.argsQuery }⟩
  else ⟨none, configs, op⟩

/-- What the loop does with a valid Op while it holds the lock: the new state, the Op it then sends
on the index channel, and the handler it called. -/
def Server.applyOp (h : Handlers) (s : Server) (op : Op) : Server × Op × Option HandlerCall :=
  if s.isNew op then
    let result := h.dispatch s.configs op
    ({ configs := result.configs
       cache := Function.update s.cache op.clientId (some op.timeStamp) }, result.op,
      result.handler)
  else (s, op, none)

/-- What a message leads to: the Op sent on which index channel, and the handler that was called. -/
structure Delivery where
  index : ℕ
  op : Op
  handler : Option HandlerCall
  deriving DecidableEq

/-- One round of `runShardCtrler`.  A message without an Op is skipped, an invalid one is only
logged. -/
def Server.receive (h : Handlers) (s : Server) (msg : ApplyMsg) : Server × Option Delivery :=
  match msg.command with
  | none => (s, none)
  | some op =>
    if msg.commandValid then
      let result := s.applyOp h op
      (result.1, some { index := msg.commandIndex, op := result.2.1, handler := result.2.2 })
    else (s, none)

/-- The server after `runShardCtrler` has received the messages, in order. -/
def stateAfter (h : Handlers) (msgs : List ApplyMsg) : Server :=
  msgs.foldl (fun s msg ↦ (s.receive h msg).1) startServer

/-- What the loop does with the message that follows `earlier`. -/
def deliveryAfter (h : Handlers) (earlier : List ApplyMsg) (msg : ApplyMsg) : Option Delivery :=
  ((stateAfter h earlier).receive h msg).2

/-- The client and timestamp of every valid Op of a sequence of messages. -/
def stamps (msgs : List ApplyMsg) : List (ClientId × Time) :=
  (msgs.filterMap ApplyMsg.validOp).map fun op ↦ (op.clientId, op.timeStamp)

/-- The Op's timestamp is strictly after those of all valid Ops of its client in `earlier`. -/
abbrev IsLatest (earlier : List ApplyMsg) (op : Op) : Prop :=
  Watermark.Fresh (stamps earlier) op.clientId op.timeStamp

/-! ## Handlers that are run -/

/-- The commands that have a handler. -/
def handledCommands : List GoString := [ascii "Join", ascii "Leave", ascii "Move", ascii "Query"]

/-- What it is to run the handler of an Op on the configurations: the call, the configurations
after it, and the Op after it. -/
inductive HandlerRun (h : Handlers) (op : Op) (configs : List Config) :
    HandlerCall → List Config → Op → Prop
  | join (hcommand : op.command = ascii "Join") :
      HandlerRun h op configs (.join op.argsJoin) (h.handleJoin configs op.argsJoin) op
  | leave (hcommand : op.command = ascii "Leave") :
      HandlerRun h op configs (.leave op.argsLeave) (h.handleLeave configs op.argsLeave) op
  | move (hcommand : op.command = ascii "Move") :
      HandlerRun h op configs (.move op.argsMoveShard op.argsMoveGid)
        (h.handleMove configs op.argsMoveShard op.argsMoveGid) op
  | query (hcommand : op.command = ascii "Query") :
      HandlerRun h op configs (.query op.argsQuery) configs
        { op with replyQuery := h.handleQuery configs op.argsQuery }

section Dispatch

variable {h : Handlers} {configs : List Config} {op : Op}

/-- The switch runs the handler that the command names. -/
theorem handlerRun_of_dispatch {call : HandlerCall}
    (hcall : (h.dispatch configs op).handler = some call) :
    HandlerRun h op configs call (h.dispatch configs op).configs (h.dispatch configs op).op := by
  unfold Handlers.dispatch at hcall ⊢
  split_ifs at hcall ⊢ with hjoin hleave hmove hquery
  · cases hcall
    exact .join hjoin
  · cases hcall
    exact .leave hleave
  · cases hcall
    exact .move hmove
  · cases hcall
    exact .query hquery

/-- The switch calls a handler for four commands only. -/
theorem exists_handler_iff :
    (∃ call, (h.dispatch configs op).handler = some call) ↔ op.command ∈ handledCommands := by
  unfold Handlers.dispatch
  simp only [handledCommands, List.mem_cons, List.not_mem_nil, or_false]
  split_ifs <;> simp_all

theorem dispatch_of_not_handled (hcommand : op.command ∉ handledCommands) :
    h.dispatch configs op = ⟨none, configs, op⟩ := by
  simp only [handledCommands, List.mem_cons, List.not_mem_nil, or_false, not_or] at hcommand
  obtain ⟨hjoin, hleave, hmove, hquery⟩ := hcommand
  rw [Handlers.dispatch, if_neg hjoin, if_neg hleave, if_neg hmove, if_neg hquery]

theorem dispatch_query (hquery : op.command = ascii "Query") :
    h.dispatch configs op = ⟨some (.query op.argsQuery), configs,
      { op with replyQuery := h.handleQuery configs op.argsQuery }⟩ := by
  rw [Handlers.dispatch, if_neg (by rw [hquery]; decide), if_neg (by rw [hquery]; decide),
    if_neg (by rw [hquery]; decide), if_pos hquery]

end Dispatch

section Filter

variable {h : Handlers} {s : Server} {op : Op} {msg : ApplyMsg} {msgs earlier : List ApplyMsg}

theorem Server.isNew_eq_accepts :
    s.isNew op = Watermark.accepts s.cache op.clientId op.timeStamp := by
  unfold Server.isNew Watermark.accepts
  cases s.cache op.clientId with
  | none => rfl
  | some lastTime => simp

/-- The loop's update of `cache` is the step of the watermark filter. -/
theorem Server.cache_applyOp :
    (s.applyOp h op).1.cache = Watermark.observe s.cache op.clientId op.timeStamp := by
  unfold Server.applyOp Watermark.observe
  rw [← Server.isNew_eq_accepts]
  split_ifs <;> rfl

theorem Server.applyOp_of_not_isNew (hold : s.isNew op = false) :
    s.applyOp h op = (s, op, none) := by
  simp [Server.applyOp, hold]

theorem Server.receive_of_validOp (hmsg : msg.validOp = some op) :
    s.receive h msg = ((s.applyOp h op).1, some
      { index := msg.commandIndex
        op := (s.applyOp h op).2.1
        handler := (s.applyOp h op).2.2 }) := by
  unfold ApplyMsg.validOp at hmsg
  split_ifs at hmsg with hvalid
  simp [Server.receive, hmsg, hvalid]

/-- A message without a valid Op changes nothing and sends nothing. -/
theorem Server.receive_of_not_validOp (hmsg : msg.validOp = none) :
    s.receive h msg = (s, none) := by
  unfold ApplyMsg.validOp at hmsg
  unfold Server.receive
  cases hcommand : msg.command with
  | none => rfl
  | some op => simp_all

theorem stateAfter_concat :
    stateAfter h (msgs ++ [msg]) = ((stateAfter h msgs).receive h msg).1 := by
  simp [stateAfter]

/-- The step rule over a sequence of messages: what holds at the start and is kept by every valid
Op holds after any messages. -/
theorem stateAfter_induction {P : List ApplyMsg → Server → Prop} (hstart : P [] startServer)
    (hskip : ∀ msgs msg s, msg.validOp = none → P msgs s → P (msgs ++ [msg]) s)
    (hop : ∀ msgs msg op s, msg.validOp = some op → P msgs s →
      P (msgs ++ [msg]) (s.applyOp h op).1)
    (msgs : List ApplyMsg) : P msgs (stateAfter h msgs) := by
  induction msgs using List.reverseRecOn with
  | nil => exact hstart
  | append_singleton msgs msg ih =>
    rw [stateAfter_concat]
    cases hmsg : msg.validOp with
    | none =>
      rw [Server.receive_of_not_validOp hmsg]
      exact hskip msgs msg _ hmsg ih
    | some op =>
      rw [Server.receive_of_validOp hmsg]
      exact hop msgs msg op _ hmsg ih

/-- After any messages the cache holds each client's latest timestamp. -/
theorem cache_tracks (msgs : List ApplyMsg) :
    Watermark.Tracks (stateAfter h msgs).cache (stamps msgs) := by
  apply stateAfter_induction (P := fun msgs s ↦ Watermark.Tracks s.cache (stamps msgs))
  · exact Watermark.tracks_empty
  · intro msgs msg s hmsg htracks
    simpa [stamps, hmsg] using htracks
  · intro msgs msg op s hmsg htracks
    rw [Server.cache_applyOp]
    simpa [stamps, hmsg] using htracks.observe op.clientId op.timeStamp

/-- The filter lets an Op pass exactly when it is the latest of its client so far. -/
theorem isNew_stateAfter_iff :
    (stateAfter h earlier).isNew op = true ↔ IsLatest earlier op := by
  rw [Server.isNew_eq_accepts]
  exact (cache_tracks earlier).accepts_iff op.clientId op.timeStamp

theorem deliveryAfter_of_validOp (hmsg : msg.validOp = some op) :
    deliveryAfter h earlier msg = some
      { index := msg.commandIndex
        op := ((stateAfter h earlier).applyOp h op).2.1
        handler := ((stateAfter h earlier).applyOp h op).2.2 } := by
  rw [deliveryAfter, Server.receive_of_validOp hmsg]

end Filter

end DistKvRaft.ShardCtrler
