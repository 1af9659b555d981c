import DistKvRaft.Foundation.Lists
import DistKvRaft.Foundation.Machine
import DistKvRaft.Go.Strings

/-!
# The simulated network

`labrpc` carries calls from client ends to servers over a network that can be told to lose requests
and replies, to hold replies back, to disable ends and to delete servers.  Each call is served by
several goroutines: the one that receives all requests, `processReq`, the one that runs the handler,
and one that empties the handler's channel if nobody waits any more.  With the client in `Call` they
are cut here into steps at every lock, channel operation, atomic addition and timer, in any
interleaving with each other, with other calls and with changes of the network.

Choices of the random number generator and of the timers are events.  What a handler does and
answers is up to the event that ends it.  A delay without another effect is no step.
-/

namespace DistKvRaft.Labrpc

open Go

/-! ## Servers and their services -/

/-- A service with the names of its handlers. -/
structure Service where
  name : GoString
  methods : List GoString

/-- A server object: services by name, and the number of requests that came in. -/
structure Server where
  services : GoString → Option Service
  count : BitVec 64

def makeServer : Server := ⟨fun _ ↦ none, 0⟩

def Server.addService (rs : Server) (svc : Service) : Server :=
  { rs with services := Function.update rs.services svc.name (some svc) }

/-- Cut `Raft.AppendEntries` into service and method at the last dot; `none` where there is no dot
and the slice expression panics. -/
def splitMethod (svcMeth : GoString) : Option (GoString × GoString) :=
  if asciiByte '.' ∈ svcMeth then
    some ((svcMeth.reverse.dropWhile (· ≠ asciiByte '.')).tail.reverse,
      (svcMeth.reverse.takeWhile (· ≠ asciiByte '.')).reverse)
  else none

/-- `dispatch` finds a service and a method for the request. -/
def Server.knows (rs : Server) (svcMeth : GoString) : Bool :=
  match splitMethod svcMeth with
  | none => false
  | some (serviceName, methodName) =>
    match rs.services serviceName with
    | none => false
    | some svc => methodName ∈ svc.methods

/-! ## The network -/

/-- The fields of `Network`.  `objects` are the server objects that were made, and a pointer to one
is its position.  The goroutine that receives from `endCh` is `receiving` from when it has got a
request until it has counted it and started `processReq`; it is `stopped` once it has returned. -/
structure Network (End Name : Type) where
  reliable : Bool
  longReordering : Bool
  ends : End → Bool
  enabled : End → Bool
  servers : Name → Option ℕ
  connections : End → Option Name
  done : Bool
  count : BitVec 32
  bytes : BitVec 64
  objects : List Server
  receiving : Bool
  stopped : Bool

structure Request (End : Type) where
  endname : End
  svcMeth : GoString
  args : GoString

/-- What `readEndnameInfo` finds for an enabled end whose connection leads to a server. -/
structure Link (Name : Type) where
  server : ℕ
  name : Name
  reliable : Bool
  longReordering : Bool

/-- Where the client and `processReq` stand with a call.  A reply is `none` for the message
`replyMsg{false, nil}`. -/
inductive Stage
  /-- the client is about to hand over the request, or to notice that the network is gone -/
  | calling
  /-- the request was received from `endCh` -/
  | received
  /-- the request was added to `count`, and its bytes not yet to `bytes` -/
  | counted
  /-- `processReq` was started -/
  | accepted
  /-- there is no server to reach; a timer will end the call -/
  | unreachable
  /-- the request may still be dropped -/
  | arrived
  /-- in the loop that waits for the handler -/
  | waiting
  /-- behind the loop, with the handler's reply or because the server was found dead -/
  | left (reply : Option GoString)
  /-- the server was found alive after the handler had replied -/
  | checked (reply : GoString)
  /-- a timer will forward the reply -/
  | delayed (reply : GoString)
  /-- the bytes of the reply were counted, and it is to be sent on `replyCh` -/
  | sending (reply : GoString)
  /-- `Call` has returned -/
  | returned (reply : Option GoString)
  deriving DecidableEq

/-- Where the goroutine stands that runs the handler. -/
inductive Dispatch
  | none
  | started
  /-- the server has counted the request and looked for its service, `known` tells whether it has
  found one with the method -/
  | counted (known : Bool)
  /-- the handler runs -/
  | entered
  /-- the handler has returned, and the reply is to be sent on `ech` -/
  | replied (reply : GoString)
  /-- the reply was received -/
  | finished (reply : GoString)
  deriving DecidableEq

/-- A call.  `drainer` tells whether the goroutine was started that only empties `ech`. -/
structure Call (End Name : Type) where
  request : Request End
  link : Option (Link Name)
  stage : Stage
  dispatch : Dispatch
  drainer : Bool

/-- Changes of the network by whoever set it up. -/
inductive Change (End Name : Type)
  | makeEnd (endname : End)
  | deleteEnd (endname : End)
  | makeServer
  | addService (server : ℕ) (svc : Service)
  | addServer (name : Name) (server : ℕ)
  | deleteServer (name : Name)
  | connect (endname : End) (name : Name)
  | enable (endname : End) (enabled : Bool)
  | setReliable (yes : Bool)
  | setLongReordering (yes : Bool)
  | cleanup

/-- The steps of a call. -/
inductive CallEvent
  /-- the request is received from `endCh` -/
  | accept
  /-- the request is added to `count` -/
  | countCall
  /-- its bytes are added to `bytes`, and `processReq` is started -/
  | countArgs
  /-- the client finds `done` closed -/
  | abort
  /-- `readEndnameInfo` -/
  | read
  /-- an unreliable network drops the request -/
  | drop
  /-- the goroutine of the handler is started -/
  | launch
  /-- `Server.dispatch` counts the request and looks up its service, under the lock -/
  | dispatch
  /-- the handler is called -/
  | enter
  | reply (reply : GoString)
  /-- the loop receives from `ech` -/
  | takeReply
  /-- the loop looks after 100 ms whether the server is dead -/
  | timeout
  | drain
  /-- the last look whether the server is dead -/
  | check
  | dropReply
  | delayReply
  /-- the bytes of the reply are added to `bytes` -/
  | forward
  /-- the reply is sent to the client -/
  | deliver
  /-- the timer of an unreachable server or of a delayed reply, whose bytes are added to `bytes` -/
  | expire

inductive Event (End Name : Type)
  | change (change : Change End Name)
  | call (request : Request End)
  /-- the goroutine that receives from `endCh` finds `done` closed -/
  | stop
  | advance (k : ℕ) (event : CallEvent)

/-- All calls on a network.  `log` records which call entered the handler of which server, in order;
`exited` is set when the process has ended by `log.Fatalf` or a panic. -/
structure Traffic (End Name : Type) where
  net : Network End Name
  calls : List (Call End Name)
  log : List (ℕ × ℕ)
  exited : Bool

section Model

variable {End Name : Type} [DecidableEq End] [DecidableEq Name]

/-- `MakeNetwork`. -/
def makeNetwork : Network End Name where
  reliable := true
  longReordering := false
  ends _ := false
  enabled _ := false
  servers _ := none
  connections _ := none
  done := false
  count := 0
  bytes := 0
  objects := []
  receiving := false
  stopped := false

namespace Network

variable (net : Network End Name)

/-- Make a change; `none` where the process ends. -/
def apply : Change End Name → Option (Network End Name)
  | .makeEnd endname =>
    if net.ends endname then none
    else some { net with
      ends := Function.update net.ends endname true
      enabled := Function.update net.enabled endname false
      connections := Function.update net.connections endname none }
  | .deleteEnd endname =>
    if net.ends endname then some { net with
      ends := Function.update net.ends endname false
      enabled := Function.update net.enabled endname false
      connections := Function.update net.connections endname none }
    else none
  | .makeServer => some { net with objects := net.objects ++ [makeServer] }
  | .addService server svc =>
    some { net with objects := net.objects.modify server (Server.addService · svc) }
  | .addServer name server =>
    some { net with servers := Function.update net.servers name (some server) }
  | .deleteServer name => some { net with servers := Function.update net.servers name none }
  | .connect endname name =>
    some { net with connections := Function.update net.connections endname (some name) }
  | .enable endname enabled =>
    some { net with enabled := Function.update net.enabled endname enabled }
  | .setReliable yes => some { net with reliable := yes }
  | .setLongReordering yes => some { net with longReordering := yes }
  | .cleanup => if net.done then none else some { net with done := true }

def readEndnameInfo (endname : End) : Option (Link Name) :=
  if net.enabled endname then
    (net.connections endname).bind fun name ↦
      (net.servers name).map fun server ↦ ⟨server, name, net.reliable, net.longReordering⟩
  else none

def isServerDead (endname : End) (link : Link Name) : Bool :=
  net.enabled endname = false ∨ net.servers link.name ≠ some link.server

/-- `GetCount`; `none` where it panics on a missing server. -/
def getCount (name : Name) : Option ℤ :=
  (net.servers name).bind fun server ↦ (net.objects[server]?).map fun rs ↦ rs.count.toInt

def getTotalCount : ℤ := net.count.toInt

def getTotalBytes : ℤ := net.bytes.toInt

/-- The bytes of a request or of a reply. -/
def countBytes (msg : GoString) : Network End Name :=
  { net with bytes := net.bytes + BitVec.ofNat 64 msg.length }

/-- A request comes in at a server. -/
def countDispatch (server : ℕ) : Network End Name :=
  { net with objects := net.objects.modify server fun rs ↦ { rs with count := rs.count + 1 } }

end Network

/-- The next step of a call, with the network after it. -/
def Call.step (net : Network End Name) (c : Call End Name) :
    CallEvent → Option (Network End Name × Call End Name)
  | .accept =>
    if c.stage = .calling ∧ net.stopped = false ∧ net.receiving = false then
      some ({ net with receiving := true }, { c with stage := .received })
    else none
  | .countCall =>
    if c.stage = .received then
      some ({ net with count := net.count + 1 }, { c with stage := .counted })
    else none
  | .countArgs =>
    if c.stage = .counted then
      some ({ net.countBytes c.request.args with receiving := false },
        { c with stage := .accepted })
    else none
  | .abort =>
    if c.stage = .calling ∧ net.done then some (net, { c with stage := .returned none }) else none
  | .read =>
    if c.stage = .accepted then
      match net.readEndnameInfo c.request.endname with
      | some link => some (net, { c with stage := .arrived, link := some link })
      | none => some (net, { c with stage := .unreachable })
    else none
  | .drop =>
    match c.stage, c.link with
    | .arrived, some link =>
      if link.reliable = false then some (net, { c with stage := .returned none }) else none
    | _, _ => none
  | .launch =>
    if c.stage = .arrived then some (net, { c with stage := .waiting, dispatch := .started })
    else none
  | .dispatch =>
    match c.dispatch, c.link with
    | .started, some link => (net.objects[link.server]?).map fun rs ↦
        (net.countDispatch link.server,
          { c with dispatch := .counted (rs.knows c.request.svcMeth) })
    | _, _ => none
  | .enter =>
    if c.dispatch = .counted true then some (net, { c with dispatch := .entered }) else none
  | .reply reply =>
    if c.dispatch = .entered then some (net, { c with dispatch := .replied reply }) else none
  | .takeReply =>
    match c.stage, c.dispatch with
    | .waiting, .replied reply =>
      some (net, { c with stage := .left (some reply), dispatch := .finished reply })
    | _, _ => none
  | .timeout =>
    match c.stage, c.link with
    | .waiting, some link =>
      if net.isServerDead c.request.endname link then
        some (net, { c with stage := .left none, drainer := true })
      else some (net, c)
    | _, _ => none
  | .drain =>
    match c.drainer, c.dispatch with
    | true, .replied reply => some (net, { c with dispatch := .finished reply })
    | _, _ => none
  | .check =>
    match c.stage, c.link with
    | .left reply, some link =>
      match reply, net.isServerDead c.request.endname link with
      | some reply, false => some (net, { c with stage := .checked reply })
      | _, _ => some (net, { c with stage := .returned none })
    | _, _ => none
  | .dropReply =>
    match c.stage, c.link with
    | .checked _, some link =>
      if link.reliable = false then some (net, { c with stage := .returned none }) else none
    | _, _ => none
  | .delayReply =>
    match c.stage, c.link with
    | .checked reply, some link =>
      if link.longReordering then some (net, { c with stage := .delayed reply }) else none
    | _, _ => none
  | .forward =>
    match c.stage with
    | .checked reply => some (net.countBytes reply, { c with stage := .sending reply })
    | _ => none
  | .deliver =>
    match c.stage with
    | .sending reply => some (net, { c with stage := .returned (some reply) })
    | _ => none
  | .expire =>
    match c.stage with
    | .delayed reply => some (net.countBytes reply, { c with stage := .sending reply })
    | .unreachable => some (net, { c with stage := .returned none })
    | _ => none

/-- The process ends: the slice expression panics on a name without a dot, or the server that is
asked has no such service or method. -/
def Call.isFatal (net : Network End Name) (c : Call End Name) : CallEvent → Bool
  | .dispatch =>
    match c.dispatch, c.link with
    | .started, some link =>
      (net.objects[link.server]?).isNone || (splitMethod c.request.svcMeth).isNone
    | _, _ => false
  | .enter => c.dispatch = .counted false
  | _ => false

namespace Traffic

def exit (s : Traffic End Name) : Traffic End Name := { s with exited := true }

def newCall (request : Request End) : Call End Name := ⟨request, none, .calling, .none, false⟩

/-- The entry of the log for a handler that is entered. -/
def logEntry (k : ℕ) (c : Call End Name) : CallEvent → List (ℕ × ℕ)
  | .enter => (c.link.map fun link ↦ (k, link.server)).toList
  | _ => []

/-- The event ends the process. -/
def isFatal (s : Traffic End Name) : Event End Name → Bool
  | .change change => (s.net.apply change).isNone
  | .advance k event => (s.calls[k]?).any fun c ↦ c.isFatal s.net event
  | .call _ | .stop => false

def step (s : Traffic End Name) (event : Event End Name) : Option (Traffic End Name) :=
  if s.exited then none
  else if s.isFatal event then some s.exit
  else match event with
    | .change change => (s.net.apply change).map fun net ↦ { s with net }
    | .call request => some { s with calls := s.calls ++ [newCall request] }
    | .stop =>
      if s.net.done ∧ s.net.receiving = false then some { s with net.stopped := true } else none
    | .advance k event =>
      (s.calls[k]?).bind fun c ↦ (c.step s.net event).map fun next ↦
        { s with
          net := next.1
          calls := s.calls.set k next.2
          log := s.log ++ logEntry k c event }

def initial : Traffic End Name := ⟨makeNetwork, [], [], false⟩

end Traffic

/-- The machine of a network with its calls. -/
def labrpc (End Name : Type) [DecidableEq End] [DecidableEq Name] :
    Machine (Traffic End Name) (Event End Name) := ⟨Traffic.initial, Traffic.step⟩

/-! ## What a step can do -/

/-- The steps of a call, one case for each outcome. -/
inductive Call.Step (net : Network End Name) (c : Call End Name) :
    CallEvent → Network End Name → Call End Name → Prop
  | accept (h : c.stage = .calling) (hup : net.stopped = false) (hfree : net.receiving = false) :
      Step net c .accept { net with receiving := true } { c with stage := .received }
  | countCall (h : c.stage = .received) :
      Step net c .countCall { net with count := net.count + 1 } { c with stage := .counted }
  | countArgs (h : c.stage = .counted) :
      Step net c .countArgs { net.countBytes c.request.args with receiving := false }
        { c with stage := .accepted }
  | abort (h : c.stage = .calling) (hdone : net.done = true) :
      Step net c .abort net { c with stage := .returned none }
  | read {link : Link Name} (h : c.stage = .accepted)
      (hlink : net.readEndnameInfo c.request.endname = some link) :
      Step net c .read net { c with stage := .arrived, link := some link }
  | unreachable (h : c.stage = .accepted)
      (hlink : net.readEndnameInfo c.request.endname = none) :
      Step net c .read net { c with stage := .unreachable }
  | drop {link : Link Name} (h : c.stage = .arrived) (hlink : c.link = some link)
      (hreliable : link.reliable = false) :
      Step net c .drop net { c with stage := .returned none }
  | launch (h : c.stage = .arrived) :
      Step net c .launch net { c with stage := .waiting, dispatch := .started }
  | dispatch {link : Link Name} {rs : Server} (h : c.dispatch = .started)
      (hlink : c.link = some link) (hserver : net.objects[link.server]? = some rs) :
      Step net c .dispatch (net.countDispatch link.server)
        { c with dispatch := .counted (rs.knows c.request.svcMeth) }
  | enter (h : c.dispatch = .counted true) :
      Step net c .enter net { c with dispatch := .entered }
  | reply (h : c.dispatch = .entered) (reply : GoString) :
      Step net c (.reply reply) net { c with dispatch := .replied reply }
  | takeReply {reply : GoString} (h : c.stage = .waiting) (hreply : c.dispatch = .replied reply) :
      Step net c .takeReply net
        { c with stage := .left (some reply), dispatch := .finished reply }
  | giveUp {link : Link Name} (h : c.stage = .waiting) (hlink : c.link = some link)
      (hdead : net.isServerDead c.request.endname link = true) :
      Step net c .timeout net { c with stage := .left none, drainer := true }
  | goOn {link : Link Name} (h : c.stage = .waiting) (hlink : c.link = some link)
      (halive : net.isServerDead c.request.endname link = false) : Step net c .timeout net c
  | drain {reply : GoString} (h : c.drainer = true) (hreply : c.dispatch = .replied reply) :
      Step net c .drain net { c with dispatch := .finished reply }
  | pass {reply : GoString} {link : Link Name} (h : c.stage = .left (some reply))
      (hlink : c.link = some link)
      (halive : net.isServerDead c.request.endname link = false) :
      Step net c .check net { c with stage := .checked reply }
  | fail {reply : Option GoString} {link : Link Name} (h : c.stage = .left reply)
      (hlink : c.link = some link)
      (hdead : reply = none ∨ net.isServerDead c.request.endname link = true) :
      Step net c .check net { c with stage := .returned none }
  | dropReply {reply : GoString} {link : Link Name} (h : c.stage = .checked reply)
      (hlink : c.link = some link) (hreliable : link.reliable = false) :
      Step net c .dropReply net { c with stage := .returned none }
  | delayReply {reply : GoString} (h : c.stage = .checked reply) :
      Step net c .delayReply net { c with stage := .delayed reply }
  | forward {reply : GoString} (h : c.stage = .checked reply) :
      Step net c .forward (net.countBytes reply) { c with stage := .sending reply }
  | deliver {reply : GoString} (h : c.stage = .sending reply) :
      Step net c .deliver net { c with stage := .returned (some reply) }
  | expireReply {reply : GoString} (h : c.stage = .delayed reply) :
      Step net c .expire (net.countBytes reply) { c with stage := .sending reply }
  | expire (h : c.stage = .unreachable) :
      Step net c .expire net { c with stage := .returned none }

omit [DecidableEq End] [DecidableEq Name] in
theorem Call.step_cases {net net' : Network End Name} {c c' : Call End Name} {event : CallEvent}
    (h : c.step net event = some (net', c')) : c.Step net event net' c' := by
  cases event with
  | accept =>
    simp only [Call.step] at h
    split_ifs at h with hif
    cases h
    exact .accept hif.1 hif.2.1 hif.2.2
  | countCall =>
    simp only [Call.step] at h
    split_ifs at h with hif
    cases h
    exact .countCall hif
  | countArgs =>
    simp only [Call.step] at h
    split_ifs at h with hif
    cases h
    exact .countArgs hif
  | abort =>
    simp only [Call.step] at h
    split_ifs at h with hif
    cases h
    exact .abort hif.1 hif.2
  | read =>
    simp only [Call.step] at h
    split_ifs at h with hif
    split at h
    · next hlink =>
      cases h
      exact .read hif hlink
    · next hlink =>
      cases h
      exact .unreachable hif hlink
  | drop =>
    simp only [Call.step] at h
    split at h
    · next hstage hlink =>
      split_ifs at h with hif
      cases h
      exact .drop hstage hlink hif
    · cases h
  | launch =>
    simp only [Call.step] at h
    split_ifs at h with hif
    cases h
    exact .launch hif
  | dispatch =>
    simp only [Call.step] at h
    split at h
    · next hdispatch hlink =>
      obtain ⟨rs, hserver, heq⟩ := Option.map_eq_some_iff.mp h
      cases heq
      exact .dispatch hdispatch hlink hserver
    · cases h
  | enter =>
    simp only [Call.step] at h
    split_ifs at h with hif
    cases h
    exact .enter hif
  | reply reply =>
    simp only [Call.step] at h
    split_ifs at h with hif
    cases h
    exact .reply hif reply
  | takeReply =>
    simp only [Call.step] at h
    split at h
    · next hstage hdispatch =>
      cases h
      exact .takeReply hstage hdispatch
    · cases h
  | timeout =>
    simp only [Call.step] at h
    split at h
    · next hstage hlink =>
      split_ifs at h with hif
      · cases h
        exact .giveUp hstage hlink hif
      · cases h
        exact .goOn hstage hlink (by simpa using hif)
    · cases h
  | drain =>
    simp only [Call.step] at h
    split at h
    · next hdrainer hdispatch =>
      cases h
      exact .drain hdrainer hdispatch
    · cases h
  | check =>
    simp only [Call.step] at h
    split at h
    · next hstage hlink =>
      split at h
      · next hdead =>
        cases h
        exact .pass hstage hlink hdead
      · next hnot =>
        cases h
        refine .fail hstage hlink ?_
        rw [or_iff_not_imp_left]
        intro hreply
        obtain ⟨reply, rfl⟩ := Option.ne_none_iff_exists'.mp hreply
        simpa using hnot reply rfl
    · cases h
  | dropReply =>
    simp only [Call.step] at h
    split at h
    · next hstage hlink =>
      split_ifs at h with hif
      cases h
      exact .dropReply hstage hlink hif
    · cases h
  | delayReply =>
    simp only [Call.step] at h
    split at h
    · next hstage hlink =>
      split_ifs at h with hif
      cases h
      exact .delayReply hstage
    · cases h
  | forward =>
    simp only [Call.step] at h
    split at h
    · next hstage =>
      cases h
      exact .forward hstage
    · cases h
  | deliver =>
    simp only [Call.step] at h
    split at h
    · next hstage =>
      cases h
      exact .deliver hstage
    · cases h
  | expire =>
    simp only [Call.step] at h
    split at h
    · next hstage =>
      cases h
      exact .expireReply hstage
    · next hstage =>
      cases h
      exact .expire hstage
    · cases h

section Frame

variable {net net' : Network End Name} {c c' : Call End Name} {event : CallEvent}

omit [DecidableEq End] [DecidableEq Name]

theorem Call.Step.request_eq (h : c.Step net event net' c') : c'.request = c.request := by
  cases h <;> rfl

/-- `Call` returns once. -/
theorem Call.Step.stage_of_returned {reply : Option GoString} (h : c.Step net event net' c')
    (hstage : c.stage = .returned reply) : c'.stage = .returned reply := by
  cases h with
  | dispatch | enter | reply | goOn | drain => exact hstage
  | accept h | countCall h | countArgs h | abort h | read h | unreachable h | drop h | launch h
  | takeReply h | giveUp h | pass h | fail h | dropReply h | delayReply h | forward h | deliver h
  | expireReply h | expire h =>
    rw [h] at hstage
    cases hstage

/-- A call gets its link from `readEndnameInfo` and keeps it. -/
theorem Call.Step.link_cases (h : c.Step net event net' c') :
    c'.link = c.link ∨ c'.link = net.readEndnameInfo c.request.endname := by
  cases h with
  | read _ hlink => exact Or.inr hlink.symm
  | _ => exact Or.inl rfl

/-- Calls leave the ends alone. -/
theorem Call.Step.ends_eq (h : c.Step net event net' c') :
    net'.ends = net.ends ∧ net'.enabled = net.enabled ∧ net'.connections = net.connections := by
  cases h <;> exact ⟨rfl, rfl, rfl⟩

/-- A link has the name that the end is connected to. -/
theorem Network.connections_of_readEndnameInfo {endname : End} {link : Link Name}
    (h : net.readEndnameInfo endname = some link) :
    net.enabled endname = true ∧ net.connections endname = some link.name := by
  unfold readEndnameInfo at h
  split_ifs at h with henabled
  obtain ⟨name, hname, hlink⟩ := Option.bind_eq_some_iff.mp h
  obtain ⟨server, -, rfl⟩ := Option.map_eq_some_iff.mp hlink
  exact ⟨henabled, hname⟩

end Frame

namespace Traffic

/-- The steps of the machine, one case for each outcome. -/
inductive Transition (s : Traffic End Name) : Event End Name → Traffic End Name → Prop
  | change {change : Change End Name} {net : Network End Name}
      (h : s.net.apply change = some net) : Transition s (.change change) { s with net }
  | exit {event : Event End Name} (h : s.isFatal event = true) : Transition s event s.exit
  | call (request : Request End) :
      Transition s (.call request) { s with calls := s.calls ++ [newCall request] }
  | stop (h : s.net.done = true) (hfree : s.net.receiving = false) :
      Transition s .stop { s with net.stopped := true }
  | advance {k : ℕ} {event : CallEvent} {c c' : Call End Name} {net : Network End Name}
      (hk : s.calls[k]? = some c) (hfatal : c.isFatal s.net event = false)
      (h : c.Step s.net event net c') :
      Transition s (.advance k event)
        { s with net, calls := s.calls.set k c', log := s.log ++ logEntry k c event }

variable {s t : Traffic End Name} {event : Event End Name}

theorem transition_of_step (h : s.step event = some t) : Transition s event t := by
  unfold step at h
  rw [Option.ite_none_left_eq_some] at h
  obtain ⟨-, h⟩ := h
  by_cases hfatal : s.isFatal event = true
  · rw [if_pos hfatal] at h
    cases h
    exact .exit hfatal
  rw [if_neg hfatal] at h
  cases event with
  | change change =>
    obtain ⟨net, happly, rfl⟩ := Option.map_eq_some_iff.mp h
    exact .change happly
  | call request =>
    cases h
    exact .call request
  | stop =>
    rw [Option.ite_none_right_eq_some] at h
    cases h.2
    exact .stop h.1.1 h.1.2
  | advance k event =>
    obtain ⟨c, hk, hnext⟩ := Option.bind_eq_some_iff.mp h
    obtain ⟨⟨net, c'⟩, hstep, rfl⟩ := Option.map_eq_some_iff.mp hnext
    refine .advance hk ?_ (Call.step_cases hstep)
    simpa [isFatal, hk] using hfatal

/-- What a step does to a call that was made. -/
theorem exists_call_of_step (h : s.step event = some t) {k : ℕ} {c : Call End Name}
    (hk : s.calls[k]? = some c) :
    ∃ c', t.calls[k]? = some c' ∧ (c' = c ∨ ∃ e, c.Step s.net e t.net c') := by
  cases transition_of_step h with
  | change | exit | stop => exact ⟨c, hk, Or.inl rfl⟩
  | call request => exact ⟨c, Lists.getElem?_concat_eq_some.mpr (Or.inl hk), Or.inl rfl⟩
  | @advance j e c₀ c' net hj _ hstep =>
    have hlt := (List.getElem?_eq_some_iff.mp hj).1
    by_cases hjk : k = j
    · subst hjk
      cases hj.symm.trans hk
      exact ⟨c', List.getElem?_set_self hlt, Or.inr ⟨e, hstep⟩⟩
    · exact ⟨c, (List.getElem?_set_ne (Ne.symm hjk)).trans hk, Or.inl rfl⟩

end Traffic

end Model

end DistKvRaft.Labrpc
