import DistKvRaft.Labrpc.Calls
import DistKvRaft.Raft.Persister

/-!
# Servers that are shut down and started again

The test harnesses of `raft`, `shardctrler` and `shardkv` run every server over the simulated
network with a persister, shut it down and start a new instance from what the persister holds.  An
old instance cannot be killed: its goroutines go on, may save to the persister they were given and
may answer calls.  That no client is told of a success which the next instance does not know about
rests on an order of steps: the server is deleted from the network before its persister is
superseded, and `processReq` looks whether the server is alive after its handler has returned.

The procedures of the harness are cut into the steps that touch the network or a persister.  They
interleave with each other, with calls and with instances that save, old ones included.  Enabling
and disabling ends, which the procedures also do, may happen at any time.

What a persister holds is changed only by `MakePersister`, `Copy` and `Save`.  Next to it the model
records what instances have saved to a persister and to those it is a copy of, which no step reads.
-/

namespace DistKvRaft.Raft

open Go Labrpc

/-! ## The harness -/

/-- A step of a procedure of the harness. -/
inductive Op
  | deleteServer
  /-- the persister, if there is one, is replaced by a copy -/
  | copyPersister
  /-- `Kill`, which an instance may ignore -/
  | kill
  /-- the content of the persister, if there is one, is read and saved to a new one that replaces
  it; `crash1` holds `mu` all the while -/
  | resave
  /-- the persister is replaced by a copy, or made -/
  | freshPersister
  /-- a new instance gets the persister, and a server object is made for it -/
  | boot (services : List Service)
  | addServer

/-- The procedures: of `shardctrler/config.go` and `shardkv/config.go`, and of `raft/config.go`. -/
inductive Command
  | shutdownServer
  | startServer (services : List Service)
  | crash1
  | start1 (services : List Service)

def Command.ops : Command → List Op
  | .shutdownServer => [.deleteServer, .copyPersister, .kill]
  | .startServer services => [.freshPersister, .boot services, .addServer]
  | .crash1 => [.deleteServer, .copyPersister, .kill, .resave]
  | .start1 services =>
    [.deleteServer, .copyPersister, .kill, .resave, .freshPersister, .boot services, .addServer]

/-- The last of some saves, or what a persister holds without any. -/
def lastSaved (history : List Saved) : Saved := history.getLast?.getD ⟨[], []⟩

theorem lastSaved_concat (history : List Saved) (content : Saved) :
    lastSaved (history ++ [content]) = content := by
  simp [lastSaved]

/-- Servers on a network.  `contents` has what each persister holds and `histories` the saves that
instances have made to it and to those it is a copy of.  `saved` has the persister that a server was
given last, `storage` the persister of the instance behind each server object, `booted` the object
that was made last for a server, and `todo` what is left of the procedure that runs for a server. -/
structure Deployment (End Name : Type) where
  traffic : Traffic End Name
  contents : List Saved
  histories : List (List Saved)
  saved : Name → Option ℕ
  storage : List ℕ
  booted : Name → Option ℕ
  todo : Name → List Op

/-- Only the procedures of the harness make, add and delete servers. -/
def isControl {End Name : Type} : Labrpc.Event End Name → Bool
  | .change .makeServer | .change (.addServer _ _) | .change (.deleteServer _) => true
  | _ => false

inductive DeploymentEvent (End Name : Type)
  /-- calls, and changes of the network other than those of the procedures -/
  | network (event : Labrpc.Event End Name)
  /-- an instance, dead or alive, saves -/
  | save (server : ℕ) (content : Saved)
  | command (name : Name) (command : Command)
  | proceed (name : Name)

namespace Deployment

section Model

variable {End Name : Type} [DecidableEq End] [DecidableEq Name] (s : Deployment End Name)

/-- A server is given the persister that was made last. -/
def supersede (name : Name) (contents : List Saved) (history : List Saved) :
    Deployment End Name :=
  { s with
    contents
    histories := s.histories ++ [history]
    saved := Function.update s.saved name (some s.contents.length) }

/-- The saves to a persister. -/
def historyOf (p : ℕ) : List Saved := (s.histories[p]?).getD []

/-- The saves to the persister that a server was given last. -/
def savedBy (name : Name) : Option (List Saved) :=
  (s.saved name).bind fun p ↦ s.histories[p]?

/-- The saves to the persister of the instance behind a server object. -/
def storedBy (server : ℕ) : Option (List Saved) :=
  (s.storage[server]?).bind fun p ↦ s.histories[p]?

/-- A server gets a copy of the persister `p`. -/
def copyPersister (name : Name) (p : ℕ) : Option (Deployment End Name) :=
  (diskStep s.contents (.copy p)).map fun contents ↦ s.supersede name contents (s.historyOf p)

/-- A server gets a new persister, to which the content of `p` is saved. -/
def resave (name : Name) (p : ℕ) : Option (Deployment End Name) := do
  let content ← s.contents[p]?
  let made ← diskStep s.contents .make
  let contents ← diskStep made (.save s.contents.length content)
  -- no instance has saved anything by this
  return s.supersede name contents (s.historyOf p)

def exec (name : Name) : Op → Option (Deployment End Name)
  | .deleteServer =>
    (s.traffic.net.apply (.deleteServer name)).map fun net ↦ { s with traffic.net := net }
  | .copyPersister =>
    match s.saved name with
    | some p => s.copyPersister name p
    | none => some s
  | .kill => some s
  | .resave =>
    match s.saved name with
    | some p => s.resave name p
    | none => some s
  | .freshPersister =>
    match s.saved name with
    | some p => s.copyPersister name p
    | none => (diskStep s.contents .make).map fun contents ↦ s.supersede name contents []
  | .boot services =>
    (s.saved name).map fun p ↦
      { s with
        traffic.net.objects :=
          s.traffic.net.objects ++ [services.foldl Server.addService makeServer]
        storage := s.storage ++ [p]
        booted := Function.update s.booted name (some s.traffic.net.objects.length) }
  | .addServer =>
    (s.booted name).bind fun server ↦
      (s.traffic.net.apply (.addServer name server)).map fun net ↦ { s with traffic.net := net }

def step (event : DeploymentEvent End Name) : Option (Deployment End Name) :=
  if s.traffic.exited then none
  else match event with
    | .network event =>
      if isControl event then none
      else (s.traffic.step event).map fun traffic ↦ { s with traffic }
    | .save server content => do
      let p ← s.storage[server]?
      let contents ← diskStep s.contents (.save p content)
      return { s with contents, histories := s.histories.modify p (· ++ [content]) }
    | .command name command =>
      if s.todo name = [] then some { s with todo := Function.update s.todo name command.ops }
      else none
    | .proceed name =>
      match s.todo name with
      | [] => none
      | op :: rest =>
        (s.exec name op).map fun t ↦ { t with todo := Function.update s.todo name rest }

end Model

end Deployment

/-- The machine of a network of servers under a test harness. -/
def deployment (End Name : Type) [DecidableEq End] [DecidableEq Name] :
    Machine (Deployment End Name) (DeploymentEvent End Name) :=
  ⟨⟨Traffic.initial, [], [], fun _ ↦ none, [], fun _ ↦ none, fun _ ↦ []⟩, Deployment.step⟩

/-! ## What a step can do -/

namespace Deployment

section Steps

variable {End Name : Type} [DecidableEq Name]

/-- The steps of a procedure, one case for each outcome. -/
inductive Exec (s : Deployment End Name) (name : Name) : Op → Deployment End Name → Prop
  | deleteServer : Exec s name .deleteServer
      { s with traffic.net.servers := Function.update s.traffic.net.servers name none }
  | supersede {op : Op} {p : ℕ} {content : Saved}
      (hop : op = .copyPersister ∨ op = .resave ∨ op = .freshPersister)
      (h : s.saved name = some p) (hcontent : s.contents[p]? = some content) :
      Exec s name op (s.supersede name (s.contents ++ [content]) (s.historyOf p))
  | makePersister (h : s.saved name = none) :
      Exec s name .freshPersister (s.supersede name (s.contents ++ [⟨[], []⟩]) [])
  | noPersister {op : Op} (hop : op = .copyPersister ∨ op = .resave) (h : s.saved name = none) :
      Exec s name op s
  | kill : Exec s name .kill s
  | boot {services : List Service} {p : ℕ} (h : s.saved name = some p) :
      Exec s name (.boot services) { s with
        traffic.net.objects :=
          s.traffic.net.objects ++ [services.foldl Server.addService makeServer]
        storage := s.storage ++ [p]
        booted := Function.update s.booted name (some s.traffic.net.objects.length) }
  | addServer {server : ℕ} (h : s.booted name = some server) : Exec s name .addServer
      { s with traffic.net.servers := Function.update s.traffic.net.servers name (some server) }

variable [DecidableEq End]

omit [DecidableEq End] in
theorem exec_copyPersister {s t : Deployment End Name} {name : Name} {op : Op} {p : ℕ}
    (hop : op = .copyPersister ∨ op = .resave ∨ op = .freshPersister) (hp : s.saved name = some p)
    (h : s.copyPersister name p = some t) : Exec s name op t := by
  obtain ⟨contents, hcontents, rfl⟩ := Option.map_eq_some_iff.mp h
  obtain ⟨content, hcontent, rfl⟩ := Option.map_eq_some_iff.mp hcontents
  exact .supersede hop hp hcontent

omit [DecidableEq End] in
/-- A new persister to which the content of another one is saved is a copy of it. -/
theorem resave_eq (s : Deployment End Name) (name : Name) (p : ℕ) :
    s.resave name p = s.copyPersister name p := by
  cases h : s.contents[p]? <;> simp [resave, copyPersister, diskStep, h]

theorem exec_cases {s t : Deployment End Name} {name : Name} {op : Op}
    (h : s.exec name op = some t) : Exec s name op t := by
  cases op with
  | deleteServer =>
    cases h
    exact .deleteServer
  | copyPersister =>
    simp only [exec] at h
    split at h
    · next hp => exact exec_copyPersister (by simp) hp h
    · next hnone =>
      cases h
      exact .noPersister (by simp) hnone
  | kill =>
    cases h
    exact .kill
  | resave =>
    simp only [exec, resave_eq] at h
    split at h
    · next hp => exact exec_copyPersister (by simp) hp h
    · next hnone =>
      cases h
      exact .noPersister (by simp) hnone
  | freshPersister =>
    simp only [exec] at h
    split at h
    · next hp => exact exec_copyPersister (by simp) hp h
    · next hnone =>
      cases h
      exact .makePersister hnone
  | boot services =>
    obtain ⟨p, hp, rfl⟩ := Option.map_eq_some_iff.mp h
    exact .boot hp
  | addServer =>
    obtain ⟨server, hserver, hnet⟩ := Option.bind_eq_some_iff.mp h
    cases hnet
    exact .addServer hserver

/-- The steps of the machine. -/
inductive Transition (s : Deployment End Name) :
    DeploymentEvent End Name → Deployment End Name → Prop
  | network {event : Labrpc.Event End Name} {traffic : Traffic End Name}
      (hcontrol : isControl event = false) (h : s.traffic.step event = some traffic) :
      Transition s (.network event) { s with traffic }
  | save {server p : ℕ} (content : Saved) (h : s.storage[server]? = some p)
      (hp : p < s.contents.length) :
      Transition s (.save server content)
        { s with
          contents := s.contents.set p content
          histories := s.histories.modify p (· ++ [content]) }
  | command {name : Name} (command : Command) (h : s.todo name = []) :
      Transition s (.command name command)
        { s with todo := Function.update s.todo name command.ops }
  | proceed {name : Name} {op : Op} {rest : List Op} {t : Deployment End Name}
      (hop : s.todo name = op :: rest) (h : Exec s name op t) :
      Transition s (.proceed name) { t with todo := Function.update s.todo name rest }

theorem transition_of_step {s t : Deployment End Name} {event : DeploymentEvent End Name}
    (h : s.step event = some t) : Transition s event t := by
  unfold step at h
  rw [Option.ite_none_left_eq_some] at h
  obtain ⟨-, h⟩ := h
  cases event with
  | network event =>
    dsimp only at h
    rw [Option.ite_none_left_eq_some] at h
    obtain ⟨traffic, htraffic, rfl⟩ := Option.map_eq_some_iff.mp h.2
    exact .network (Bool.eq_false_iff.mpr h.1) htraffic
  | save server content =>
    obtain ⟨p, hp, h⟩ := Option.bind_eq_some_iff.mp h
    obtain ⟨contents, hcontents, h⟩ := Option.bind_eq_some_iff.mp h
    obtain ⟨hlt, hset⟩ := Option.ite_none_right_eq_some.mp hcontents
    cases hset
    cases h
    exact .save content hp hlt
  | command name command =>
    dsimp only at h
    split_ifs at h with hidle
    cases h
    exact .command command hidle
  | proceed name =>
    dsimp only at h
    split at h
    · cases h
    · next hop =>
      obtain ⟨u, hu, rfl⟩ := Option.map_eq_some_iff.mp h
      exact .proceed hop (exec_cases hu)

end Steps

/-! ## What persisters hold -/

section Recorded

variable {End Name : Type}

/-- Every persister holds what an instance has saved last, to it or to one it is a copy of, and the
persisters of servers and instances exist. -/
structure Recorded (s : Deployment End Name) : Prop where
  contents_eq : s.contents = s.histories.map lastSaved
  saved_lt : ∀ name p, s.saved name = some p → p < s.contents.length
  storage_lt : ∀ (server : ℕ) p, s.storage[server]? = some p → p < s.contents.length

theorem Recorded.length_eq {s : Deployment End Name} (hs : s.Recorded) :
    s.contents.length = s.histories.length := by
  rw [hs.contents_eq, List.length_map]

theorem Recorded.getElem? {s : Deployment End Name} (hs : s.Recorded) {p : ℕ}
    {history : List Saved} (h : s.histories[p]? = some history) :
    s.contents[p]? = some (lastSaved history) := by
  rw [hs.contents_eq, List.getElem?_map, h, Option.map_some]

theorem Recorded.historyOf {s : Deployment End Name} (hs : s.Recorded) {p : ℕ} {content : Saved}
    (h : s.contents[p]? = some content) : lastSaved (s.historyOf p) = content := by
  rw [hs.contents_eq, List.getElem?_map, Option.map_eq_some_iff] at h
  obtain ⟨history, hhistory, rfl⟩ := h
  rw [Deployment.historyOf, hhistory, Option.getD_some]

variable [DecidableEq Name]

theorem Recorded.supersede {s : Deployment End Name} (hs : s.Recorded) (name : Name)
    {content : Saved} {history : List Saved} (h : lastSaved history = content) :
    (s.supersede name (s.contents ++ [content]) history).Recorded := by
  have hlength : (s.contents ++ [content]).length = s.contents.length + 1 := List.length_append
  refine ⟨?_, fun other p hp ↦ ?_, fun server p hp ↦ ?_⟩
  · simp only [Deployment.supersede, List.map_append, List.map_cons, List.map_nil, h]
    rw [← hs.contents_eq]
  · dsimp only [Deployment.supersede] at hp ⊢
    rw [hlength]
    by_cases hname : other = name
    · subst hname
      rw [Function.update_self] at hp
      cases hp
      exact Nat.lt_succ_self _
    · rw [Function.update_of_ne hname] at hp
      exact Nat.lt_succ_of_lt (hs.saved_lt other p hp)
  · dsimp only [Deployment.supersede] at hp ⊢
    rw [hlength]
    exact Nat.lt_succ_of_lt (hs.storage_lt server p hp)

theorem Recorded.exec {s t : Deployment End Name} {name : Name} {op : Op} (hs : s.Recorded)
    (h : Exec s name op t) : t.Recorded := by
  cases h with
  | deleteServer | noPersister | kill | addServer =>
    exact ⟨hs.contents_eq, hs.saved_lt, hs.storage_lt⟩
  | supersede _ _ hcontent => exact hs.supersede name (hs.historyOf hcontent)
  | makePersister => exact hs.supersede name rfl
  | boot hp =>
    refine ⟨hs.contents_eq, hs.saved_lt, fun server q hq ↦ ?_⟩
    rcases Lists.getElem?_concat_eq_some.mp hq with hq | ⟨-, rfl⟩
    · exact hs.storage_lt server q hq
    · exact hs.saved_lt name _ hp

variable [DecidableEq End]

theorem Recorded.step {s t : Deployment End Name} {event : DeploymentEvent End Name}
    (hs : s.Recorded) (h : s.step event = some t) : t.Recorded := by
  cases transition_of_step h with
  | network | command => exact ⟨hs.contents_eq, hs.saved_lt, hs.storage_lt⟩
  | proceed _ hexec =>
    have ht := hs.exec hexec
    exact ⟨ht.contents_eq, ht.saved_lt, ht.storage_lt⟩
  | @save _ p content _ hp =>
    have hlength : (s.contents.set p content).length = s.contents.length := List.length_set
    refine ⟨?_, fun name q hq ↦ ?_, fun server q hq ↦ ?_⟩
    · dsimp only
      rw [List.modify_eq_set_get _ (hs.length_eq ▸ hp), List.map_set, lastSaved_concat,
        ← hs.contents_eq]
    · rw [hlength]
      exact hs.saved_lt name q hq
    · rw [hlength]
      exact hs.storage_lt server q hq

/-- Any instance of a running process can save. -/
theorem Recorded.save {s : Deployment End Name} (hs : s.Recorded)
    (hrunning : s.traffic.exited = false) {server p : ℕ} (hp : s.storage[server]? = some p)
    (content : Saved) :
    ∃ history u, s.histories[p]? = some history ∧ s.step (.save server content) = some u ∧
      u.contents[p]? = some content ∧ u.histories[p]? = some (history ++ [content]) := by
  have hlt := hs.storage_lt server p hp
  have hhistory := List.getElem?_eq_getElem (hs.length_eq ▸ hlt)
  refine ⟨_, { s with
    contents := s.contents.set p content
    histories := s.histories.modify p (· ++ [content]) }, hhistory, ?_,
    List.getElem?_set_self hlt, ?_⟩
  · simp [Deployment.step, hrunning, hp, diskStep, hlt]
  · simp [hhistory]

end Recorded

/-! ## Saved state only grows -/

section Growth

variable {End Name : Type}

/-- There is a list that begins with `history`. -/
def Extends (history : List Saved) (o : Option (List Saved)) : Prop :=
  ∃ longer, o = some longer ∧ history <+: longer

theorem Extends.trans {h₁ h₂ : List Saved} {o : Option (List Saved)} (hext : Extends h₂ o)
    (h : h₁ <+: h₂) : Extends h₁ o := by
  obtain ⟨longer, ho, hprefix⟩ := hext
  exact ⟨longer, ho, h.trans hprefix⟩

/-- Nothing that was saved is lost: persisters and copies of them only get more, and an instance
keeps its persister. -/
structure Grows (s t : Deployment End Name) : Prop where
  histories : ∀ (p : ℕ) history, s.histories[p]? = some history → Extends history t.histories[p]?
  storage : ∀ (server p : ℕ), s.storage[server]? = some p → t.storage[server]? = some p
  savedBy : ∀ name history, s.savedBy name = some history → Extends history (t.savedBy name)

theorem Grows.storedBy {s t : Deployment End Name} (h : Grows s t) {server : ℕ}
    {history : List Saved} (hs : Extends history (s.storedBy server)) :
    Extends history (t.storedBy server) := by
  obtain ⟨longer, hlonger, hprefix⟩ := hs
  obtain ⟨p, hp, hget⟩ := Option.bind_eq_some_iff.mp hlonger
  refine Extends.trans ?_ hprefix
  rw [Deployment.storedBy, h.storage server p hp]
  exact h.histories p longer hget

/-- A change that leaves the pointers alone and makes lists only longer. -/
theorem grows_of_histories {s t : Deployment End Name}
    (h : ∀ (p : ℕ) history, s.histories[p]? = some history → Extends history t.histories[p]?)
    (hstorage : t.storage = s.storage) (hsaved : t.saved = s.saved) : Grows s t := by
  refine ⟨h, fun server p hp ↦ hstorage ▸ hp, fun name history hs ↦ ?_⟩
  obtain ⟨p, hp, hget⟩ := Option.bind_eq_some_iff.mp hs
  rw [Deployment.savedBy, hsaved, hp]
  exact h p history hget

theorem extends_self {history : List Saved} {o : Option (List Saved)} (h : o = some history) :
    Extends history o :=
  ⟨history, h, List.prefix_refl _⟩

variable [DecidableEq Name]

theorem grows_supersede {s : Deployment End Name} (hs : s.Recorded) {name : Name}
    {contents history : List Saved} (h : ∀ old, s.savedBy name = some old → old <+: history) :
    Grows s (s.supersede name contents history) := by
  have hget : ∀ (p : ℕ) old, s.histories[p]? = some old →
      (s.histories ++ [history])[p]? = some old := by
    intro p old hp
    exact Lists.getElem?_concat_eq_some.mpr (Or.inl hp)
  refine ⟨fun p old hp ↦ extends_self (hget p old hp), fun _ _ hp ↦ hp, fun other old hold ↦ ?_⟩
  by_cases hname : other = name
  · subst hname
    refine ⟨history, ?_, h old hold⟩
    simp [supersede, savedBy, hs.length_eq]
  · obtain ⟨p, hp, hold⟩ := Option.bind_eq_some_iff.mp hold
    apply extends_self
    simp only [supersede, savedBy, Function.update_of_ne hname, hp, Option.bind_some]
    exact hget p old hold

theorem grows_exec {s t : Deployment End Name} (hs : s.Recorded) {name : Name} {op : Op}
    (h : Exec s name op t) : Grows s t := by
  have hsame : ∀ (p : ℕ) history, s.histories[p]? = some history →
      Extends history s.histories[p]? :=
    fun _ _ ↦ extends_self
  cases h with
  | deleteServer | noPersister | kill | addServer => exact grows_of_histories hsame rfl rfl
  | supersede _ hp =>
    apply grows_supersede hs
    intro old hold
    rw [savedBy, hp, Option.bind_some] at hold
    rw [historyOf, hold]
    exact List.prefix_refl _
  | makePersister hnone =>
    apply grows_supersede hs
    intro old hold
    rw [savedBy, hnone] at hold
    cases hold
  | boot =>
    refine ⟨hsame, fun server p hp ↦ ?_, fun _ _ ↦ extends_self⟩
    exact Lists.getElem?_concat_eq_some.mpr (Or.inl hp)

variable [DecidableEq End]

theorem grows_step {s t : Deployment End Name} {event : DeploymentEvent End Name}
    (hs : s.Recorded) (h : s.step event = some t) : Grows s t := by
  have hsame : ∀ (p : ℕ) history, s.histories[p]? = some history →
      Extends history s.histories[p]? :=
    fun _ _ ↦ extends_self
  cases transition_of_step h with
  | network | command => exact grows_of_histories hsame rfl rfl
  | @save _ q content =>
    refine grows_of_histories (fun p history hp ↦ ?_) rfl rfl
    simp only [List.getElem?_modify, hp, Option.map_eq_map, Option.map_some]
    split
    · exact ⟨_, rfl, List.prefix_append _ _⟩
    · exact extends_self rfl
  | proceed _ hexec =>
    obtain ⟨hhistories, hstorage, hsaved⟩ := grows_exec hs hexec
    exact ⟨hhistories, hstorage, hsaved⟩

end Growth

/-! ## The order of the procedures -/

section Order

variable {End Name : Type}

/-- What is left of a procedure is in order: no persister is superseded while the server is
registered, and the object that is registered was made for the persister that is current. -/
def InOrder (registered ready : Prop) : List Op → Prop
  | [] => True
  | .deleteServer :: rest => InOrder False ready rest
  | .copyPersister :: rest | .resave :: rest | .freshPersister :: rest =>
    ¬ registered ∧ InOrder registered False rest
  | .kill :: rest => InOrder registered ready rest
  | .boot _ :: rest => InOrder registered True rest
  | .addServer :: rest => ready ∧ InOrder True ready rest

theorem InOrder.mono {r r' b b' : Prop} (hr : r' → r) (hb : b → b') {ops : List Op}
    (h : InOrder r b ops) : InOrder r' b' ops := by
  induction ops generalizing r r' b b' with
  | nil => trivial
  | cons op rest ih =>
    cases op with
    | deleteServer => exact ih id hb h
    | copyPersister | resave | freshPersister => exact ⟨fun hr' ↦ h.1 (hr hr'), ih hr id h.2⟩
    | kill => exact ih hr hb h
    | boot => exact ih hr id h
    | addServer => exact ⟨hb h.1, ih id hb h.2⟩

/-- Every procedure is in order, if `StartServer` is only used for a server that is not there. -/
theorem inOrder_ops (command : Command) {registered ready : Prop}
    (h : ∀ services, command = .startServer services → ¬ registered) :
    InOrder registered ready command.ops := by
  cases command with
  | startServer services => exact ⟨h services rfl, trivial, trivial⟩
  | shutdownServer => exact ⟨not_false, trivial⟩
  | crash1 => exact ⟨not_false, not_false, trivial⟩
  | start1 => exact ⟨not_false, not_false, not_false, trivial, trivial⟩

/-- The instance behind a server object has the persister that the server was given last. -/
def Current (s : Deployment End Name) (name : Name) (server : ℕ) : Prop :=
  ∃ p, s.storage[server]? = some p ∧ s.saved name = some p

/-- The object that was made last for a server is there for its current persister. -/
def Ready (s : Deployment End Name) (name : Name) : Prop :=
  ∃ server, s.booted name = some server ∧ s.Current name server

structure Ordered (s : Deployment End Name) : Prop where
  valid : s.traffic.Valid
  length_eq : s.traffic.net.objects.length = s.storage.length
  current : ∀ name server, s.traffic.net.servers name = some server → s.Current name server
  todo : ∀ name, InOrder (s.traffic.net.servers name ≠ none) (s.Ready name) (s.todo name)

/-- `StartServer` is used for a server that was shut down or never started. -/
def shutdownFirst (s : Deployment End Name) : DeploymentEvent End Name → Bool
  | .command name (.startServer _) => (s.traffic.net.servers name).isNone
  | _ => true

theorem Current.of_eq {s t : Deployment End Name} {name : Name} {server : ℕ}
    (h : s.Current name server)
    (hstorage : ∀ server p : ℕ, s.storage[server]? = some p → t.storage[server]? = some p)
    (hsaved : t.saved name = s.saved name) : t.Current name server := by
  obtain ⟨p, hp, hcurrent⟩ := h
  exact ⟨p, hstorage server p hp, hsaved.trans hcurrent⟩

/-- The two states have the same for a server. -/
structure SameAt (s t : Deployment End Name) (name : Name) : Prop where
  servers : t.traffic.net.servers name = s.traffic.net.servers name
  saved : t.saved name = s.saved name
  booted : t.booted name = s.booted name
  todo : t.todo name = s.todo name

variable [DecidableEq Name]

/-- A step that concerns one server only. -/
theorem Ordered.update {s t : Deployment End Name} (hs : s.Ordered) (name : Name)
    (hvalid : t.traffic.Valid) (hlength : t.traffic.net.objects.length = t.storage.length)
    (hstorage : ∀ server p : ℕ, s.storage[server]? = some p → t.storage[server]? = some p)
    (hsame : ∀ other, other ≠ name → SameAt s t other)
    (hcurrent : ∀ server, t.traffic.net.servers name = some server → t.Current name server)
    (htodo : InOrder (t.traffic.net.servers name ≠ none) (t.Ready name) (t.todo name)) :
    t.Ordered := by
  refine ⟨hvalid, hlength, fun other server h ↦ ?_, fun other ↦ ?_⟩
  · by_cases hname : other = name
    · subst hname
      exact hcurrent server h
    · have hother := hsame other hname
      rw [hother.servers] at h
      exact (hs.current other server h).of_eq hstorage hother.saved
  · by_cases hname : other = name
    · subst hname
      exact htodo
    · have hother := hsame other hname
      rw [hother.todo]
      apply (hs.todo other).mono
      · rw [hother.servers]
        exact id
      · rintro ⟨server, hbooted, hserver⟩
        exact ⟨server, hother.booted.trans hbooted, hserver.of_eq hstorage hother.saved⟩

/-- Superseding the persister of a server that is not registered. -/
theorem Ordered.supersede {s : Deployment End Name} (hs : s.Ordered) {name : Name} {rest : List Op}
    (hdown : ¬ s.traffic.net.servers name ≠ none)
    (hrest : InOrder (s.traffic.net.servers name ≠ none) False rest)
    (contents history : List Saved) :
    Ordered { s.supersede name contents history with
      todo := Function.update s.todo name rest } := by
  have hnone : s.traffic.net.servers name = none := not_not.mp hdown
  refine hs.update name hs.valid hs.length_eq (fun _ _ h ↦ h) (fun other hname ↦ ?_)
    (fun server h ↦ ?_) ?_
  · exact ⟨rfl, Function.update_of_ne hname _ _, rfl, Function.update_of_ne hname _ _⟩
  · cases hnone.symm.trans h
  · dsimp only
    rw [Function.update_self]
    exact hrest.mono id False.elim

/-- An operation that leaves everything as it is. -/
theorem Ordered.skip {s : Deployment End Name} (hs : s.Ordered) {name : Name} {rest : List Op}
    (hrest : InOrder (s.traffic.net.servers name ≠ none) (s.Ready name) rest) :
    Ordered { s with todo := Function.update s.todo name rest } := by
  refine hs.update name hs.valid hs.length_eq (fun _ _ h ↦ h) (fun other hname ↦ ?_)
    (hs.current name) ?_
  · exact ⟨rfl, rfl, rfl, Function.update_of_ne hname _ _⟩
  · dsimp only
    rw [Function.update_self]
    exact hrest

theorem Ordered.exec {s t : Deployment End Name} (hs : s.Ordered) {name : Name} {op : Op}
    {rest : List Op} (hop : s.todo name = op :: rest) (h : Exec s name op t) :
    Ordered { t with todo := Function.update s.todo name rest } := by
  have htodo := hs.todo name
  rw [hop] at htodo
  cases h with
  | deleteServer =>
    refine hs.update name hs.valid hs.length_eq (fun _ _ h ↦ h) (fun other hname ↦ ?_)
      (fun server h ↦ ?_) ?_
    · exact ⟨Function.update_of_ne hname _ _, rfl, rfl, Function.update_of_ne hname _ _⟩
    · simp at h
    · dsimp only
      rw [Function.update_self, Function.update_self]
      exact InOrder.mono (r := False) (fun h ↦ h rfl) id htodo
  | supersede hsupersede =>
    rcases hsupersede with rfl | rfl | rfl <;> exact hs.supersede htodo.1 htodo.2 _ _
  | makePersister => exact hs.supersede htodo.1 htodo.2 _ _
  | noPersister hnone =>
    apply hs.skip
    rcases hnone with rfl | rfl <;> exact htodo.2.mono id False.elim
  | kill => exact hs.skip htodo
  | @boot _ p hp =>
    have hgrow : ∀ server q : ℕ, s.storage[server]? = some q →
        (s.storage ++ [p])[server]? = some q := by
      intro server q hq
      exact Lists.getElem?_concat_eq_some.mpr (Or.inl hq)
    refine hs.update name hs.valid (by simp [hs.length_eq]) hgrow (fun other hname ↦ ?_)
      (fun server h ↦ (hs.current name server h).of_eq hgrow rfl) ?_
    · exact ⟨rfl, rfl, Function.update_of_ne hname _ _, Function.update_of_ne hname _ _⟩
    · dsimp only
      rw [Function.update_self]
      refine InOrder.mono id (fun _ ↦ ?_) htodo
      refine ⟨s.traffic.net.objects.length, Function.update_self .., p, ?_, hp⟩
      exact Lists.getElem?_concat_eq_some.mpr (Or.inr ⟨hs.length_eq, rfl⟩)
  | @addServer server hserver =>
    obtain ⟨⟨server', hbooted, hcurrent⟩, hrest⟩ := htodo
    cases hserver.symm.trans hbooted
    refine hs.update name hs.valid hs.length_eq (fun _ _ h ↦ h) (fun other hname ↦ ?_)
      (fun server' h ↦ ?_) ?_
    · exact ⟨Function.update_of_ne hname _ _, rfl, rfl, Function.update_of_ne hname _ _⟩
    · dsimp only at h
      rw [Function.update_self] at h
      cases h
      exact hcurrent
    · dsimp only
      rw [Function.update_self, Function.update_self]
      exact hrest.mono (fun _ ↦ trivial) id

variable [DecidableEq End]

/-- Calls and other changes of the network leave the registered servers and the objects. -/
theorem servers_of_network {s t : Traffic End Name} {event : Labrpc.Event End Name}
    (hcontrol : isControl event = false) (h : s.step event = some t) :
    t.net.servers = s.net.servers ∧ t.net.objects.length = s.net.objects.length := by
  cases Traffic.transition_of_step h with
  | @change change net happly =>
    cases change <;> simp only [Network.apply] at happly <;> (try split_ifs at happly) <;>
      cases happly <;>
        first | exact ⟨rfl, rfl⟩ | exact ⟨rfl, List.length_modify ..⟩ | cases hcontrol
  | exit | call | stop => exact ⟨rfl, rfl⟩
  | advance _ _ hc => cases hc <;> first | exact ⟨rfl, rfl⟩ | exact ⟨rfl, List.length_modify ..⟩

theorem Ordered.step {s t : Deployment End Name} {event : DeploymentEvent End Name}
    (hs : s.Ordered) (hok : s.shutdownFirst event = true) (h : s.step event = some t) :
    t.Ordered := by
  cases transition_of_step h with
  | network hcontrol htraffic =>
    obtain ⟨hservers, hlength⟩ := servers_of_network hcontrol htraffic
    refine ⟨hs.valid.step htraffic, hlength.trans hs.length_eq, fun name server hserver ↦ ?_,
      fun name ↦ ?_⟩
    · exact hs.current name server (hservers ▸ hserver)
    · dsimp only
      rw [hservers]
      exact hs.todo name
  | save => exact ⟨hs.valid, hs.length_eq, hs.current, hs.todo⟩
  | @command name command hidle =>
    refine hs.update name hs.valid hs.length_eq (fun _ _ h ↦ h) (fun other hname ↦ ?_)
      (hs.current name) ?_
    · exact ⟨rfl, rfl, rfl, Function.update_of_ne hname _ _⟩
    · dsimp only
      rw [Function.update_self]
      apply inOrder_ops
      rintro services rfl hregistered
      exact hregistered (Option.isNone_iff_eq_none.mp hok)
  | proceed hop hexec => exact hs.exec hop hexec

end Order

/-! ## What was acknowledged -/

section Acknowledged

variable {End Name : Type}

/-- `processReq` has found the server alive after its handler had returned. -/
def isPast : Stage → Bool
  | .checked _ | .delayed _ | .sending _ | .returned (some _) => true
  | _ => false

theorem exists_reply_of_isPast {stage : Stage} (h : isPast stage = true) :
    ∃ reply, stage.reply = some reply := by
  cases stage with
  | checked reply | delayed reply | sending reply => exact ⟨reply, rfl⟩
  | returned reply =>
    cases reply with
    | some reply => exact ⟨reply, rfl⟩
    | none => cases h
  | _ => cases h

/-- Once the handler was entered, the call keeps its link, and it passes the last look only if the
server is alive. -/
theorem step_of_invoked {net net' : Network End Name} {c c' : Call End Name} {event : CallEvent}
    (hc : c.Valid) (hd : c.dispatch ≠ .none) (h : c.Step net event net' c') :
    c'.link = c.link ∧ c'.dispatch ≠ .none ∧
      (isPast c'.stage = true → isPast c.stage = true ∨
        ∀ link, c.link = some link → net.isServerDead c.request.endname link = false) := by
  have hearly : c.stage.isEarly ≠ true := fun h ↦ hd (hc.idle h).1
  cases h with
  | accept h | countCall h | countArgs h | abort h | read h | unreachable h | drop h | launch h
  | expire h =>
    exact absurd (by rw [h]; rfl) hearly
  | dispatch | enter | reply | drain => exact ⟨rfl, by simp, Or.inl⟩
  | takeReply => exact ⟨rfl, by simp, fun h ↦ by cases h⟩
  | giveUp => exact ⟨rfl, hd, fun h ↦ by cases h⟩
  | goOn => exact ⟨rfl, hd, Or.inl⟩
  | pass _ hlink halive =>
    refine ⟨rfl, hd, fun _ ↦ Or.inr fun link hl ↦ ?_⟩
    cases hlink.symm.trans hl
    exact halive
  | fail | dropReply => exact ⟨rfl, hd, fun h ↦ by cases h⟩
  | delayReply h | forward h | deliver h | expireReply h =>
    exact ⟨rfl, hd, fun _ ↦ Or.inl (by rw [h]; rfl)⟩

/-- Call `k` has entered its handler over `link`.  What the instance had saved by then is still
there; once the call has passed the last look, the persister of the server has it. -/
structure Kept (k : ℕ) (link : Link Name) (history : List Saved) (s : Deployment End Name) :
    Prop where
  call : ∃ c, s.traffic.calls[k]? = some c ∧ c.link = some link ∧ c.dispatch ≠ .none ∧
    (isPast c.stage = true → Extends history (s.savedBy link.name))
  stored : Extends history (s.storedBy link.server)

/-- The persister of a server that is alive is that of the instance behind it. -/
theorem Ordered.saved_of_alive {s : Deployment End Name} (hs : s.Ordered) {endname : End}
    {link : Link Name} (halive : s.traffic.net.isServerDead endname link = false)
    {history : List Saved} (hstored : Extends history (s.storedBy link.server)) :
    Extends history (s.savedBy link.name) := by
  have hserver : s.traffic.net.enabled endname = true ∧
      s.traffic.net.servers link.name = some link.server := by
    simpa [Network.isServerDead] using halive
  obtain ⟨p, hp, hsaved⟩ := hs.current link.name link.server hserver.2
  rw [savedBy, hsaved]
  rwa [storedBy, hp] at hstored

variable [DecidableEq End] [DecidableEq Name]

theorem Kept.step {s t : Deployment End Name} {event : DeploymentEvent End Name} {k : ℕ}
    {link : Link Name} {history : List Saved} (hs : s.Ordered) (hrecorded : s.Recorded)
    (hk : Kept k link history s) (h : s.step event = some t) : Kept k link history t := by
  have hgrows := grows_step hrecorded h
  have hsavedBy : Extends history (s.savedBy link.name) →
      Extends history (t.savedBy link.name) := by
    rintro ⟨longer, hlonger, hprefix⟩
    exact (hgrows.savedBy link.name longer hlonger).trans hprefix
  refine ⟨?_, hgrows.storedBy hk.stored⟩
  obtain ⟨c, hc, hlink, hd, hpast⟩ := hk.call
  have hsame : t.traffic.calls[k]? = some c → ∃ c, t.traffic.calls[k]? = some c ∧
      c.link = some link ∧ c.dispatch ≠ .none ∧
      (isPast c.stage = true → Extends history (t.savedBy link.name)) :=
    fun hc ↦ ⟨c, hc, hlink, hd, fun hstage ↦ hsavedBy (hpast hstage)⟩
  cases transition_of_step h with
  | save | command => exact hsame hc
  | proceed _ hexec =>
    apply hsame
    cases hexec <;> exact hc
  | network _ htraffic =>
    cases Traffic.transition_of_step htraffic with
    | change | exit | stop => exact hsame hc
    | call => exact hsame (Lists.getElem?_concat_eq_some.mpr (Or.inl hc))
    | @advance j _ c₀ c' _ hj _ hcall =>
      by_cases hjk : j = k
      · subst hjk
        cases hc.symm.trans hj
        have hvalid := hs.valid c (List.mem_of_getElem? hc)
        obtain ⟨hlink', hd', hpast'⟩ := step_of_invoked hvalid hd hcall
        refine ⟨c', ?_, hlink'.trans hlink, hd', fun hstage ↦ ?_⟩
        · exact List.getElem?_set_self (List.getElem?_eq_some_iff.mp hc).1
        · rcases hpast' hstage with hbefore | halive
          · exact hsavedBy (hpast hbefore)
          · exact hs.saved_of_alive (halive link hlink) hk.stored
      · exact hsame ((List.getElem?_set_ne hjk).trans hc)

/-- **What is acknowledged is saved.** Servers are shut down before they are started again.  Any
instance can save, and its persister then holds what it has saved.  If a client gets a reply, then
from then on the persister of the server holds the last of a sequence of saves that begins with all
saves of the answering instance up to any moment before its handler returned, whatever is shut down,
started or saved meanwhile.  So the next instance starts from the last of those saves or from a
later one, never from an earlier one or an empty persister. -/
theorem acknowledged_saved {s t : Deployment End Name}
    (hs : (deployment End Name).ReachableWhen (fun u e ↦ u.shutdownFirst e = true) s)
    (h : (deployment End Name).ReachableFrom (fun u e ↦ u.shutdownFirst e = true) s t) :
    (s.traffic.exited = false → ∀ (server p : ℕ) content, s.storage[server]? = some p →
      ∃ history u, s.histories[p]? = some history ∧ s.step (.save server content) = some u ∧
        u.contents[p]? = some content ∧ u.histories[p]? = some (history ++ [content])) ∧
    ∀ (k : ℕ) (c c' : Call End Name) (link : Link Name) (history : List Saved) (reply : GoString),
      s.traffic.calls[k]? = some c → c.dispatch = .entered → c.link = some link →
      s.storedBy link.server = some history →
      t.traffic.calls[k]? = some c' → c'.stage = .returned (some reply) →
      ∃ p saved, t.saved link.name = some p ∧ t.histories[p]? = some saved ∧ history <+: saved ∧
        t.contents[p]? = some (lastSaved saved) := by
  have hinv : s.Ordered ∧ s.Recorded := by
    apply Machine.ReachableFrom.invariant (I := fun s ↦ s.Ordered ∧ s.Recorded) hs
    · exact ⟨⟨fun _ hc ↦ absurd hc List.not_mem_nil, rfl, by simp [deployment, Traffic.initial,
        makeNetwork], fun _ ↦ trivial⟩, rfl, by simp [deployment], by simp [deployment]⟩
    · exact fun _ _ _ hs hok hstep ↦ ⟨hs.1.step hok hstep, hs.2.step hstep⟩
  refine ⟨fun hrunning _ _ content hp ↦ hinv.2.save hrunning hp content,
    fun k c c' link history reply hc hentered hlink hstored hc' hreply ↦ ?_⟩
  have hkept : (t.Ordered ∧ t.Recorded) ∧ Kept k link history t := by
    apply h.invariant (I := fun t ↦ (t.Ordered ∧ t.Recorded) ∧ Kept k link history t)
    · refine ⟨hinv, ⟨c, hc, hlink, by simp [hentered], fun hpast ↦ ?_⟩, extends_self hstored⟩
      -- a call that is past the last look has received its reply
      obtain ⟨reply, hreply⟩ := exists_reply_of_isPast hpast
      have hfinished := (hinv.1.valid c (List.mem_of_getElem? hc)).received reply hreply
      rw [hentered] at hfinished
      cases hfinished
    · rintro u e v ⟨⟨hordered, hrecorded⟩, hu⟩ hok hstep
      exact ⟨⟨hordered.step hok hstep, hrecorded.step hstep⟩, hu.step hordered hrecorded hstep⟩
  obtain ⟨c'', hc'', -, -, hpast⟩ := hkept.2.call
  cases hc'.symm.trans hc''
  obtain ⟨saved, hsaved, hprefix⟩ := hpast (by rw [hreply]; rfl)
  obtain ⟨p, hp, hhistory⟩ := Option.bind_eq_some_iff.mp hsaved
  exact ⟨p, saved, hp, hhistory, hprefix, hkept.1.2.getElem? hhistory⟩

/-- A server is started, saves and answers a call. -/
def sampleStart : List (DeploymentEvent ℕ ℕ) :=
  [.command 0 (.startServer [⟨ascii "Raft", [ascii "RequestVote"]⟩]), .proceed 0, .proceed 0,
    .proceed 0, .network (.change (.makeEnd 0)), .network (.change (.connect 0 0)),
    .network (.change (.enable 0 true)), .network (.call ⟨0, ascii "Raft.RequestVote", []⟩)] ++
  ([.accept, .countCall, .countArgs, .read, .launch, .dispatch, .enter].map fun e ↦
    .network (.advance 0 e)) ++ [.save 0 ⟨[7], []⟩]

/-- The call is answered, the server is shut down and started again, and the old instance saves
before and after its persister is superseded. -/
def sampleRestart : List (DeploymentEvent ℕ ℕ) :=
  ([.reply [], .takeReply, .check, .forward, .deliver].map fun e ↦ .network (.advance 0 e)) ++
  [.command 0 .shutdownServer, .proceed 0, .save 0 ⟨[8], []⟩, .proceed 0, .save 0 ⟨[9], []⟩,
    .proceed 0, .command 0 (.startServer []), .proceed 0, .proceed 0]

theorem acknowledged_saved_sample :
    ∃ s t : Deployment ℕ ℕ,
      (deployment ℕ ℕ).ReachableFrom (fun u e ↦ u.shutdownFirst e = true) s t ∧
      s.storedBy 0 = some [⟨[7], []⟩] ∧
      t.storedBy 0 = some [⟨[7], []⟩, ⟨[8], []⟩, ⟨[9], []⟩] ∧
      ∃ p saved, t.saved 0 = some p ∧ t.histories[p]? = some saved ∧ [⟨[7], []⟩] <+: saved ∧
        t.contents[p]? = some (lastSaved saved) := by
  have hrun : ∃ s : Deployment ℕ ℕ,
      (deployment ℕ ℕ).ReachableWhen (fun u e ↦ u.shutdownFirst e = true) s ∧
      s.storedBy 0 = some [⟨[7], []⟩] ∧
      (s.traffic.calls.map fun c ↦ (c.dispatch, c.link.map fun l ↦ (l.server, l.name))) =
        [(.entered, some (0, 0))] ∧
      ((deployment ℕ ℕ).runWhen (fun u e ↦ u.shutdownFirst e = true) s sampleRestart).any
        (fun t ↦ t.storedBy 0 = some [⟨[7], []⟩, ⟨[8], []⟩, ⟨[9], []⟩] ∧
          t.traffic.calls.map Call.stage = [.returned (some [])]) = true :=
    Machine.exists_reachableWhen sampleStart (by decide)
  obtain ⟨s, hs, hstored, hcalls, hmore⟩ := hrun
  obtain ⟨t, ht, hafter⟩ := (Option.any_eq_true _ _).mp hmore
  obtain ⟨hstored', hstages⟩ := of_decide_eq_true hafter
  have hreach := Machine.ReachableFrom.of_runWhen ht
  obtain ⟨c, hc⟩ : ∃ c, s.traffic.calls = [c] := by
    apply List.length_eq_one_iff.mp
    simpa using congrArg List.length hcalls
  obtain ⟨c', hc'⟩ : ∃ c', t.traffic.calls = [c'] := by
    apply List.length_eq_one_iff.mp
    simpa using congrArg List.length hstages
  simp only [hc, List.map_cons, List.map_nil, List.cons.injEq, and_true, Prod.mk.injEq] at hcalls
  simp only [hc', List.map_cons, List.map_nil, List.cons.injEq, and_true] at hstages
  obtain ⟨link, hlink, hpair⟩ := Option.map_eq_some_iff.mp hcalls.2
  obtain ⟨hserver, hname⟩ := Prod.mk.injEq .. ▸ hpair
  have hsaved := (acknowledged_saved hs hreach).2 0 c c' link _ _ (by rw [hc]; rfl) hcalls.1 hlink
    (by rw [hserver]; exact hstored) (by rw [hc']; rfl) hstages
  rw [hname] at hsaved
  exact ⟨s, t, hreach, hstored, hstored', hsaved⟩

end Acknowledged

end Deployment

end DistKvRaft.Raft
