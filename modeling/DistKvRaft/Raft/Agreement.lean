import DistKvRaft.Raft.Checker

/-!
# Agreement as the tester waits for it

`one` hands a command to a server that takes itself for the leader and waits until enough servers
have applied it; `wait` waits for an index.  Both count with `nCommitted`, which takes the lock anew
for every server, so that messages are recorded while it counts.  This is about tests without
snapshots, whose servers are read by `applier`.

An `applier` that finds an error has already recorded the command, possibly in place of another one,
and ends the process only after it has released the lock.  What was counted has been applied in any
case.  While no check has failed, the record is that of all messages so far and no index has two
commands: `one` returns only with agreement, and a count that begins after the agreement does not
miss it.
-/

namespace DistKvRaft.Raft

/-! ## Counting while messages are recorded -/

/-- How many of the first `n` servers have recorded a command under an index. -/
def Checker.committed {V : Type} [DecidableEq V] (cfg : Checker V) (n : ℕ) (index : ℤ) (cmd : V) :
    ℕ :=
  (List.range n).countP fun i ↦ decide (cfg.entry i index = some cmd)

/-- How many of the first `n` servers have applied a command at an index. -/
def appliedBy {V : Type} [DecidableEq V] (history : List (ℕ × ApplyMsg V)) (n : ℕ) (index : ℤ)
    (cmd : V) : ℕ :=
  (List.range n).countP fun i ↦ decide (⟨i, index, cmd⟩ ∈ applied history)

/-- `nCommitted` between two servers: the next one to look at, and the count and the command so
far. -/
structure Scan (V : Type) where
  index : ℤ
  server : ℕ
  count : ℕ
  cmd : V
  deriving DecidableEq

namespace Scan

variable {V : Type}

def start [Inhabited V] (index : ℤ) : Scan V := ⟨index, 0, 0, default⟩

/-- Look at one server; `none` where the test fails because the committed values do not match. -/
def read [DecidableEq V] (scan : Scan V) (cfg : Checker V) : Option (Scan V) :=
  match cfg.entry scan.server scan.index with
  | none => some { scan with server := scan.server + 1 }
  | some cmd1 =>
    if scan.count > 0 ∧ scan.cmd ≠ cmd1 then none
    else some ⟨scan.index, scan.server + 1, scan.count + 1, cmd1⟩

end Scan

/-- A goroutine that runs `applier` for a server.  Once it has found an error it only ends the
process, so `applyErr` stays empty. -/
structure Applier (V : Type) where
  server : ℕ
  err : Option (ApplyError V)

/-- The tester's record, and a goroutine that looks at it.  `history` has the messages that were
taken, and `exited` the error that has ended the process. -/
structure Observed (V G : Type) where
  cfg : Checker V
  appliers : List (Applier V)
  history : List (ℕ × ApplyMsg V)
  exited : Option (ApplyError V)
  goroutine : G

inductive ObservedEvent (V E : Type)
  /-- a server is started or started again; the `applier` of an earlier instance goes on -/
  | start (server : ℕ)
  /-- an `applier` takes a message and, in one critical section, checks and records its command -/
  | apply (k : ℕ) (m : ApplyMsg V)
  /-- `log.Fatalf` -/
  | exit (k : ℕ)
  | act (e : E)

/-- The tester of `n` servers, with a goroutine whose steps see the record of the moment. -/
def observed {V G E : Type} [DecidableEq V] (n : ℕ) (init : G)
    (act : Checker V → G → E → Option G) : Machine (Observed V G) (ObservedEvent V E) where
  init := ⟨.initial n, [], [], none, init⟩
  step s e :=
    if s.exited.isSome then none
    else match e with
      | .start server =>
        if server < n then some { s with appliers := s.appliers ++ [⟨server, none⟩] } else none
      | .apply k m =>
        match s.appliers[k]? with
        | some ⟨server, none⟩ =>
          let (cfg, err) := s.cfg.applier server m
          some
            { s with
              cfg
              appliers := s.appliers.set k ⟨server, err⟩
              history := s.history ++ [(server, m)] }
        | _ => none
      | .exit k =>
        match s.appliers[k]? with
        | some ⟨_, some err⟩ => some { s with exited := some err }
        | _ => none
      | .act e => (act s.cfg s.goroutine e).map fun goroutine ↦ { s with goroutine }

/-! ## one -/

structure OneArgs (V : Type) where
  cmd : V
  expectedServers : ℤ
  retry : Bool

/-- Where `one` stands: at the test of its outer loop, in the loop over the servers, at the test of
the loop that waits, inside of `nCommitted`, or at its end. -/
inductive OneStage (V : Type)
  | idle
  | trying (si : ℕ)
  | waiting (index : ℤ)
  | counting (scan : Scan V)
  | returned (index : ℤ)
  | failed
  deriving DecidableEq

/-- A call of `one`, with what other goroutines may change meanwhile: `rafts` says which servers are
not nil.  `accepted` has the calls of `Start` that returned true, with their index. -/
structure One (V : Type) where
  connected : ℕ → Bool
  rafts : ℕ → Bool
  finished : Bool
  starts : ℕ
  stage : OneStage V
  accepted : List (ℕ × ℤ)

/-- The clock decides whether a loop is `late`; what `Start` returns is a part of the event. -/
inductive OneEvent
  | setConnected (i : ℕ) (connected : Bool)
  | setRaft (i : ℕ) (present : Bool)
  | finish
  | round (late : Bool)
  | start (index : ℤ) (isLeader : Bool)
  | poll (late : Bool)
  | read

section Model

variable {V : Type} [DecidableEq V] (n : ℕ)

/-- The loop over the servers, or what follows it when no server has taken the command. -/
def OneStage.tryFrom (si : ℕ) : OneStage V := if si < n then .trying si else .idle

/-- Go on with the count, or use it. -/
def OneArgs.judge (args : OneArgs V) (scan : Scan V) : OneStage V :=
  if scan.server < n then .counting scan
  else if scan.count > 0 ∧ (scan.count : ℤ) ≥ args.expectedServers ∧ scan.cmd = args.cmd then
    .returned scan.index
  else .waiting scan.index

def One.initial : One V := ⟨fun _ ↦ false, fun _ ↦ false, false, 0, .idle, []⟩

def One.act [Inhabited V] (args : OneArgs V) (cfg : Checker V) (one : One V) :
    OneEvent → Option (One V)
  | .setConnected i connected =>
    some { one with connected := Function.update one.connected i connected }
  | .setRaft i present => some { one with rafts := Function.update one.rafts i present }
  | .finish => some { one with finished := true }
  | .round late =>
    match one.stage with
    | .idle => some
      { one with
        stage :=
          if late = false ∧ one.finished = false then .tryFrom n 0
          else if one.finished then .returned (-1)
          else .failed }
    | _ => none
  | .start index isLeader =>
    match one.stage with
    | .trying si =>
      let server := (one.starts + 1) % n
      if one.connected server ∧ one.rafts server ∧ isLeader then some
        { one with
          starts := server
          stage := if index = -1 then .idle else .waiting index
          accepted := one.accepted ++ [(server, index)] }
      else some { one with starts := server, stage := .tryFrom n (si + 1) }
    | _ => none
  | .poll late =>
    match one.stage with
    | .waiting index => some
      { one with
        stage :=
          if late then if args.retry then .idle else .failed
          else args.judge n (.start index) }
    | _ => none
  | .read =>
    match one.stage with
    | .counting scan => some
      { one with
        stage := match scan.read cfg with
          | some scan => args.judge n scan
          | none => .failed }
    | _ => none

end Model

/-- The machine of a call of `one`. -/
def oneCall {V : Type} [DecidableEq V] [Inhabited V] (n : ℕ) (args : OneArgs V) :
    Machine (Observed V (One V)) (ObservedEvent V OneEvent) :=
  observed n .initial (One.act n args)

/-! ## wait -/

structure WaitArgs where
  index : ℤ
  n : ℤ
  startTerm : ℤ

/-- Where `wait` stands: in a count of its loop, in the sleep after it, in the count after the loop,
or at its end, which is early if a term has moved on. -/
inductive WaitStage (V : Type)
  | counting (iters : ℕ) (scan : Scan V)
  | sleeping (iters : ℕ)
  | deciding (scan : Scan V)
  | returned (cmd : V)
  | movedOn
  | failed
  deriving DecidableEq

/-- The terms that `GetState` returns are a part of the event. -/
inductive WaitEvent
  | read
  | wake (terms : List ℤ)

section Model

variable {V : Type} [DecidableEq V] (n : ℕ) (args : WaitArgs)

/-- Go on with the last count, or use it. -/
def WaitArgs.decide (scan : Scan V) : WaitStage V :=
  if scan.server < n then .deciding scan
  else if (scan.count : ℤ) < args.n then .failed
  else .returned scan.cmd

/-- Go on with a count of the loop, or use it. -/
def WaitArgs.look [Inhabited V] (iters : ℕ) (scan : Scan V) : WaitStage V :=
  if scan.server < n then .counting iters scan
  else if (scan.count : ℤ) ≥ args.n then args.decide n (.start args.index)
  else .sleeping iters

def WaitArgs.act [Inhabited V] (cfg : Checker V) (stage : WaitStage V) :
    WaitEvent → Option (WaitStage V)
  | .read =>
    match stage with
    | .counting iters scan => some <|
      match scan.read cfg with
      | some scan => args.look n iters scan
      | none => .failed
    | .deciding scan => some <|
      match scan.read cfg with
      | some scan => args.decide n scan
      | none => .failed
    | _ => none
  | .wake terms =>
    match stage with
    | .sleeping iters => some <|
      if args.startTerm > -1 ∧ terms.any (· > args.startTerm) then .movedOn
      else if iters + 1 < 30 then args.look n (iters + 1) (.start args.index)
      else args.decide n (.start args.index)
    | _ => none

end Model

/-- The machine of a call of `wait`. -/
def waitCall {V : Type} [DecidableEq V] [Inhabited V] (n : ℕ) (args : WaitArgs) :
    Machine (Observed V (WaitStage V)) (ObservedEvent V WaitEvent) :=
  observed n (args.look n 0 (.start args.index)) (args.act n)

/-! ## What is recorded -/

section Counts

variable {V : Type} [DecidableEq V] {history past : List (ℕ × ApplyMsg V)} {k : ℕ} {index : ℤ}
  {cmd : V}

theorem appliedBy_succ (history : List (ℕ × ApplyMsg V)) (k : ℕ) (index : ℤ) (cmd : V) :
    appliedBy history (k + 1) index cmd =
      appliedBy history k index cmd + if ⟨k, index, cmd⟩ ∈ applied history then 1 else 0 := by
  simp [appliedBy, List.range_succ, List.countP_append, List.countP_singleton]

theorem appliedBy_le_concat (history : List (ℕ × ApplyMsg V)) (e : ℕ × ApplyMsg V) (k : ℕ)
    (index : ℤ) (cmd : V) :
    appliedBy history k index cmd ≤ appliedBy (history ++ [e]) k index cmd := by
  apply List.countP_mono_left
  intro i _ hi
  rw [decide_eq_true_iff] at hi ⊢
  rw [Checker.applied_append]
  exact List.mem_append_left _ hi

theorem exists_applied_of_appliedBy (h : 0 < appliedBy history k index cmd) :
    ∃ i < k, ⟨i, index, cmd⟩ ∈ applied history := by
  obtain ⟨i, hi, happlied⟩ := List.countP_pos_iff.mp h
  exact ⟨i, List.mem_range.mp hi, of_decide_eq_true happlied⟩

end Counts

namespace Checker

section Recording

variable {V : Type} {cfg : Checker V} {n : ℕ} {past : List (ℕ × ApplyMsg V)}

/-- Only commands of the history are recorded. -/
def RecordsOnly (past : List (ℕ × ApplyMsg V)) (cfg : Checker V) : Prop :=
  ∀ i index v, cfg.entry i index = some v → ⟨i, index, v⟩ ∈ applied past

variable [DecidableEq V]

/-- A command is recorded whether or not it passes its checks. -/
theorem RecordsOnly.applier (h : cfg.RecordsOnly past) {server : ℕ}
    (hserver : server < cfg.logs.length) (m : ApplyMsg V) :
    (cfg.applier server m).1.RecordsOnly (past ++ [(server, m)]) ∧
      (cfg.applier server m).1.logs.length = cfg.logs.length := by
  unfold Checker.applier
  cases hvalid : m.commandValid with
  | false =>
    rw [if_pos rfl]
    refine ⟨fun i index v hv ↦ ?_, rfl⟩
    rw [applied_append]
    exact List.mem_append_left _ (h i index v hv)
  | true =>
    rw [if_neg Bool.true_eq_false.mp]
    refine ⟨fun i index v hv ↦ ?_, List.length_modify ..⟩
    have hentry : (cfg.record server m.commandIndex m.command).entry i index = some v := hv
    rw [entry_record hserver] at hentry
    rw [applied_append, applied_cons_of_valid hvalid]
    split_ifs at hentry with hnew
    · rw [hnew.1, hnew.2, ← Option.some.inj hentry]
      exact List.mem_append_right _ (List.mem_cons_self ..)
    · exact List.mem_append_left _ (h i index v hentry)

theorem Records.committed_eq (h : Records n past cfg) (k : ℕ) (index : ℤ) (cmd : V) :
    cfg.committed k index cmd = appliedBy past k index cmd := by
  apply List.countP_congr
  intro i _
  simp only [decide_eq_true_iff]
  exact h.entry_iff i index cmd

end Recording

end Checker

namespace Observed

section Steps

variable {V G E : Type} [DecidableEq V] {n : ℕ} {init : G} {act : Checker V → G → E → Option G}
  {s t : Observed V G} {e : ObservedEvent V E}

/-- No check has failed so far. -/
def Quiet (s : Observed V G) : Prop := ∀ a ∈ s.appliers, a.err = none

/-- The steps of the machine. -/
inductive Transition (n : ℕ) (act : Checker V → G → E → Option G) (s : Observed V G) :
    ObservedEvent V E → Observed V G → Prop
  | start {server : ℕ} (h : server < n) : Transition n act s (.start server)
      { s with appliers := s.appliers ++ [⟨server, none⟩] }
  | apply {k server : ℕ} (m : ApplyMsg V) (h : s.appliers[k]? = some ⟨server, none⟩) :
      Transition n act s (.apply k m)
        { s with
          cfg := (s.cfg.applier server m).1
          appliers := s.appliers.set k ⟨server, (s.cfg.applier server m).2⟩
          history := s.history ++ [(server, m)] }
  | exit {k server : ℕ} {err : ApplyError V} (h : s.appliers[k]? = some ⟨server, some err⟩) :
      Transition n act s (.exit k) { s with exited := some err }
  | act {e : E} {g : G} (h : act s.cfg s.goroutine e = some g) :
      Transition n act s (.act e) { s with goroutine := g }

theorem transition_of_step (h : (observed n init act).step s e = some t) :
    Transition n act s e t := by
  simp only [observed] at h
  rw [Option.ite_none_left_eq_some] at h
  obtain ⟨-, h⟩ := h
  cases e with
  | start server =>
    obtain ⟨hserver, h⟩ := Option.ite_none_right_eq_some.mp h
    cases h
    exact .start hserver
  | apply k m =>
    dsimp only at h
    split at h
    · next happlier =>
      cases h
      exact .apply m happlier
    · cases h
  | exit k =>
    dsimp only at h
    split at h
    · next happlier =>
      cases h
      exact .exit happlier
    · cases h
  | act e =>
    obtain ⟨g, hg, rfl⟩ := Option.map_eq_some_iff.mp h
    exact .act hg

/-- An error that was found stays. -/
theorem Quiet.of_step (ht : t.Quiet) (h : (observed n init act).step s e = some t) : s.Quiet := by
  cases transition_of_step h with
  | start => exact fun a ha ↦ ht a (List.mem_append_left _ ha)
  | exit | act => exact ht
  | @apply k _ _ happlier =>
    intro a ha
    obtain ⟨j, hj⟩ := List.mem_iff_getElem?.mp ha
    by_cases hjk : k = j
    · subst hjk
      cases happlier.symm.trans hj
      rfl
    · exact ht a (List.mem_of_getElem? ((List.getElem?_set_ne hjk).trans hj))

/-- What is recorded was applied.  While no check has failed, it is the record of the history. -/
structure Recorded (n : ℕ) (s : Observed V G) : Prop where
  server_lt : ∀ a ∈ s.appliers, a.server < n
  length_eq : s.cfg.logs.length = n
  recordsOnly : s.cfg.RecordsOnly s.history
  run_eq : s.Quiet → (checker V n).run (checker V n).init s.history = some s.cfg

theorem recorded_init (n : ℕ) (init : G) (act : Checker V → G → E → Option G) :
    (observed n init act).init.Recorded n := by
  refine ⟨fun _ ha ↦ absurd ha List.not_mem_nil, List.length_replicate, fun i index v hv ↦ ?_,
    fun _ ↦ rfl⟩
  exact ((Checker.records_initial n).entry_iff i index v).mp hv

theorem Recorded.step (hs : s.Recorded n) (h : (observed n init act).step s e = some t) :
    t.Recorded n := by
  have hquiet : t.Quiet → s.Quiet := fun ht ↦ ht.of_step h
  cases transition_of_step h with
  | start hserver =>
    refine ⟨fun a ha ↦ ?_, hs.length_eq, hs.recordsOnly, fun ht ↦ hs.run_eq (hquiet ht)⟩
    rcases List.mem_append.mp ha with ha | ha
    · exact hs.server_lt a ha
    · cases List.mem_singleton.mp ha
      exact hserver
  | exit | act => exact ⟨hs.server_lt, hs.length_eq, hs.recordsOnly, hs.run_eq⟩
  | @apply k server m happlier =>
    have hserver : server < n := hs.server_lt _ (List.mem_of_getElem? happlier)
    obtain ⟨honly, hlength⟩ := hs.recordsOnly.applier (hs.length_eq ▸ hserver) m
    refine ⟨fun a ha ↦ ?_, hlength.trans hs.length_eq, honly, fun ht ↦ ?_⟩
    · rcases List.mem_or_eq_of_mem_set ha with ha | rfl
      · exact hs.server_lt a ha
      · exact hserver
    · have hnone : (s.cfg.applier server m).2 = none :=
        ht ⟨server, _⟩ (List.mem_of_getElem?
          (List.getElem?_set_self (List.getElem?_eq_some_iff.mp happlier).1))
      have hstep : (checker V n).step s.cfg (server, m) = some (s.cfg.applier server m).1 :=
        Checker.checker_step_eq_some.mpr ⟨hserver, Prod.ext rfl hnone⟩
      rw [Machine.run_append, hs.run_eq (hquiet ht), Option.bind_some, Machine.run_cons, hstep]
      rfl

theorem Recorded.records (hs : s.Recorded n) (hquiet : s.Quiet) :
    Checker.Records n s.history s.cfg :=
  Checker.records_of_run (hs.run_eq hquiet)

/-- While no check has failed, a command that was applied is the only one of its index. -/
theorem Recorded.entry_eq (hs : s.Recorded n) (hquiet : s.Quiet) {a : Applied V}
    (ha : a ∈ applied s.history) {i : ℕ} {v : V} (hv : s.cfg.entry i a.index = some v) :
    v = a.command :=
  Checker.agree_of_run (hs.run_eq hquiet) _ (hs.recordsOnly i a.index v hv) a ha rfl

end Steps

end Observed

/-- The invariant rule for a goroutine: its steps keep the invariant, and so does a message that is
taken meanwhile. -/
theorem observed_invariant {V G E : Type} [DecidableEq V] {n : ℕ} {init : G}
    {act : Checker V → G → E → Option G} {ok : Observed V G → ObservedEvent V E → Prop}
    {I : List (ℕ × ApplyMsg V) → G → Prop} {s : Observed V G}
    (h : (observed n init act).ReachableWhen ok s) (hinit : I [] init)
    (hgrow : ∀ past e g, I past g → I (past ++ [e]) g)
    (hact : ∀ s e g, s.cfg.RecordsOnly s.history → I s.history s.goroutine → ok s (.act e) →
      act s.cfg s.goroutine e = some g → I s.history g) :
    s.Recorded n ∧ I s.history s.goroutine := by
  refine Machine.ReachableFrom.invariant (I := fun s ↦ s.Recorded n ∧ I s.history s.goroutine) h
    ⟨Observed.recorded_init n init act, hinit⟩ ?_
  rintro s e t ⟨hrecorded, hs⟩ hok hstep
  refine ⟨hrecorded.step hstep, ?_⟩
  cases Observed.transition_of_step hstep with
  | start | exit => exact hs
  | apply => exact hgrow _ _ _ hs
  | act hg => exact hact s _ _ hrecorded.recordsOnly hs hok hg

/-! ## What a count is worth -/

namespace Scan

variable {V : Type} [DecidableEq V] {cfg : Checker V} {past : List (ℕ × ApplyMsg V)}
  {scan : Scan V}

/-- At least as many servers as were counted have applied the command. -/
def Sound (past : List (ℕ × ApplyMsg V)) (scan : Scan V) : Prop :=
  scan.count ≤ appliedBy past scan.server scan.index scan.cmd

/-- No server that had applied the command in an earlier history has been missed. -/
structure Notices (old : List (ℕ × ApplyMsg V)) (cmd : V) (scan : Scan V) : Prop where
  le : appliedBy old scan.server scan.index cmd ≤ scan.count
  cmd_eq : 0 < scan.count → scan.cmd = cmd

theorem sound_start [Inhabited V] (past : List (ℕ × ApplyMsg V)) (index : ℤ) :
    (start index).Sound past :=
  Nat.zero_le _

theorem Sound.concat (h : scan.Sound past) (e : ℕ × ApplyMsg V) : scan.Sound (past ++ [e]) :=
  h.trans (appliedBy_le_concat ..)

theorem Sound.read (h : scan.Sound past) (hcfg : cfg.RecordsOnly past) {scan' : Scan V}
    (hread : scan.read cfg = some scan') :
    scan'.Sound past ∧ scan'.index = scan.index ∧ scan'.server = scan.server + 1 := by
  unfold Scan.read at hread
  unfold Sound at h ⊢
  cases hentry : cfg.entry scan.server scan.index with
  | none =>
    rw [hentry] at hread
    cases hread
    refine ⟨?_, rfl, rfl⟩
    rw [appliedBy_succ]
    exact h.trans (Nat.le_add_right _ _)
  | some cmd =>
    simp only [hentry] at hread
    rw [Option.ite_none_left_eq_some] at hread
    obtain ⟨hsame, hread⟩ := hread
    cases hread
    refine ⟨?_, rfl, rfl⟩
    rw [appliedBy_succ, if_pos (hcfg _ _ _ hentry)]
    by_cases hcount : scan.count > 0
    · have hcmd : scan.cmd = cmd := by
        by_contra hne
        exact hsame ⟨hcount, hne⟩
      rw [hcmd] at h
      exact Nat.succ_le_succ h
    · dsimp only
      omega

theorem notices_start [Inhabited V] (old : List (ℕ × ApplyMsg V)) (cmd : V) (index : ℤ) :
    (start index).Notices old cmd :=
  ⟨Nat.le_refl _, fun h ↦ absurd h (Nat.lt_irrefl 0)⟩

theorem Notices.read {old : List (ℕ × ApplyMsg V)} {cmd : V} (h : scan.Notices old cmd)
    (hold : ∀ a ∈ applied old, cfg.entry a.server a.index = some a.command)
    (honly : ∀ i v, cfg.entry i scan.index = some v → v = cmd) :
    ∃ scan', scan.read cfg = some scan' ∧ scan'.Notices old cmd ∧ scan'.index = scan.index ∧
      scan'.server = scan.server + 1 := by
  unfold Scan.read
  cases hentry : cfg.entry scan.server scan.index with
  | none =>
    refine ⟨_, rfl, ⟨?_, h.cmd_eq⟩, rfl, rfl⟩
    have hnot : ⟨scan.server, scan.index, cmd⟩ ∉ applied old := by
      intro hmem
      rw [hold _ hmem] at hentry
      cases hentry
    rw [appliedBy_succ, if_neg hnot]
    exact h.le
  | some v =>
    obtain rfl := honly _ v hentry
    have hsame : ¬ (scan.count > 0 ∧ scan.cmd ≠ v) := fun hdiff ↦ hdiff.2 (h.cmd_eq hdiff.1)
    refine ⟨_, if_neg hsame, ⟨?_, fun _ ↦ rfl⟩, rfl, rfl⟩
    rw [appliedBy_succ]
    have hle := h.le
    dsimp only
    split_ifs <;> omega

end Scan

/-! ## one -/

namespace One

variable {V : Type} [DecidableEq V] {n : ℕ} {args : OneArgs V} {cfg : Checker V}
  {past : List (ℕ × ApplyMsg V)} {one next : One V} {e : OneEvent}

/-- A server has taken the command for the index. -/
def Submitted (n : ℕ) (accepted : List (ℕ × ℤ)) (index : ℤ) : Prop :=
  index ≠ -1 ∧ ∃ server < n, (server, index) ∈ accepted

/-- What holds at each stage. -/
def Valid (n : ℕ) (args : OneArgs V) (past : List (ℕ × ApplyMsg V)) (one : One V) : Prop :=
  match one.stage with
  | .idle | .failed => True
  | .trying si => si < n
  | .waiting index => Submitted n one.accepted index
  | .counting scan => Submitted n one.accepted scan.index ∧ scan.server < n ∧ scan.Sound past
  | .returned index => index ≠ -1 → Submitted n one.accepted index ∧
      0 < appliedBy past n index args.cmd ∧ args.expectedServers ≤ appliedBy past n index args.cmd

theorem valid_judge {scan : Scan V} (hstage : one.stage = args.judge n scan)
    (hsubmitted : Submitted n one.accepted scan.index) (hsound : scan.Sound past)
    (hle : scan.server ≤ n) : one.Valid n args past := by
  unfold Valid
  rw [hstage, OneArgs.judge]
  split_ifs with hlt henough
  · exact ⟨hsubmitted, hlt, hsound⟩
  · obtain ⟨hpos, hexpected, hcmd⟩ := henough
    have hend : scan.server = n := by omega
    rw [Scan.Sound, hend, hcmd] at hsound
    exact fun _ ↦ ⟨hsubmitted, hpos.trans_le hsound, hexpected.trans (by exact_mod_cast hsound)⟩
  · exact hsubmitted

theorem Valid.concat (h : one.Valid n args past) (e : ℕ × ApplyMsg V) :
    one.Valid n args (past ++ [e]) := by
  unfold Valid at h ⊢
  split at h
  · trivial
  · trivial
  · exact h
  · exact h
  · exact ⟨h.1, h.2.1, h.2.2.concat e⟩
  · next index _ =>
    intro hindex
    obtain ⟨hsubmitted, hpos, hexpected⟩ := h hindex
    have hle := appliedBy_le_concat past e n index args.cmd
    exact ⟨hsubmitted, hpos.trans_le hle, hexpected.trans (by exact_mod_cast hle)⟩

theorem valid_tryFrom {si : ℕ} (hstage : one.stage = .tryFrom n si) : one.Valid n args past := by
  unfold Valid
  rw [hstage, OneStage.tryFrom]
  split_ifs with hsi
  · exact hsi
  · trivial

variable [Inhabited V]

/-- What a step of `one`, or of those around it, can do. -/
inductive Move (n : ℕ) (args : OneArgs V) (cfg : Checker V) (one : One V) : OneEvent → One V → Prop
  | outside {e : OneEvent} (connected rafts : ℕ → Bool) (finished : Bool) (he : e ≠ .read) :
      Move n args cfg one e { one with connected, rafts, finished }
  | round (late : Bool) (h : one.stage = .idle) :
      Move n args cfg one (.round late) { one with stage := .tryFrom n 0 }
  | interrupt (late : Bool) (h : one.stage = .idle) :
      Move n args cfg one (.round late) { one with stage := .returned (-1) }
  | expire (late : Bool) (h : one.stage = .idle) :
      Move n args cfg one (.round late) { one with stage := .failed }
  | accept {si : ℕ} {index : ℤ} (h : one.stage = .trying si) (hindex : index ≠ -1) :
      Move n args cfg one (.start index true)
        { one with
          starts := (one.starts + 1) % n
          stage := .waiting index
          accepted := one.accepted ++ [((one.starts + 1) % n, index)] }
  | lose {si : ℕ} (h : one.stage = .trying si) :
      Move n args cfg one (.start (-1) true)
        { one with
          starts := (one.starts + 1) % n
          stage := .idle
          accepted := one.accepted ++ [((one.starts + 1) % n, -1)] }
  | refuse {si : ℕ} (index : ℤ) (isLeader : Bool) (h : one.stage = .trying si) :
      Move n args cfg one (.start index isLeader)
        { one with starts := (one.starts + 1) % n, stage := .tryFrom n (si + 1) }
  | retry {index : ℤ} (h : one.stage = .waiting index) (hretry : args.retry = true) :
      Move n args cfg one (.poll true) { one with stage := .idle }
  | giveUp {index : ℤ} (h : one.stage = .waiting index) :
      Move n args cfg one (.poll true) { one with stage := .failed }
  | poll {index : ℤ} (h : one.stage = .waiting index) :
      Move n args cfg one (.poll false) { one with stage := args.judge n (.start index) }
  | read {scan scan' : Scan V} (h : one.stage = .counting scan)
      (hread : scan.read cfg = some scan') :
      Move n args cfg one .read { one with stage := args.judge n scan' }
  | clash {scan : Scan V} (h : one.stage = .counting scan) (hread : scan.read cfg = none) :
      Move n args cfg one .read { one with stage := .failed }

theorem move_of_act (h : one.act n args cfg e = some next) : Move n args cfg one e next := by
  cases e with
  | setConnected | setRaft | finish =>
    cases h
    exact .outside _ _ _ (by simp)
  | round late =>
    simp only [act] at h
    split at h
    · next hstage =>
      cases h
      split_ifs
      · exact .round late hstage
      · exact .interrupt late hstage
      · exact .expire late hstage
    · cases h
  | start index isLeader =>
    simp only [act] at h
    split at h
    · next hstage =>
      split_ifs at h with hleader hindex
      · cases h
        obtain rfl := hleader.2.2
        subst hindex
        exact .lose hstage
      · cases h
        obtain rfl := hleader.2.2
        exact .accept hstage hindex
      · cases h
        exact .refuse index isLeader hstage
    · cases h
  | poll late =>
    simp only [act] at h
    split at h
    · next hstage =>
      cases h
      cases late with
      | false => exact .poll hstage
      | true =>
        cases hretry : args.retry with
        | false => exact .giveUp hstage
        | true => exact .retry hstage hretry
    · cases h
  | read =>
    simp only [act] at h
    split at h
    · next hstage =>
      cases h
      split
      · next hread => exact .read hstage hread
      · next hread => exact .clash hstage hread
    · cases h

theorem Valid.move (h : one.Valid n args past) (hcfg : cfg.RecordsOnly past)
    (hmove : Move n args cfg one e next) : next.Valid n args past := by
  cases hmove with
  | outside => exact h
  | round | refuse => exact valid_tryFrom rfl
  | interrupt => exact fun hne ↦ absurd rfl hne
  | expire | retry | giveUp | clash | lose => trivial
  | accept hstage hindex =>
    unfold Valid at h
    rw [hstage] at h
    exact ⟨hindex, (one.starts + 1) % n, Nat.mod_lt _ (Nat.zero_lt_of_lt h),
      List.mem_append_right _ (List.mem_singleton_self _)⟩
  | poll hstage =>
    unfold Valid at h
    rw [hstage] at h
    exact valid_judge rfl h (Scan.sound_start ..) (Nat.zero_le n)
  | read hstage hread =>
    unfold Valid at h
    rw [hstage] at h
    obtain ⟨hsubmitted, hlt, hsound⟩ := h
    obtain ⟨hsound', hindex, hserver⟩ := hsound.read hcfg hread
    exact valid_judge rfl (by rwa [hindex]) hsound' (by omega)

theorem valid_of_reachable {s : Observed V (One V)} (hs : (oneCall n args).Reachable s) :
    s.Recorded n ∧ s.goroutine.Valid n args s.history :=
  observed_invariant (I := fun past one ↦ one.Valid n args past) hs trivial
    (fun _ e _ h ↦ h.concat e) fun _ _ _ hcfg h _ hact ↦ h.move hcfg (move_of_act hact)

/-- **`one` returns with agreement.** Whatever the servers apply while it counts, when `one` has
returned an index, then and ever after, the servers that have applied its command there are at least
as many as it was to wait for, and one at least, and the index is one that a call of `Start` has
returned.  As long as no check has failed, these are the servers that have it on record, and no
server has anything else there. -/
theorem one_agreed {s : Observed V (One V)} {index : ℤ} (hs : (oneCall n args).Reachable s)
    (hreturned : s.goroutine.stage = .returned index) (hindex : index ≠ -1) :
    0 < appliedBy s.history n index args.cmd ∧
      args.expectedServers ≤ appliedBy s.history n index args.cmd ∧
      (∃ server < n, (server, index) ∈ s.goroutine.accepted) ∧
      (s.Quiet →
        s.cfg.committed n index args.cmd = appliedBy s.history n index args.cmd ∧
        ∀ i v, s.cfg.entry i index = some v → v = args.cmd) := by
  obtain ⟨hrecorded, hvalid⟩ := valid_of_reachable hs
  unfold Valid at hvalid
  rw [hreturned] at hvalid
  obtain ⟨hsubmitted, hpos, hexpected⟩ := hvalid hindex
  refine ⟨hpos, hexpected, hsubmitted.2, fun hquiet ↦ ⟨?_, fun i v hv ↦ ?_⟩⟩
  · exact (hrecorded.records hquiet).committed_eq n index args.cmd
  · obtain ⟨j, -, hj⟩ := exists_applied_of_appliedBy hpos
    exact hrecorded.entry_eq hquiet hj hv

/-- A command for which two of three servers are asked. -/
def sampleArgs (retry : Bool) : OneArgs ℕ := ⟨5, 2, retry⟩

/-- Three servers are started.  Server 1 takes the command and applies it. -/
def sampleStart : List (ObservedEvent ℕ OneEvent) :=
  [.start 0, .start 1, .start 2, .act (.setConnected 1 true), .act (.setRaft 1 true),
    .act (.round false), .act (.start 1 true), .apply 1 (Checker.commandMsg 1 5)]

/-- Server 0 applies the command when it has been looked at, so it takes a second count.  Then it
applies another one. -/
theorem one_agreed_sample :
    ∃ s, (oneCall 3 (sampleArgs true)).Reachable s ∧ s.goroutine.stage = .returned 1 ∧
      s.cfg.committed 3 1 5 = 1 ∧ 2 ≤ (appliedBy s.history 3 1 5 : ℤ) ∧
      ∃ server < 3, (server, 1) ∈ s.goroutine.accepted := by
  obtain ⟨s, hs, hreturned, hcommitted⟩ :=
    Machine.exists_reachable (m := oneCall 3 (sampleArgs true))
      (p := fun s ↦ s.goroutine.stage = .returned 1 ∧ s.cfg.committed 3 1 5 = 1)
      (sampleStart ++ [.act (.poll false), .act .read, .apply 0 (Checker.commandMsg 1 5),
        .act .read, .act .read, .act (.poll false), .act .read, .act .read, .act .read,
        .apply 0 (Checker.commandMsg 1 6)]) (by decide)
  obtain ⟨-, hexpected, hsubmitted, -⟩ := one_agreed hs hreturned (by decide)
  exact ⟨s, hs, hreturned, hcommitted, hexpected, hsubmitted⟩

/-! ### One call of Start -/

end One

/-- A call of `Start` that takes the command returns an index that is not -1. -/
def ObservedEvent.isNumbered {V : Type} : ObservedEvent V OneEvent → Bool
  | .act (.start index true) => index ≠ -1
  | _ => true

/-- `one` is in the loops that call `Start`. -/
def OneStage.mayStart {V : Type} : OneStage V → Bool
  | .idle | .trying _ => true
  | _ => false

namespace One

section Once

variable {V : Type} {n : ℕ} {args : OneArgs V} {one : One V}

/-- The loops that call `Start` are over once a server has taken the command. -/
def Once (one : One V) : Prop :=
  one.accepted = [] ∨ one.accepted.length = 1 ∧ one.stage.mayStart = false

theorem Once.eq_nil (h : one.Once) (hstage : one.stage.mayStart = true) : one.accepted = [] := by
  rcases h with hnil | ⟨-, hnot⟩
  · exact hnil
  · rw [hstage] at hnot
    cases hnot

variable [DecidableEq V]

theorem mayStart_judge (args : OneArgs V) (n : ℕ) (scan : Scan V) :
    (args.judge n scan).mayStart = false := by
  unfold OneArgs.judge
  split_ifs <;> rfl

variable [Inhabited V]

theorem Once.move {cfg : Checker V} {next : One V} {e : OneEvent} (h : one.Once)
    (hretry : args.retry = false)
    (hnumbered : (ObservedEvent.act e : ObservedEvent V OneEvent).isNumbered = true)
    (hmove : Move n args cfg one e next) : next.Once := by
  cases hmove with
  | outside => exact h
  | round _ hstage | interrupt _ hstage | expire _ hstage | refuse _ _ hstage =>
    exact Or.inl (h.eq_nil (by rw [hstage]; rfl))
  | accept hstage =>
    have hnil := h.eq_nil (by rw [hstage]; rfl)
    exact Or.inr ⟨by rw [hnil]; rfl, rfl⟩
  | lose => cases hnumbered
  | retry _ hagain =>
    rw [hretry] at hagain
    cases hagain
  | giveUp | clash => exact h.imp_right fun hone ↦ ⟨hone.1, rfl⟩
  | poll | read => exact h.imp_right fun hone ↦ ⟨hone.1, mayStart_judge ..⟩

/-- **Without retries, `one` submits its command once.** As long as the indexes that `Start` gives
are not -1, at most one call of `Start` takes the command. -/
theorem accepted_once {s : Observed V (One V)} (hretry : args.retry = false)
    (hs : (oneCall n args).ReachableWhen (fun _ e ↦ e.isNumbered = true) s) :
    s.goroutine.accepted.length ≤ 1 := by
  obtain ⟨-, honce⟩ := observed_invariant (I := fun _ one ↦ one.Once) hs (Or.inl rfl)
    (fun _ _ _ h ↦ h) fun _ _ _ _ h hok hact ↦ h.move hretry hok (move_of_act hact)
  rcases honce with hnil | ⟨hlength, -⟩
  · rw [hnil]
    exact Nat.zero_le 1
  · exact hlength.le

theorem accepted_once_sample :
    ∃ s, (oneCall 3 (sampleArgs false)).ReachableWhen (fun _ e ↦ e.isNumbered = true) s ∧
      s.goroutine.stage = .failed ∧ s.goroutine.accepted.length ≤ 1 := by
  obtain ⟨s, hs, hfailed⟩ : ∃ s, (oneCall 3 (sampleArgs false)).ReachableWhen
      (fun _ e ↦ e.isNumbered = true) s ∧ s.goroutine.stage = .failed :=
    Machine.exists_reachableWhen (sampleStart ++ [.act (.poll true)]) (by decide)
  exact ⟨s, hs, hfailed, accepted_once rfl hs⟩

end Once

end One

/-! ### No agreement is missed -/

/-- The event is one look of `nCommitted` at a server. -/
def ObservedEvent.isLook {V : Type} : ObservedEvent V OneEvent → Bool
  | .act .read => true
  | _ => false

namespace One

section Noticing

variable {V : Type} [DecidableEq V] {n : ℕ} {args : OneArgs V} {old : List (ℕ × ApplyMsg V)}
  {index : ℤ} {looks : ℕ} {s t : Observed V (One V)}

/-- A count that began after an old history is under way, after some looks, or `one` has
returned. -/
structure Noticing (n : ℕ) (args : OneArgs V) (old : List (ℕ × ApplyMsg V)) (index : ℤ) (looks : ℕ)
    (s : Observed V (One V)) : Prop where
  recorded : s.Recorded n
  history : old <+: s.history
  stage : s.goroutine.stage = .returned index ∨
    ∃ scan, s.goroutine.stage = .counting scan ∧ scan.index = index ∧ scan.server = looks ∧
      looks < n ∧ scan.Notices old args.cmd

/-- The servers had agreed on the command in an old history. -/
structure Agreed (n : ℕ) (args : OneArgs V) (old : List (ℕ × ApplyMsg V)) (index : ℤ) : Prop where
  pos : 0 < appliedBy old n index args.cmd
  expected : args.expectedServers ≤ appliedBy old n index args.cmd

theorem noticing_of_judge (hagreed : Agreed n args old index) (hrecorded : s.Recorded n)
    (hhistory : old <+: s.history) {scan : Scan V} (hstage : s.goroutine.stage = args.judge n scan)
    (hindex : scan.index = index) (hserver : scan.server = looks) (hle : looks ≤ n)
    (hscan : scan.Notices old args.cmd) : Noticing n args old index looks s := by
  subst hindex hserver
  refine ⟨hrecorded, hhistory, ?_⟩
  rw [hstage, OneArgs.judge]
  by_cases hlt : scan.server < n
  · rw [if_pos hlt]
    exact Or.inr ⟨scan, rfl, rfl, rfl, hlt, hscan⟩
  · have hcount := hscan.le
    rw [Nat.le_antisymm hle (Nat.le_of_not_lt hlt)] at hcount
    have hpos := hagreed.pos.trans_le hcount
    rw [if_neg hlt, if_pos ⟨hpos, hagreed.expected.trans (by exact_mod_cast hcount),
      hscan.cmd_eq hpos⟩]
    exact Or.inl rfl

/-- The next look finds no mismatch. -/
theorem Noticing.look (hs : Noticing n args old index looks s) (hquiet : s.Quiet)
    (hagreed : Agreed n args old index) {scan : Scan V} (h : s.goroutine.stage = .counting scan) :
    ∃ scan', scan.read s.cfg = some scan' ∧ scan'.index = index ∧ scan'.server = looks + 1 ∧
      looks < n ∧ scan'.Notices old args.cmd := by
  have hstage := hs.stage
  rw [h] at hstage
  obtain ⟨scan₁, hscan₁, hindex, hserver, hlt, hnotices⟩ := hstage.resolve_left (by simp)
  cases hscan₁
  have hnow : ∀ a ∈ applied old, a ∈ applied s.history := by
    obtain ⟨later, hlater⟩ := hs.history
    intro a ha
    rw [← hlater, Checker.applied_append]
    exact List.mem_append_left _ ha
  have hold : ∀ a ∈ applied old, s.cfg.entry a.server a.index = some a.command :=
    fun a ha ↦ ((hs.recorded.records hquiet).entry_iff _ _ _).mpr (hnow a ha)
  have honly : ∀ i v, s.cfg.entry i scan.index = some v → v = args.cmd := by
    obtain ⟨j, -, hj⟩ := exists_applied_of_appliedBy hagreed.pos
    intro i v hv
    rw [hindex] at hv
    exact hs.recorded.entry_eq hquiet (hnow _ hj) hv
  obtain ⟨scan', hread, hnotices', hindex', hserver'⟩ := hnotices.read hold honly
  exact ⟨scan', hread, hindex'.trans hindex, by rw [hserver', hserver], hlt, hnotices'⟩

variable [Inhabited V]

theorem Noticing.step {e : ObservedEvent V OneEvent} (hs : Noticing n args old index looks s)
    (hquiet : s.Quiet) (hagreed : Agreed n args old index)
    (h : (oneCall n args).step s e = some t) :
    Noticing n args old index (looks + if e.isLook then 1 else 0) t := by
  have hrecorded : t.Recorded n := hs.recorded.step h
  cases Observed.transition_of_step h with
  | start | exit => exact ⟨hrecorded, hs.history, hs.stage⟩
  | apply => exact ⟨hrecorded, hs.history.trans (List.prefix_append _ _), hs.stage⟩
  | @act e one hone =>
    have hstage := hs.stage
    have hmove := move_of_act hone
    clear h hone
    cases hmove with
    | outside _ _ _ he =>
      have hlook : (ObservedEvent.act e : ObservedEvent V OneEvent).isLook = false := by
        cases e <;> first | rfl | exact absurd rfl he
      rw [hlook]
      exact ⟨hrecorded, hs.history, hs.stage⟩
    | round _ h | interrupt _ h | expire _ h | accept h | lose h | refuse _ _ h | retry h
    | giveUp h | poll h =>
      rw [h] at hstage
      simp at hstage
    | clash h hread =>
      obtain ⟨scan', hscan', -⟩ := hs.look hquiet hagreed h
      rw [hread] at hscan'
      cases hscan'
    | read h hread =>
      obtain ⟨scan', hscan', hindex, hserver, hlt, hnotices⟩ := hs.look hquiet hagreed h
      rw [hread] at hscan'
      cases hscan'
      exact noticing_of_judge hagreed hrecorded hs.history rfl hindex hserver hlt hnotices

/-- **A count that begins after the agreement does not miss it.** If enough servers have the command
on record when `one` begins to count, then, as long as no check fails, `one` returns the index,
whatever the servers apply meanwhile, as soon as it has looked at all of them. -/
theorem agreement_noticed {events : List (ObservedEvent V OneEvent)}
    (hs : (oneCall n args).Reachable s) (hwaiting : s.goroutine.stage = .waiting index)
    (hpos : 0 < s.cfg.committed n index args.cmd)
    (hexpected : args.expectedServers ≤ s.cfg.committed n index args.cmd)
    (hrun : (oneCall n args).run s (.act (.poll false) :: events) = some t) (hquiet : t.Quiet) :
    t.goroutine.stage = .returned index ∨
      events.countP ObservedEvent.isLook < n ∧ ∃ scan, t.goroutine.stage = .counting scan := by
  have hrecorded := (valid_of_reachable hs).1
  obtain ⟨mid, hmid, hevents⟩ := Machine.run_cons_eq_some hrun
  have hfirst : mid.Quiet → Agreed n args s.history index ∧
      Noticing n args s.history index
        (([] : List (ObservedEvent V OneEvent)).countP ObservedEvent.isLook) mid := by
    intro hmidQuiet
    have hcommitted := (hrecorded.records (hmidQuiet.of_step hmid)).committed_eq n index args.cmd
    rw [hcommitted] at hpos hexpected
    have hagreed : Agreed n args s.history index := ⟨hpos, hexpected⟩
    have hmidRecorded : mid.Recorded n := hrecorded.step hmid
    cases Observed.transition_of_step hmid with
    | act hone =>
      simp only [act, hwaiting] at hone
      cases hone
      exact ⟨hagreed, noticing_of_judge hagreed hmidRecorded (List.prefix_refl _) rfl rfl rfl
        (Nat.zero_le n) (Scan.notices_start ..)⟩
  -- an error that was found stays, so none has been found on the way
  have hlast : t.Quiet → Agreed n args s.history index ∧
      Noticing n args s.history index (([] ++ events).countP ObservedEvent.isLook) t := by
    refine Machine.remembers_of_run
      (R := fun past t ↦ t.Quiet → Agreed n args s.history index ∧
        Noticing n args s.history index (past.countP ObservedEvent.isLook) t)
      (fun past u e v hu huv hv ↦ ?_) hfirst hevents
    have huQuiet := hv.of_step huv
    obtain ⟨hagreed, hnoticing⟩ := hu huQuiet
    rw [List.countP_append, List.countP_singleton]
    exact ⟨hagreed, hnoticing.step huQuiet hagreed huv⟩
  rcases (hlast hquiet).2.stage with hreturned | ⟨scan, hscan, -, -, hlt, -⟩
  · exact Or.inl hreturned
  · exact Or.inr ⟨hlt, scan, hscan⟩

theorem agreement_noticed_sample :
    ∃ s t, (oneCall 3 (sampleArgs true)).Reachable s ∧ s.goroutine.stage = .waiting 1 ∧
      (oneCall 3 (sampleArgs true)).run s
        [.act (.poll false), .act .read, .act .read, .act .read] = some t ∧
      (t.goroutine.stage = .returned 1 ∨ 3 < 3 ∧ ∃ scan, t.goroutine.stage = .counting scan) := by
  obtain ⟨s, hs, hwaiting, hpos, hexpected, hrun⟩ :=
    Machine.exists_reachable (m := oneCall 3 (sampleArgs true))
      (p := fun s ↦ s.goroutine.stage = .waiting 1 ∧ 0 < s.cfg.committed 3 1 5 ∧
        2 ≤ (s.cfg.committed 3 1 5 : ℤ) ∧ ((oneCall 3 (sampleArgs true)).run s
          [.act (.poll false), .act .read, .act .read, .act .read]).any
            (fun t ↦ t.appliers.all fun a ↦ a.err.isNone) = true)
      (sampleStart ++ [.apply 0 (Checker.commandMsg 1 5)]) (by decide)
  obtain ⟨t, ht, hquiet⟩ := (Option.any_eq_true _ _).mp hrun
  refine ⟨s, t, hs, hwaiting, ht, agreement_noticed hs hwaiting hpos hexpected ht fun a ha ↦ ?_⟩
  exact Option.isNone_iff_eq_none.mp (List.all_eq_true.mp hquiet a ha)

/-- Two servers have the command when the count begins.  A third one applies another command, and
before its `applier` has ended the process, the count fails the test. -/
example :
    ((oneCall 3 (sampleArgs true)).run (oneCall 3 (sampleArgs true)).init
      (sampleStart ++ [.apply 0 (Checker.commandMsg 1 5), .act (.poll false), .act .read,
        .act .read, .apply 2 (Checker.commandMsg 1 6), .act .read])).map
          (fun s ↦ s.goroutine.stage) =
      some .failed := by decide

end Noticing

end One

/-! ## wait -/

namespace WaitArgs

variable {V : Type} [DecidableEq V] {n : ℕ} {args : WaitArgs}
  {past : List (ℕ × ApplyMsg V)}

/-- A count that `wait` makes. -/
structure Counts (n : ℕ) (args : WaitArgs) (past : List (ℕ × ApplyMsg V)) (scan : Scan V) :
    Prop where
  index_eq : scan.index = args.index
  server_le : scan.server ≤ n
  sound : scan.Sound past

/-- What holds at each stage. -/
def Valid (n : ℕ) (args : WaitArgs) (past : List (ℕ × ApplyMsg V)) : WaitStage V → Prop
  | .counting _ scan | .deciding scan => scan.server < n ∧ args.Counts n past scan
  | .returned cmd => args.n ≤ appliedBy past n args.index cmd
  | .sleeping _ | .movedOn | .failed => True

theorem Counts.read {cfg : Checker V} {scan scan' : Scan V} (h : args.Counts n past scan)
    (hcfg : cfg.RecordsOnly past) (hlt : scan.server < n) (hread : scan.read cfg = some scan') :
    args.Counts n past scan' := by
  obtain ⟨hsound, hindex, hserver⟩ := h.sound.read hcfg hread
  exact ⟨hindex.trans h.index_eq, by omega, hsound⟩

theorem counts_start [Inhabited V] (n : ℕ) (args : WaitArgs) (past : List (ℕ × ApplyMsg V)) :
    args.Counts n past (.start args.index) :=
  ⟨rfl, Nat.zero_le n, Scan.sound_start ..⟩

theorem Counts.valid_decide {scan : Scan V} (h : args.Counts n past scan) :
    args.Valid n past (args.decide n scan) := by
  unfold decide
  split_ifs with hlt hfew
  · exact ⟨hlt, h⟩
  · trivial
  · have hsound := h.sound
    rw [Scan.Sound, h.index_eq, Nat.le_antisymm h.server_le (Nat.le_of_not_lt hlt)] at hsound
    exact (Int.not_lt.mp hfew).trans (by exact_mod_cast hsound)

theorem valid_concat {stage : WaitStage V} (h : args.Valid n past stage) (e : ℕ × ApplyMsg V) :
    args.Valid n (past ++ [e]) stage := by
  cases stage with
  | counting | deciding => exact ⟨h.1, h.2.index_eq, h.2.server_le, h.2.sound.concat e⟩
  | returned cmd =>
    have hle := appliedBy_le_concat past e n args.index cmd
    exact Int.le_trans h (by exact_mod_cast hle)
  | sleeping | movedOn | failed => trivial

variable [Inhabited V]

theorem Counts.valid_look {scan : Scan V} (h : args.Counts n past scan) (iters : ℕ) :
    args.Valid n past (args.look n iters scan) := by
  unfold look
  split_ifs with hlt
  · exact ⟨hlt, h⟩
  · exact (counts_start n args past).valid_decide
  · trivial

theorem valid_of_act {cfg : Checker V} {stage next : WaitStage V} {e : WaitEvent}
    (h : args.Valid n past stage) (hcfg : cfg.RecordsOnly past)
    (hact : args.act n cfg stage e = some next) : args.Valid n past next := by
  cases e with
  | read =>
    cases stage with
    | counting iters scan =>
      cases hact
      cases hread : scan.read cfg with
      | none => trivial
      | some => exact (h.2.read hcfg h.1 hread).valid_look iters
    | deciding scan =>
      cases hact
      cases hread : scan.read cfg with
      | none => trivial
      | some => exact (h.2.read hcfg h.1 hread).valid_decide
    | sleeping | returned | movedOn | failed => cases hact
  | wake terms =>
    cases stage with
    | sleeping iters =>
      cases hact
      split_ifs
      · trivial
      · exact (counts_start n args past).valid_look (iters + 1)
      · exact (counts_start n args past).valid_decide
    | counting | deciding | returned | movedOn | failed => cases hact

/-- **What `wait` returns has been committed.** Whatever the servers apply while it counts, when
`wait` has returned a command, then and ever after, at least as many servers as it was to wait for
have applied that command under its index.  As long as no check has failed, these are the servers
that have it on record. -/
theorem wait_committed {s : Observed V (WaitStage V)} {cmd : V}
    (hs : (waitCall n args).Reachable s) (hreturned : s.goroutine = .returned cmd) :
    args.n ≤ appliedBy s.history n args.index cmd ∧
      (s.Quiet → s.cfg.committed n args.index cmd = appliedBy s.history n args.index cmd) := by
  obtain ⟨hrecorded, hvalid⟩ := observed_invariant (I := fun past stage ↦ args.Valid n past stage)
    hs ((counts_start n args _).valid_look 0) (fun _ e _ h ↦ valid_concat h e)
    fun _ _ _ hcfg h _ hact ↦ valid_of_act h hcfg hact
  rw [hreturned] at hvalid
  exact ⟨hvalid, fun hquiet ↦ (hrecorded.records hquiet).committed_eq n args.index cmd⟩

theorem wait_committed_sample :
    ∃ s, (waitCall 2 ⟨1, 1, -1⟩).Reachable s ∧ s.goroutine = .returned 5 ∧
      1 ≤ (appliedBy s.history 2 1 5 : ℤ) := by
  obtain ⟨s, hs, hreturned⟩ := Machine.exists_reachable (m := waitCall 2 ⟨1, 1, -1⟩)
    (p := fun s ↦ s.goroutine = .returned 5)
    [.start 0, .start 1, .act .read, .act .read, .act (.wake [1, 1]),
      .apply 1 (Checker.commandMsg 1 5), .act .read, .act .read, .act .read, .act .read] (by decide)
  exact ⟨s, hs, hreturned, (wait_committed hs hreturned).1⟩

end WaitArgs

end DistKvRaft.Raft
