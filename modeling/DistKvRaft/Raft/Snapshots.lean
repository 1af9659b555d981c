import DistKvRaft.Raft.Checker

/-!
# The tester with snapshots

`applierSnap` insists that a server's commands come one after another, checks them like `applier`,
and hands a snapshot of everything recorded for the server to its Raft at every tenth index.
`ingestSnap` replaces what is recorded for a server by a snapshot, when Raft delivers one and when a
server is started from one.

A message is handled in several steps.  `lastApplied` is read without the lock, the lock is free
between the record of a command and the update of `lastApplied`, and a snapshot is copied entry by
entry without it.  A server that is started again gets another goroutine, while the one of the old
instance goes on with the message it has.  Hence a correct Raft may fail the checks: if a server is
started again while a command is handled, the old goroutine overwrites `lastApplied` after it has
been reset.

Apart from this there is no false alarm.  Let a server be started again only while none of its
goroutines handles a message, and let an instance that has been superseded deliver nothing more.  If
every instance delivers the commands of one sequence in order, from the beginning or from the
snapshot that it started from, and only snapshots that were taken before, then no check ever fails,
and every snapshot that is taken has exactly the commands of the sequence.
-/

namespace DistKvRaft.Raft

namespace Checker

section Model

variable {V : Type} (cfg : Checker V)

def snapShotInterval : ℤ := 10

/-- `cfg.lastApplied[i] = index`. -/
def setLastApplied (i : ℕ) (index : ℤ) : Checker V :=
  { cfg with lastApplied := cfg.lastApplied.set i index }

/-- `cfg.lastApplied[i] + 1`. -/
def expectedIndex (i : ℕ) : ℤ := (cfg.lastApplied[i]?).getD 0 + 1

/-- The log of a server that has nothing but a snapshot. -/
def logOf (xlog : List V) (k : ℤ) : Option V := if 0 ≤ k then xlog[k.toNat]? else none

/-- The process may end inside, by `log.Fatalf`.  Otherwise an error may be returned. -/
def ingestSnap (i : ℕ) (snapshot : SnapshotData V) (index : ℤ) :
    Except (ApplyError V) (Checker V × Option (ApplyError V)) :=
  match snapshot with
  | .nil => .error .nilSnapshot
  | .undecodable => .error .undecodable
  | .state lastIncludedIndex xlog =>
    if index ≠ -1 ∧ index ≠ lastIncludedIndex then .ok (cfg, some (.snapshotIndex i))
    else
      .ok ({ cfg with logs := cfg.logs.set i (logOf xlog) }.setLastApplied i lastIncludedIndex,
        none)

/-- The critical section of `start1`, for a server with or without a snapshot in its persister. -/
def restart (i : ℕ) (saved : Option (SnapshotData V)) :
    Except (ApplyError V) (Checker V × Option (ApplyError V)) :=
  match saved with
  | some snapshot => (cfg.setLastApplied i 0).ingestSnap i snapshot (-1)
  | none => .ok (cfg.setLastApplied i 0, none)

end Model

end Checker

/-- Where a goroutine stands that runs `applierSnap`. -/
inductive SnapPhase (V : Type)
  /-- it has not yet looked whether there is a Raft -/
  | starting
  /-- it waits for a message -/
  | receiving
  /-- it is to ingest a snapshot -/
  | ingesting (m : ApplyMsg V)
  /-- it is to compare the index of a command with `lastApplied` -/
  | checking (m : ApplyMsg V)
  /-- the comparison has failed, and `lastApplied` is read again for the message -/
  | complaining (m : ApplyMsg V)
  /-- it is to call `checkLogs` -/
  | recording (m : ApplyMsg V)
  /-- it is to set `lastApplied` -/
  | applying (m : ApplyMsg V) (err : Option (ApplyError V))
  /-- it copies the log for a snapshot -/
  | copying (m : ApplyMsg V) (err : Option (ApplyError V)) (xlog : List V)
  /-- it is to look whether there was an error -/
  | judging (err : Option (ApplyError V))
  /-- there was no Raft -/
  | ended

namespace SnapPhase

variable {V : Type}

/-- A message is handled. -/
def isBusy : SnapPhase V → Bool
  | .starting | .receiving | .ended => false
  | _ => true

/-- A check has failed. -/
def isFailed : SnapPhase V → Bool
  | .complaining _ => true
  | .applying _ err | .copying _ err _ | .judging err => err.isSome
  | _ => false

/-- What `applierSnap` does first with a message. -/
def received (m : ApplyMsg V) : SnapPhase V :=
  if m.snapshotValid then .ingesting m
  else if m.commandValid then .checking m
  else .judging none

end SnapPhase

/-- A goroutine that runs `applierSnap`.  The last two fields are about the Raft instance that it
reads from: whether it was started last for its server, and the index of what it has delivered last
or was started from. -/
structure SnapApplier (V : Type) where
  server : ℕ
  phase : SnapPhase V
  current : Bool
  delivered : ℤ

/-- The tester with its goroutines.  `rafts` says which servers are not nil, `taken` has the
snapshots that were handed to Raft, and `stopped` the error that has ended the test.  Where `start1`
has passed its critical section and not yet started a goroutine, `base` has the index that it has
left in `lastApplied`. -/
structure SnapChecker (V : Type) where
  cfg : Checker V
  rafts : ℕ → Bool
  base : ℕ → Option ℤ
  appliers : List (SnapApplier V)
  taken : List (SnapshotData V)
  stopped : Option (ApplyError V)

inductive SnapEvent (V : Type)
  /-- `crash1` sets the server to nil -/
  | crash1 (i : ℕ)
  /-- the critical section of `start1` -/
  | restart (i : ℕ) (saved : Option (SnapshotData V))
  /-- `start1` has made a Raft, and starts a goroutine that reads from it -/
  | launch (i : ℕ)
  /-- a goroutine takes a message -/
  | deliver (k : ℕ) (m : ApplyMsg V)
  /-- a goroutine goes on -/
  | advance (k : ℕ)

namespace ApplyMsg

variable {V : Type}

/-- The index up to which an instance has delivered everything with this message. -/
def lastIndex (m : ApplyMsg V) (delivered : ℤ) : ℤ :=
  if m.snapshotValid then m.snapshotIndex
  else if m.commandValid then m.commandIndex
  else delivered

end ApplyMsg

namespace SnapChecker

section Model

variable {V : Type} (s : SnapChecker V)

/-- The instances of a server are superseded. -/
def supersede (i : ℕ) (a : SnapApplier V) : SnapApplier V :=
  if a.server = i then { a with current := false } else a

def goTo (k : ℕ) (a : SnapApplier V) (phase : SnapPhase V) : SnapChecker V :=
  { s with appliers := s.appliers.set k { a with phase } }

/-- The next step of a goroutine, up to the end of a critical section or one access of `config`
without the lock. -/
def applierSnap [DecidableEq V] [Inhabited V] (k : ℕ) (a : SnapApplier V) :
    Option (SnapChecker V) :=
  match a.phase with
  | .starting => some (s.goTo k a (if s.rafts a.server then .receiving else .ended))
  | .receiving | .ended => none
  | .ingesting m =>
    match s.cfg.ingestSnap a.server m.snapshot m.snapshotIndex with
    | .ok (cfg, err) => some ({ s with cfg }.goTo k a (.judging err))
    | .error err => some { s with stopped := some err }
  | .checking m =>
    if m.commandIndex ≠ s.cfg.expectedIndex a.server then some (s.goTo k a (.complaining m))
    else some (s.goTo k a (.recording m))
  | .complaining m =>
    let err := .unexpected a.server (s.cfg.expectedIndex a.server) m.commandIndex
    some (s.goTo k a (.applying m (some err)))
  | .recording m =>
    let (cfg, err) := s.cfg.verdict a.server m
    some ({ s with cfg }.goTo k a (.applying m err))
  | .applying m err =>
    let next := { s with cfg := s.cfg.setLastApplied a.server m.commandIndex }
    if (m.commandIndex + 1) % Checker.snapShotInterval = 0 then
      some (next.goTo k a (.copying m err []))
    else some (next.goTo k a (.judging err))
  | .copying m err xlog =>
    if (xlog.length : ℤ) ≤ m.commandIndex then
      let entry := (s.cfg.entry a.server xlog.length).getD default
      some (s.goTo k a (.copying m err (xlog ++ [entry])))
    else
      -- `rf.Snapshot`
      some ({ s with taken := .state m.commandIndex xlog :: s.taken }.goTo k a (.judging err))
  | .judging none => some (s.goTo k a .receiving)
  | .judging (some err) => some { s with stopped := some err }

def step [DecidableEq V] [Inhabited V] (n : ℕ) (event : SnapEvent V) : Option (SnapChecker V) :=
  if s.stopped.isSome then none
  else match event with
    | .crash1 i => some { s with rafts := Function.update s.rafts i false }
    | .restart i saved =>
      if i < n ∧ s.base i = none then
        match s.cfg.restart i saved with
        | .ok (cfg, none) => some
          { s with
            cfg
            base := Function.update s.base i cfg.lastApplied[i]?
            appliers := s.appliers.map (supersede i) }
        | .ok (_, some err) | .error err => some { s with stopped := some err }
      else none
    | .launch i =>
      (s.base i).map fun index ↦
        { s with
          rafts := Function.update s.rafts i true
          base := Function.update s.base i none
          appliers := s.appliers ++ [⟨i, .starting, true, index⟩] }
    | .deliver k m =>
      match s.appliers[k]? with
      | some ⟨server, .receiving, current, delivered⟩ =>
        let a := ⟨server, .received m, current, m.lastIndex delivered⟩
        some { s with appliers := s.appliers.set k a }
      | _ => none
    | .advance k => (s.appliers[k]?).bind (s.applierSnap k)

end Model

end SnapChecker

/-- The tester of `n` servers with snapshots. -/
def snapChecker (V : Type) [DecidableEq V] [Inhabited V] (n : ℕ) :
    Machine (SnapChecker V) (SnapEvent V) :=
  ⟨⟨.initial n, fun _ ↦ false, fun _ ↦ none, [], [], none⟩, fun s ↦ s.step n⟩

/-! ## Records of one sequence -/

/-- The snapshot of the first commands of the sequence. -/
def truthUpTo {V : Type} (truth : ℤ → V) (k : ℕ) : SnapshotData V :=
  .state k ((List.range (k + 1)).map fun j : ℕ ↦ truth j)

namespace Checker

section Sequence

variable {V : Type} {truth : ℤ → V} {n : ℕ} {cfg next : Checker V}

/-- Everything recorded is of the sequence, without gaps up to `lastApplied`. -/
structure Follows (truth : ℤ → V) (n : ℕ) (cfg : Checker V) : Prop where
  length_logs : cfg.logs.length = n
  length_lastApplied : cfg.lastApplied.length = n
  entry : ∀ i k v, cfg.entry i k = some v → v = truth k
  complete : ∀ i last, cfg.lastApplied[i]? = some last →
    0 ≤ last ∧ ∀ k, 1 ≤ k → k ≤ last → cfg.entry i k = some (truth k)

/-- Only what is recorded for one server has changed. -/
structure Frame (i : ℕ) (cfg next : Checker V) : Prop where
  entry : ∀ j k, j ≠ i → next.entry j k = cfg.entry j k
  lastApplied : ∀ j, j ≠ i → next.lastApplied[j]? = cfg.lastApplied[j]?

theorem follows_initial (truth : ℤ → V) (n : ℕ) : (initial n : Checker V).Follows truth n := by
  refine ⟨List.length_replicate, List.length_replicate, fun i k v hv ↦ ?_, fun i last hlast ↦ ?_⟩
  · cases ((records_initial n).entry_iff i k v).mp hv
  · rw [List.eq_of_mem_replicate (List.mem_of_getElem? hlast)]
    refine ⟨Int.le_refl 0, fun k hk hle ↦ ?_⟩
    omega

/-- A change of what is recorded for one server. -/
theorem Follows.update (h : cfg.Follows truth n) {i : ℕ} (hframe : Frame i cfg next)
    (hlogs : next.logs.length = n) (hlength : next.lastApplied.length = n)
    (hentry : ∀ k v, next.entry i k = some v → v = truth k)
    (hcomplete : ∀ last, next.lastApplied[i]? = some last →
      0 ≤ last ∧ ∀ k, 1 ≤ k → k ≤ last → next.entry i k = some (truth k)) :
    next.Follows truth n := by
  refine ⟨hlogs, hlength, fun j k v hv ↦ ?_, fun j last hlast ↦ ?_⟩
  · by_cases hj : j = i
    · subst hj
      exact hentry k v hv
    · rw [hframe.entry j k hj] at hv
      exact h.entry j k v hv
  · by_cases hj : j = i
    · subst hj
      exact hcomplete last hlast
    · rw [hframe.lastApplied j hj] at hlast
      obtain ⟨hpos, hold⟩ := h.complete j last hlast
      refine ⟨hpos, fun k hk hle ↦ ?_⟩
      rw [hframe.entry j k hj]
      exact hold k hk hle

theorem frame_setLastApplied (cfg : Checker V) (i : ℕ) (last : ℤ) :
    Frame i cfg (cfg.setLastApplied i last) :=
  ⟨fun _ _ _ ↦ rfl, fun _ hj ↦ List.getElem?_set_ne (Ne.symm hj)⟩

/-- `lastApplied` is set for a server that has everything up to there. -/
theorem Follows.setLastApplied (h : cfg.Follows truth n) {i : ℕ} (hi : i < n) {last : ℤ}
    (hpos : 0 ≤ last) (hcomplete : ∀ k, 1 ≤ k → k ≤ last → cfg.entry i k = some (truth k)) :
    (cfg.setLastApplied i last).Follows truth n ∧
      (cfg.setLastApplied i last).lastApplied[i]? = some last := by
  have hset : (cfg.setLastApplied i last).lastApplied[i]? = some last :=
    List.getElem?_set_self (h.length_lastApplied.symm ▸ hi)
  refine ⟨h.update (frame_setLastApplied cfg i last) h.length_logs
    (List.length_set.trans h.length_lastApplied) (h.entry i) fun l hl ↦ ?_, hset⟩
  cases hset.symm.trans hl
  exact ⟨hpos, hcomplete⟩

/-- A command of the sequence is recorded. -/
theorem Follows.record (h : cfg.Follows truth n) {i : ℕ} (hi : i < n) (index : ℤ) :
    (cfg.record i index (truth index)).Follows truth n ∧
      Frame i cfg (cfg.record i index (truth index)) ∧
      (cfg.record i index (truth index)).entry i index = some (truth index) := by
  have hentry := entry_record (h.length_logs.symm ▸ hi : i < cfg.logs.length) index (truth index)
  have hframe : Frame i cfg (cfg.record i index (truth index)) := by
    refine ⟨fun j k hj ↦ ?_, fun _ _ ↦ rfl⟩
    rw [hentry, if_neg fun hnew ↦ hj hnew.1]
  refine ⟨h.update hframe ?_ h.length_lastApplied (fun k v hv ↦ ?_) fun last hlast ↦ ?_, hframe, ?_⟩
  · exact (List.length_modify ..).trans h.length_logs
  · rw [hentry] at hv
    split_ifs at hv with hnew
    · rw [hnew.2]
      exact (Option.some.inj hv).symm
    · exact h.entry i k v hv
  · obtain ⟨hpos, hcomplete⟩ := h.complete i last hlast
    refine ⟨hpos, fun k hk hle ↦ ?_⟩
    rw [hentry]
    split_ifs with hnew
    · rw [hnew.2]
    · exact hcomplete k hk hle
  · rw [hentry, if_pos ⟨rfl, rfl⟩]

theorem logOf_truthUpTo (k : ℕ) (j : ℤ) :
    logOf ((List.range (k + 1)).map fun j : ℕ ↦ truth j) j =
      if 0 ≤ j ∧ j ≤ k then some (truth j) else none := by
  unfold logOf
  by_cases hj : 0 ≤ j
  · obtain ⟨j, rfl⟩ := Int.eq_ofNat_of_zero_le hj
    by_cases hk : j ≤ k
    · have hget : (List.range (k + 1))[j]? = some j := List.getElem?_range (Nat.lt_succ_of_le hk)
      simp only [List.getElem?_map, Int.toNat_natCast, hget, Option.map_some, hj, if_true]
      rw [if_pos ⟨trivial, Int.ofNat_le.mpr hk⟩]
    · have hget : (List.range (k + 1))[j]? = none :=
        List.getElem?_eq_none (by rw [List.length_range]; omega)
      simp only [List.getElem?_map, Int.toNat_natCast, hget, Option.map_none, hj, if_true]
      rw [if_neg fun h ↦ hk (Int.ofNat_le.mp h.2)]
  · simp [hj]

/-- A snapshot of the sequence replaces the record of a server. -/
theorem Follows.ingest (h : cfg.Follows truth n) {i : ℕ} (hi : i < n) {k : ℕ} {index : ℤ}
    (hindex : index = -1 ∨ index = k) :
    ∃ next, cfg.ingestSnap i (truthUpTo truth k) index = .ok (next, none) ∧
      next.Follows truth n ∧ Frame i cfg next ∧ next.lastApplied[i]? = some (k : ℤ) := by
  have hlogs : i < cfg.logs.length := h.length_logs.symm ▸ hi
  have hok : ¬ (index ≠ -1 ∧ index ≠ k) := by omega
  refine ⟨_, if_neg hok, ?_⟩
  set next := Checker.setLastApplied { cfg with
    logs := cfg.logs.set i (logOf ((List.range (k + 1)).map fun j : ℕ ↦ truth j)) } i k
  have hframe : Frame i cfg next := by
    refine ⟨fun j l hj ↦ ?_, (frame_setLastApplied _ i k).lastApplied⟩
    simp [next, Checker.entry, Checker.setLastApplied, List.getElem?_set_ne (Ne.symm hj)]
  have hentry : ∀ j : ℤ, next.entry i j = if 0 ≤ j ∧ j ≤ k then some (truth j) else none := by
    intro j
    simp only [next, Checker.entry, Checker.setLastApplied, List.getElem?_set_self hlogs,
      Option.bind_some]
    exact logOf_truthUpTo k j
  have hlast : next.lastApplied[i]? = some (k : ℤ) :=
    List.getElem?_set_self (h.length_lastApplied.symm ▸ hi)
  refine ⟨h.update hframe ?_ ?_ (fun j v hv ↦ ?_) fun l hl ↦ ?_, hframe, hlast⟩
  · exact List.length_set.trans h.length_logs
  · exact List.length_set.trans h.length_lastApplied
  · rw [hentry] at hv
    split_ifs at hv
    exact (Option.some.inj hv).symm
  · cases hlast.symm.trans hl
    refine ⟨Int.natCast_nonneg k, fun j hj hle ↦ ?_⟩
    rw [hentry, if_pos ⟨by omega, hle⟩]

/-- A server is started again, from the beginning or from a snapshot of the sequence. -/
theorem Follows.restart (h : cfg.Follows truth n) {i : ℕ} (hi : i < n)
    {saved : Option (SnapshotData V)}
    (hsaved : ∀ snapshot ∈ saved, ∃ k, snapshot = truthUpTo truth k) :
    ∃ next, cfg.restart i saved = .ok (next, none) ∧ next.Follows truth n ∧ Frame i cfg next := by
  have hframe := frame_setLastApplied cfg i 0
  obtain ⟨hreset, -⟩ := h.setLastApplied hi (Int.le_refl 0) fun k hk hle ↦ by omega
  cases saved with
  | none => exact ⟨_, rfl, hreset, hframe⟩
  | some snapshot =>
    obtain ⟨k, rfl⟩ := hsaved snapshot rfl
    obtain ⟨next, hnext, hfollows, hframe', -⟩ := hreset.ingest hi (k := k) (Or.inl rfl)
    refine ⟨next, hnext, hfollows, fun j l hj ↦ ?_, fun j hj ↦ ?_⟩
    · rw [hframe'.entry j l hj, hframe.entry j l hj]
    · rw [hframe'.lastApplied j hj, hframe.lastApplied j hj]

/-- What is copied for a snapshot. -/
theorem Follows.getD_entry [Inhabited V] (h : cfg.Follows truth n) (hnil : truth 0 = default)
    {i : ℕ} {last : ℤ} (hlast : cfg.lastApplied[i]? = some last) {j : ℕ} (hj : (j : ℤ) ≤ last) :
    (cfg.entry i j).getD default = truth j := by
  by_cases hzero : j = 0
  · subst hzero
    -- index 0 is never applied, so it reads as nil with or without a snapshot
    cases hfirst : cfg.entry i (0 : ℕ) with
    | none => simpa using hnil.symm
    | some v => simpa using h.entry i _ v hfirst
  · rw [(h.complete i last hlast).2 j (by omega) hj]
    rfl

/-- The next command of the sequence passes the checks. -/
theorem Follows.verdict [DecidableEq V] (h : cfg.Follows truth n) {i : ℕ} {m : ApplyMsg V}
    (hlast : cfg.lastApplied[i]? = some (m.commandIndex - 1))
    (hcommand : m.command = truth m.commandIndex) :
    cfg.verdict i m = (cfg.record i m.commandIndex (truth m.commandIndex), none) := by
  have hnone : (cfg.verdict i m).2 = none := by
    rw [verdict_eq_none_iff, mismatch_eq_none_iff]
    refine ⟨fun j old hold ↦ ?_, fun hgt ↦ ?_⟩
    · rw [hcommand]
      exact h.entry j _ old hold
    · rw [(h.complete i _ hlast).2 (m.commandIndex - 1) (by omega) (Int.le_refl _)]
      rfl
  refine Prod.ext ?_ hnone
  rw [← hcommand]
  rfl

end Sequence

end Checker

/-! ## What a correct Raft delivers -/

namespace SnapChecker

section Truth

variable {V : Type} (truth : ℤ → V)

def lastIncludedIndex : SnapshotData V → Option ℤ
  | .state lastIncludedIndex _ => some lastIncludedIndex
  | _ => none

/-- What a Raft that commits the commands of the sequence delivers, and when servers are started
again. -/
def Faithful (s : SnapChecker V) : SnapEvent V → Prop
  | .crash1 _ | .launch _ | .advance _ => True
  | .restart i saved =>
    (∀ a ∈ s.appliers, a.server = i → a.phase.isBusy = false) ∧
      ∀ snapshot ∈ saved, snapshot ∈ s.taken
  | .deliver k m => ∀ a ∈ s.appliers[k]?, a.current = true ∧
    (m.snapshotValid = true →
      m.snapshot ∈ s.taken ∧ lastIncludedIndex m.snapshot = some m.snapshotIndex) ∧
    (m.snapshotValid = false → m.commandValid = true →
      m.commandIndex = a.delivered + 1 ∧ m.command = truth m.commandIndex)

instance [DecidableEq V] (s : SnapChecker V) (e : SnapEvent V) :
    Decidable (s.Faithful truth e) := by
  cases e <;> unfold Faithful <;> infer_instance

end Truth

end SnapChecker

namespace SnapApplier

variable {V : Type} {truth : ℤ → V} {cfg next : Checker V} {a : SnapApplier V}

/-- What holds of a goroutine at each phase.  One whose instance was superseded handles nothing. -/
def SitsAt (truth : ℤ → V) (cfg : Checker V) (a : SnapApplier V) : SnapPhase V → Prop
  | .starting | .receiving => a.current = true → cfg.lastApplied[a.server]? = some a.delivered
  | .ended => True
  | .ingesting m => a.current = true ∧
    ∃ k : ℕ, m.snapshot = truthUpTo truth k ∧ m.snapshotIndex = k ∧ a.delivered = k
  | .checking m | .recording m => a.current = true ∧ a.delivered = m.commandIndex ∧
    cfg.lastApplied[a.server]? = some (m.commandIndex - 1) ∧ m.command = truth m.commandIndex
  | .complaining _ => False
  | .applying m err => a.current = true ∧ a.delivered = m.commandIndex ∧ err = none ∧
    cfg.lastApplied[a.server]? = some (m.commandIndex - 1) ∧
    cfg.entry a.server m.commandIndex = some (truth m.commandIndex)
  | .copying m err xlog => a.current = true ∧ a.delivered = m.commandIndex ∧ err = none ∧
    cfg.lastApplied[a.server]? = some m.commandIndex ∧ (xlog.length : ℤ) ≤ m.commandIndex + 1 ∧
    xlog = (List.range xlog.length).map fun j : ℕ ↦ truth j
  | .judging err => a.current = true ∧ err = none ∧
    cfg.lastApplied[a.server]? = some a.delivered

def Sits (truth : ℤ → V) (cfg : Checker V) (a : SnapApplier V) : Prop := a.SitsAt truth cfg a.phase

/-- A goroutine is not concerned by what happens to other servers, and one whose instance was
superseded not at all. -/
theorem Sits.of_frame {i : ℕ} (h : a.Sits truth cfg) (hframe : cfg.Frame i next)
    (ha : a.current = true → a.server ≠ i) : a.Sits truth next := by
  obtain ⟨server, phase, current, delivered⟩ := a
  have hlast := fun hcurrent ↦ hframe.lastApplied server (ha hcurrent)
  cases phase with
  | starting | receiving =>
    intro hcurrent
    rw [hlast hcurrent]
    exact h hcurrent
  | ended => trivial
  | ingesting m => exact h
  | complaining m => exact h
  | checking m | recording m | copying m err xlog =>
    simp only [Sits, SitsAt] at h ⊢
    rw [hlast h.1]
    exact h
  | judging err =>
    simp only [Sits, SitsAt] at h ⊢
    rw [hlast h.1]
    exact h
  | applying m err =>
    simp only [Sits, SitsAt] at h ⊢
    rw [hlast h.1, hframe.entry server _ (ha h.1)]
    exact h

theorem Sits.isFailed_eq_false (h : a.Sits truth cfg) : a.phase.isFailed = false := by
  obtain ⟨server, phase, current, delivered⟩ := a
  cases phase with
  | complaining m => exact h.elim
  | applying m err | copying m err xlog =>
    obtain ⟨-, -, rfl, -⟩ := h
    rfl
  | judging err =>
    obtain ⟨-, rfl, -⟩ := h
    rfl
  | starting | receiving | ingesting | checking | recording | ended => rfl

end SnapApplier

/-! ## No false alarm -/

namespace SnapChecker

section Truth

variable {V : Type} {truth : ℤ → V} {n : ℕ} {s t : SnapChecker V} {k : ℕ} {a : SnapApplier V}

/-- Everything recorded and every snapshot is of the sequence, and no check has failed. -/
structure Truthful (truth : ℤ → V) (n : ℕ) (s : SnapChecker V) : Prop where
  follows : s.cfg.Follows truth n
  taken : ∀ snapshot ∈ s.taken, ∃ k, snapshot = truthUpTo truth k
  stopped : s.stopped = none
  base : ∀ i index, s.base i = some index → i < n ∧ s.cfg.lastApplied[i]? = some index ∧
    ∀ a ∈ s.appliers, a.server = i → a.current = false
  server_lt : ∀ a ∈ s.appliers, a.server < n
  sits : ∀ (k : ℕ) a, s.appliers[k]? = some a → a.Sits truth s.cfg
  unique : ∀ (j k : ℕ) a b, s.appliers[j]? = some a → s.appliers[k]? = some b →
    a.current = true → b.current = true → a.server = b.server → j = k

/-- A step of a goroutine; it changes the record only while its instance is current. -/
theorem Truthful.set (hs : s.Truthful truth n) (hk : s.appliers[k]? = some a) {cfg : Checker V}
    {taken : List (SnapshotData V)} {phase : SnapPhase V} {delivered : ℤ}
    (hfollows : cfg.Follows truth n)
    (hframe : cfg = s.cfg ∨ a.current = true ∧ s.cfg.Frame a.server cfg)
    (htaken : ∀ snapshot ∈ taken, ∃ k, snapshot = truthUpTo truth k)
    (hsits : SnapApplier.Sits truth cfg ⟨a.server, phase, a.current, delivered⟩) :
    Truthful truth n
      { s with
        cfg
        taken
        appliers := s.appliers.set k ⟨a.server, phase, a.current, delivered⟩ } := by
  have hlt : k < s.appliers.length := (List.getElem?_eq_some_iff.mp hk).1
  have hmem : ∀ b ∈ s.appliers.set k ⟨a.server, phase, a.current, delivered⟩,
      ∃ c ∈ s.appliers, b.server = c.server ∧ b.current = c.current := by
    intro b hb
    rcases List.mem_or_eq_of_mem_set hb with hb | rfl
    · exact ⟨b, hb, rfl, rfl⟩
    · exact ⟨a, List.mem_of_getElem? hk, rfl, rfl⟩
  have hget : ∀ (j : ℕ) b, (s.appliers.set k ⟨a.server, phase, a.current, delivered⟩)[j]? = some b →
      ∃ c, s.appliers[j]? = some c ∧ b.server = c.server ∧ b.current = c.current := by
    intro j b hb
    rcases (Lists.getElem?_set_eq_some hlt).mp hb with ⟨rfl, rfl⟩ | ⟨-, hb⟩
    · exact ⟨a, hk, rfl, rfl⟩
    · exact ⟨b, hb, rfl, rfl⟩
  refine ⟨hfollows, htaken, hs.stopped, fun i index hi ↦ ?_, fun b hb ↦ ?_, fun j b hb ↦ ?_,
    fun j l b c hb hc hbc hcc hserver ↦ ?_⟩
  · obtain ⟨hn, hlast, hidle⟩ := hs.base i index hi
    refine ⟨hn, ?_, fun b hb hserver ↦ ?_⟩
    · rcases hframe with rfl | ⟨hcurrent, hframe⟩
      · exact hlast
      · have hne : i ≠ a.server := by
          rintro rfl
          rw [hidle a (List.mem_of_getElem? hk) rfl] at hcurrent
          cases hcurrent
        exact (hframe.lastApplied i hne).trans hlast
    · obtain ⟨c, hc, hserver', hcurrent⟩ := hmem b hb
      rw [hcurrent]
      exact hidle c hc (hserver'.symm.trans hserver)
  · obtain ⟨c, hc, hserver, -⟩ := hmem b hb
    rw [hserver]
    exact hs.server_lt c hc
  · rcases (Lists.getElem?_set_eq_some hlt).mp hb with ⟨-, rfl⟩ | ⟨hne, hb⟩
    · exact hsits
    · have hold := hs.sits j b hb
      rcases hframe with rfl | ⟨hcurrent, hframe⟩
      · exact hold
      · refine hold.of_frame hframe fun hb' hserver ↦ hne ?_
        exact hs.unique j k b a hb hk hb' hcurrent hserver
  · obtain ⟨b', hb', hbs, hbc'⟩ := hget j b hb
    obtain ⟨c', hc', hcs, hcc'⟩ := hget l c hc
    exact hs.unique j l b' c' hb' hc' (hbc' ▸ hbc) (hcc' ▸ hcc) (by rw [← hbs, ← hcs, hserver])

/-- A step of a goroutine that leaves the record. -/
theorem Truthful.goTo (hs : s.Truthful truth n) (hk : s.appliers[k]? = some a)
    {phase : SnapPhase V} (hsits : a.SitsAt truth s.cfg phase) :
    (s.goTo k a phase).Truthful truth n :=
  hs.set hk hs.follows (Or.inl rfl) hs.taken hsits

/-- A message of a faithful Raft arrives. -/
theorem Truthful.deliver (hs : s.Truthful truth n) {m : ApplyMsg V} {server : ℕ} {current : Bool}
    {delivered : ℤ} (hk : s.appliers[k]? = some ⟨server, .receiving, current, delivered⟩)
    (he : s.Faithful truth (.deliver k m)) :
    Truthful truth n
      { s with
        appliers :=
          s.appliers.set k ⟨server, .received m, current, m.lastIndex delivered⟩ } := by
  obtain ⟨hcurrent, hsnapshot, hcommand⟩ := he _ hk
  have hlast : s.cfg.lastApplied[server]? = some delivered := hs.sits k _ hk hcurrent
  refine hs.set hk hs.follows (Or.inl rfl) hs.taken ?_
  unfold SnapPhase.received ApplyMsg.lastIndex
  cases hvalid : m.snapshotValid with
  | true =>
    obtain ⟨htaken, hindex⟩ := hsnapshot hvalid
    obtain ⟨l, hl⟩ := hs.taken _ htaken
    rw [hl] at hindex
    exact ⟨hcurrent, l, hl, (Option.some.inj hindex).symm, (Option.some.inj hindex).symm⟩
  | false =>
    cases hcmd : m.commandValid with
    | true =>
      obtain ⟨hindex, hvalue⟩ := hcommand hvalid hcmd
      refine ⟨hcurrent, rfl, ?_, hvalue⟩
      rw [hindex, Int.add_sub_cancel]
      exact hlast
    | false => exact ⟨hcurrent, rfl, hlast⟩

theorem supersede_server (i : ℕ) (a : SnapApplier V) : (supersede i a).server = a.server := by
  unfold supersede
  split_ifs <;> rfl

/-- Only the instances of other servers stay current. -/
theorem eq_of_current_supersede {i : ℕ} (h : (supersede i a).current = true) :
    a.server ≠ i ∧ supersede i a = a := by
  unfold supersede at h ⊢
  by_cases hserver : a.server = i
  · rw [if_pos hserver] at h
    cases h
  · exact ⟨hserver, if_neg hserver⟩

/-- A goroutine that handles no message is not concerned when its server is started again. -/
theorem sits_supersede {i : ℕ} {cfg : Checker V} (hsits : a.Sits truth s.cfg)
    (hidle : a.server = i → a.phase.isBusy = false) (hframe : s.cfg.Frame i cfg) :
    (supersede i a).Sits truth cfg := by
  by_cases hserver : a.server = i
  · rw [supersede, if_pos hserver]
    have hbusy := hidle hserver
    obtain ⟨server, phase, current, delivered⟩ := a
    cases phase with
    | starting | receiving =>
      intro hcurrent
      cases hcurrent
    | ended => trivial
    | ingesting | checking | complaining | recording | applying | copying | judging => cases hbusy
  · rw [supersede, if_neg hserver]
    exact hsits.of_frame hframe fun _ ↦ hserver

/-- A server is started again while none of its goroutines handles a message. -/
theorem Truthful.restart (hs : s.Truthful truth n) {i : ℕ} {cfg : Checker V} (hi : i < n)
    (hidle : ∀ a ∈ s.appliers, a.server = i → a.phase.isBusy = false)
    (hfollows : cfg.Follows truth n) (hframe : s.cfg.Frame i cfg) :
    Truthful truth n
      { s with
        cfg
        base := Function.update s.base i cfg.lastApplied[i]?
        appliers := s.appliers.map (supersede i) } := by
  refine ⟨hfollows, hs.taken, hs.stopped, fun j index hj ↦ ?_, fun b hb ↦ ?_, fun k b hb ↦ ?_,
    fun j k b c hb hc hbc hcc hserver ↦ ?_⟩
  · by_cases hji : j = i
    · subst hji
      dsimp only at hj
      rw [Function.update_self] at hj
      refine ⟨hi, hj, fun b hb hserver ↦ ?_⟩
      obtain ⟨a, -, rfl⟩ := List.mem_map.mp hb
      rw [supersede_server] at hserver
      rw [supersede, if_pos hserver]
    · dsimp only at hj
      rw [Function.update_of_ne hji] at hj
      obtain ⟨hn, hlast, hsuperseded⟩ := hs.base j index hj
      refine ⟨hn, (hframe.lastApplied j hji).trans hlast, fun b hb hserver ↦ ?_⟩
      obtain ⟨a, ha, rfl⟩ := List.mem_map.mp hb
      rw [supersede_server] at hserver
      rw [supersede, if_neg (hserver ▸ hji)]
      exact hsuperseded a ha hserver
  · obtain ⟨a, ha, rfl⟩ := List.mem_map.mp hb
    rw [supersede_server]
    exact hs.server_lt a ha
  · rw [List.getElem?_map] at hb
    obtain ⟨a, ha, rfl⟩ := Option.map_eq_some_iff.mp hb
    exact sits_supersede (hs.sits k a ha) (hidle a (List.mem_of_getElem? ha)) hframe
  · rw [List.getElem?_map] at hb hc
    obtain ⟨b', hb', rfl⟩ := Option.map_eq_some_iff.mp hb
    obtain ⟨c', hc', rfl⟩ := Option.map_eq_some_iff.mp hc
    rw [(eq_of_current_supersede hbc).2] at hbc
    rw [(eq_of_current_supersede hcc).2] at hcc
    rw [supersede_server, supersede_server] at hserver
    exact hs.unique j k b' c' hb' hc' hbc hcc hserver

/-- A goroutine is started for the instance that was made. -/
theorem Truthful.launch (hs : s.Truthful truth n) {i : ℕ} {index : ℤ} (hi : s.base i = some index) :
    Truthful truth n
      { s with
        rafts := Function.update s.rafts i true
        base := Function.update s.base i none
        appliers := s.appliers ++ [⟨i, .starting, true, index⟩] } := by
  obtain ⟨hn, hlast, hsuperseded⟩ := hs.base i index hi
  refine ⟨hs.follows, hs.taken, hs.stopped, fun j l hj ↦ ?_, fun b hb ↦ ?_, fun k b hb ↦ ?_,
    fun j k b c hb hc hbc hcc hserver ↦ ?_⟩
  · dsimp only at hj
    have hji : j ≠ i := by
      rintro rfl
      rw [Function.update_self] at hj
      cases hj
    rw [Function.update_of_ne hji] at hj
    obtain ⟨hj, hjlast, hjsuperseded⟩ := hs.base j l hj
    refine ⟨hj, hjlast, fun b hb hserver ↦ ?_⟩
    rcases List.mem_append.mp hb with hb | hb
    · exact hjsuperseded b hb hserver
    · cases List.mem_singleton.mp hb
      exact absurd hserver.symm hji
  · rcases List.mem_append.mp hb with hb | hb
    · exact hs.server_lt b hb
    · cases List.mem_singleton.mp hb
      exact hn
  · rcases Lists.getElem?_concat_eq_some.mp hb with hb | ⟨-, rfl⟩
    · exact hs.sits k b hb
    · exact fun _ ↦ hlast
  · -- the goroutines of earlier instances are superseded
    have hnew : ∀ b ∈ s.appliers, b.current = true → b.server ≠ i := by
      intro b hb hcurrent hserver
      rw [hsuperseded b hb hserver] at hcurrent
      cases hcurrent
    rcases Lists.getElem?_concat_eq_some.mp hb with hb | ⟨rfl, rfl⟩ <;>
      rcases Lists.getElem?_concat_eq_some.mp hc with hc | ⟨rfl, rfl⟩
    · exact hs.unique j k b c hb hc hbc hcc hserver
    · exact absurd hserver (hnew b (List.mem_of_getElem? hb) hbc)
    · exact absurd hserver.symm (hnew c (List.mem_of_getElem? hc) hcc)
    · rfl

variable [DecidableEq V] [Inhabited V]

section Apply

variable {server : ℕ} {current : Bool} {delivered : ℤ} {m : ApplyMsg V}
  {err : Option (ApplyError V)} {xlog : List V}

/-- The next entry is recorded, and then its index. -/
theorem Truthful.applying (hs : s.Truthful truth n)
    (hk : s.appliers[k]? = some ⟨server, .applying m err, current, delivered⟩)
    (h : s.applierSnap k ⟨server, .applying m err, current, delivered⟩ = some t) :
    t.Truthful truth n := by
  obtain ⟨hcurrent, hdelivered, rfl, hlast, hentry⟩ := hs.sits k _ hk
  have hserver := hs.server_lt _ (List.mem_of_getElem? hk)
  obtain ⟨hpos, hcomplete⟩ := hs.follows.complete server _ hlast
  have hnext : ∀ j, 1 ≤ j → j ≤ m.commandIndex → s.cfg.entry server j = some (truth j) := by
    intro j hj hle
    rcases Int.lt_or_eq_of_le hle with hlt | rfl
    · exact hcomplete j hj (by omega)
    · exact hentry
  obtain ⟨hfollows, hset⟩ := hs.follows.setLastApplied hserver (by omega) hnext
  have hframe := s.cfg.frame_setLastApplied server m.commandIndex
  simp only [SnapChecker.applierSnap] at h
  split_ifs at h
  · cases h
    exact hs.set hk hfollows (Or.inr ⟨hcurrent, hframe⟩) hs.taken
      ⟨hcurrent, hdelivered, rfl, hset, by simp; omega, rfl⟩
  · cases h
    exact hs.set hk hfollows (Or.inr ⟨hcurrent, hframe⟩) hs.taken
      ⟨hcurrent, rfl, hset.trans (congrArg some hdelivered.symm)⟩

/-- One more entry is copied for the snapshot, or the snapshot is taken. -/
theorem Truthful.copying (hs : s.Truthful truth n) (hnil : truth 0 = default)
    (hk : s.appliers[k]? = some ⟨server, .copying m err xlog, current, delivered⟩)
    (h : s.applierSnap k ⟨server, .copying m err xlog, current, delivered⟩ = some t) :
    t.Truthful truth n := by
  obtain ⟨hcurrent, hdelivered, rfl, hlast, hle, hxlog⟩ := hs.sits k _ hk
  simp only [SnapChecker.applierSnap] at h
  split_ifs at h with hmore
  · cases h
    apply hs.goTo hk
    refine ⟨hcurrent, hdelivered, rfl, hlast, ?_, ?_⟩
    · rw [List.length_append, List.length_singleton]
      omega
    · rw [hs.follows.getD_entry hnil hlast hmore, List.length_append, List.length_singleton,
        List.range_succ, List.map_append, ← hxlog]
      rfl
  · cases h
    refine hs.set hk hs.follows (Or.inl rfl) (fun snapshot hmem ↦ ?_)
      ⟨hcurrent, rfl, hlast.trans (congrArg some hdelivered.symm)⟩
    rcases List.mem_cons.mp hmem with rfl | hmem
    · obtain ⟨hpos, -⟩ := hs.follows.complete server _ hlast
      refine ⟨m.commandIndex.toNat, ?_⟩
      have hlength : xlog.length = m.commandIndex.toNat + 1 := by omega
      rw [truthUpTo, Int.toNat_of_nonneg hpos, ← hlength, ← hxlog]
    · exact hs.taken snapshot hmem

end Apply

theorem Truthful.applierSnap (hs : s.Truthful truth n) (hnil : truth 0 = default)
    (hk : s.appliers[k]? = some a) (h : s.applierSnap k a = some t) : t.Truthful truth n := by
  have hsits := hs.sits k a hk
  have hserver := hs.server_lt a (List.mem_of_getElem? hk)
  obtain ⟨server, phase, current, delivered⟩ := a
  cases phase with
  | starting =>
    cases h
    apply hs.goTo hk
    split_ifs
    · exact hsits
    · trivial
  | receiving | ended => cases h
  | ingesting m =>
    obtain ⟨hcurrent, l, hsnapshot, hindex, hdelivered⟩ := hsits
    obtain ⟨cfg, hcfg, hfollows, hframe, hlast⟩ := hs.follows.ingest hserver (Or.inr hindex)
    simp only [SnapChecker.applierSnap, hsnapshot, hcfg] at h
    cases h
    refine hs.set hk hfollows (Or.inr ⟨hcurrent, hframe⟩) hs.taken ⟨hcurrent, rfl, ?_⟩
    exact hlast.trans (congrArg some hdelivered.symm)
  | checking m =>
    have hexpected : ¬ m.commandIndex ≠ s.cfg.expectedIndex server := by
      rw [Checker.expectedIndex, hsits.2.2.1, Option.getD_some]
      omega
    simp only [SnapChecker.applierSnap] at h
    rw [if_neg hexpected] at h
    cases h
    exact hs.goTo hk hsits
  | complaining m => exact hsits.elim
  | recording m =>
    obtain ⟨hcurrent, hdelivered, hlast, hcommand⟩ := hsits
    obtain ⟨hfollows, hframe, hentry⟩ := hs.follows.record hserver m.commandIndex
    simp only [SnapChecker.applierSnap, hs.follows.verdict hlast hcommand] at h
    cases h
    exact hs.set hk hfollows (Or.inr ⟨hcurrent, hframe⟩) hs.taken
      ⟨hcurrent, hdelivered, rfl, hlast, hentry⟩
  | applying m err => exact hs.applying hk h
  | copying m err xlog => exact hs.copying hnil hk h
  | judging err =>
    obtain ⟨hcurrent, rfl, hlast⟩ := hsits
    cases h
    exact hs.goTo hk fun _ ↦ hlast

theorem Truthful.step (hs : s.Truthful truth n) (hnil : truth 0 = default) {e : SnapEvent V}
    (he : s.Faithful truth e) (h : s.step n e = some t) : t.Truthful truth n := by
  unfold SnapChecker.step at h
  rw [Option.ite_none_left_eq_some] at h
  obtain ⟨-, h⟩ := h
  cases e with
  | crash1 i =>
    cases h
    exact ⟨hs.follows, hs.taken, hs.stopped, hs.base, hs.server_lt, hs.sits, hs.unique⟩
  | restart i saved =>
    dsimp only at h
    rw [Option.ite_none_right_eq_some] at h
    obtain ⟨⟨hi, -⟩, h⟩ := h
    obtain ⟨cfg, hcfg, hfollows, hframe⟩ := hs.follows.restart hi fun snapshot hmem ↦
      hs.taken snapshot (he.2 snapshot hmem)
    rw [hcfg] at h
    cases h
    exact hs.restart hi he.1 hfollows hframe
  | launch i =>
    obtain ⟨index, hindex, rfl⟩ := Option.map_eq_some_iff.mp h
    exact hs.launch hindex
  | deliver k m =>
    dsimp only at h
    split at h
    · next hk =>
      cases h
      exact hs.deliver hk he
    · cases h
  | advance k =>
    obtain ⟨a, hk, h⟩ := Option.bind_eq_some_iff.mp h
    exact hs.applierSnap hnil hk h

theorem truthful_initial (truth : ℤ → V) (n : ℕ) : (snapChecker V n).init.Truthful truth n := by
  refine ⟨Checker.follows_initial truth n, fun _ h ↦ absurd h List.not_mem_nil, rfl,
    fun _ _ h ↦ ?_, fun _ h ↦ absurd h List.not_mem_nil, fun _ _ h ↦ ?_, fun _ _ _ _ h ↦ ?_⟩ <;>
    cases h

/-- **No false alarm.** Let servers be started again only while none of their goroutines handles a
message, and let superseded instances deliver nothing.  While the instances deliver the commands of
one sequence in order, from the beginning or from the snapshot they started from, and only snapshots
that were taken before, no check fails, whatever the interleaving; all records are of that sequence,
and every snapshot that was taken holds exactly its first commands. -/
theorem no_false_alarm (hnil : truth 0 = default) (n : ℕ)
    (h : (snapChecker V n).ReachableWhen (Faithful truth) s) :
    s.stopped = none ∧ (∀ a ∈ s.appliers, a.phase.isFailed = false) ∧
    (∀ i k v, s.cfg.entry i k = some v → v = truth k) ∧
    ∀ snapshot ∈ s.taken, ∃ k : ℕ,
      snapshot = .state k ((List.range (k + 1)).map fun j : ℕ ↦ truth j) := by
  have hs : s.Truthful truth n := by
    apply Machine.ReachableFrom.invariant h (truthful_initial truth n)
    exact fun _ _ _ hs he hstep ↦ hs.step hnil he hstep
  refine ⟨hs.stopped, fun a ha ↦ ?_, hs.follows.entry, hs.taken⟩
  obtain ⟨k, hk⟩ := List.mem_iff_getElem?.mp ha
  exact (hs.sits k a hk).isFailed_eq_false

/-- A server is started, and its goroutine, the `k`-th one, finds its Raft. -/
def sampleStart (i k : ℕ) (saved : Option (SnapshotData ℕ)) : List (SnapEvent ℕ) :=
  [.restart i saved, .launch i, .advance k]

/-- A goroutine takes a message and goes on for some steps. -/
def sampleMessage (k : ℕ) (m : ApplyMsg ℕ) (steps : ℕ) : List (SnapEvent ℕ) :=
  .deliver k m :: List.replicate steps (.advance k)

/-- Server 0 applies nine commands and takes a snapshot, server 1 gets it, and server 0 is started
from it. -/
def sampleRun : List (SnapEvent ℕ) :=
  sampleStart 0 0 none ++ sampleStart 1 1 none ++
    ((List.range 8).flatMap fun j : ℕ ↦ sampleMessage 0 (Checker.commandMsg (j + 1) (j + 1)) 4) ++
    sampleMessage 0 (Checker.commandMsg 9 9) 15 ++
    sampleMessage 1 ⟨false, 0, 0, true, .state 9 (List.range 10), 9⟩ 2 ++
    sampleStart 0 2 (some (.state 9 (List.range 10)))

theorem no_false_alarm_sample :
    ∃ s : SnapChecker ℕ, (snapChecker ℕ 2).ReachableWhen (Faithful Int.toNat) s ∧
      s.cfg.lastApplied = [9, 9] ∧ s.taken = [.state 9 (List.range 10)] ∧ s.stopped = none := by
  have hrun : ∃ s : SnapChecker ℕ, (snapChecker ℕ 2).ReachableWhen (Faithful Int.toNat) s ∧
      s.cfg.lastApplied = [9, 9] ∧ s.taken = [.state 9 (List.range 10)] :=
    Machine.exists_reachableWhen sampleRun (by decide)
  obtain ⟨s, hs, hlast, htaken⟩ := hrun
  exact ⟨s, hs, hlast, htaken, (no_false_alarm rfl 2 hs).1⟩

/-- A false alarm: the server is started again after its first command was recorded and before
`lastApplied` was set for it.  The old goroutine sets it, and the new instance, which begins with
the first command as it should, is found out of order. -/
example :
    ((snapChecker ℕ 1).run (snapChecker ℕ 1).init
      (sampleStart 0 0 none ++ sampleMessage 0 (Checker.commandMsg 1 7) 2 ++
        sampleStart 0 1 none ++ [.advance 0] ++
        sampleMessage 1 (Checker.commandMsg 1 7) 4)).bind SnapChecker.stopped =
      some (.unexpected 0 2 1) := by decide

end Truth

end SnapChecker

end DistKvRaft.Raft
