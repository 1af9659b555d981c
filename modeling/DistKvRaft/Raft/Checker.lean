import DistKvRaft.Foundation.Lists
import DistKvRaft.Foundation.Machine

/-!
# What the Raft tester checks of committed entries

The tester reads every server's apply channel.  `applier` records each command under its index and
ends the process if another server has committed something else there, or if the server has not
applied the index before.  The messages of all servers may interleave in any way.  The checks are
exact: a history of messages passes if and only if no index has two commands and no server applies
an index above 1 without the one before.  `nCommitted` then counts the servers that have an index,
without ever finding a mismatch.
-/

namespace DistKvRaft.Raft

/-- What a snapshot decodes to. -/
inductive SnapshotData (V : Type)
  | nil
  | undecodable
  | state (lastIncludedIndex : ℤ) (xlog : List V)
  deriving DecidableEq

/-- The fields of `ApplyMsg` that the tester reads.  A command is an `interface{}`, and `default` is
its nil value. -/
structure ApplyMsg (V : Type) where
  commandValid : Bool
  command : V
  commandIndex : ℤ
  snapshotValid : Bool
  snapshot : SnapshotData V
  snapshotIndex : ℤ

/-- Why the tester ends the process, with what its message shows. -/
inductive ApplyError (V : Type)
  | mismatch (index : ℤ) (server : ℕ) (command : V) (other : ℕ) (old : V)
  | outOfOrder (server : ℕ) (index : ℤ)
  | unexpected (server : ℕ) (expected got : ℤ)
  | nilSnapshot
  | undecodable
  | snapshotIndex (server : ℕ)
  deriving DecidableEq

/-- The fields of the tester's `config` that record committed entries, by server. -/
structure Checker (V : Type) where
  logs : List (ℤ → Option V)
  lastApplied : List ℤ
  maxIndex : ℤ

namespace Checker

section Model

variable {V : Type} [DecidableEq V] (cfg : Checker V)

/-- `make_config` for `n` servers. -/
def initial (n : ℕ) : Checker V := ⟨List.replicate n fun _ ↦ none, List.replicate n 0, 0⟩

/-- `cfg.logs[i][index]`. -/
def entry (i : ℕ) (index : ℤ) : Option V := (cfg.logs[i]?).bind fun log ↦ log index

/-- The loop of `checkLogs` over all servers: the last one with another command is reported. -/
def mismatch (i : ℕ) (m : ApplyMsg V) : Option (ApplyError V) :=
  (List.range cfg.logs.length).foldl (fun err j ↦
    match cfg.entry j m.commandIndex with
    | some old =>
      if old ≠ m.command then some (.mismatch m.commandIndex i m.command j old) else err
    | none => err) none

/-- `cfg.logs[i][index] = v`. -/
def record (i : ℕ) (index : ℤ) (v : V) : Checker V :=
  { cfg with
    logs := cfg.logs.modify i fun log ↦ Function.update log index (some v)
    maxIndex := if index > cfg.maxIndex then index else cfg.maxIndex }

def checkLogs (i : ℕ) (m : ApplyMsg V) : Checker V × Option (ApplyError V) × Bool :=
  (cfg.record i m.commandIndex m.command, cfg.mismatch i m,
    (cfg.entry i (m.commandIndex - 1)).isSome)

/-- Record a command, with the error that is left after `checkLogs` and the check of the order. -/
def verdict (i : ℕ) (m : ApplyMsg V) : Checker V × Option (ApplyError V) :=
  let (next, err, prevok) := cfg.checkLogs i m
  (next, if m.commandIndex > 1 ∧ prevok = false then some (.outOfOrder i m.commandIndex) else err)

/-- What `applier` does with one message.  The command is recorded even if a check fails; the error
ends the process later, when the lock has been released. -/
def applier (i : ℕ) (m : ApplyMsg V) : Checker V × Option (ApplyError V) :=
  if m.commandValid = false then (cfg, none) else cfg.verdict i m

/-- The loop of `nCommitted` over the servers, with the count and the command so far. -/
def nCommittedLoop (index : ℤ) : List ℕ → ℕ × V → Option (ℕ × V)
  | [], acc => some acc
  | i :: rest, (count, cmd) =>
    match cfg.entry i index with
    | none => nCommittedLoop index rest (count, cmd)
    | some cmd1 =>
      if count > 0 ∧ cmd ≠ cmd1 then none else nCommittedLoop index rest (count + 1, cmd1)

/-- How many servers have committed an index, and what; `none` where the test fails because the
committed values do not match. -/
def nCommitted [Inhabited V] (index : ℤ) : Option (ℕ × V) :=
  cfg.nCommittedLoop index (List.range cfg.logs.length) (0, default)

end Model

end Checker

/-- The tester of `n` servers: an event is a message and the server it comes from.  A message that
fails a check has no next state. -/
def checker (V : Type) [DecidableEq V] (n : ℕ) : Machine (Checker V) (ℕ × ApplyMsg V) where
  init := .initial n
  step cfg e :=
    if e.1 < n then
      match cfg.applier e.1 e.2 with
      | (next, none) => some next
      | (_, some _) => none
    else none

/-! ## Histories -/

/-- A command that a server has applied. -/
structure Applied (V : Type) where
  server : ℕ
  index : ℤ
  command : V
  deriving DecidableEq

/-- The commands of a history of messages. -/
def applied {V : Type} (history : List (ℕ × ApplyMsg V)) : List (Applied V) :=
  history.filterMap fun e ↦
    if e.2.commandValid then some ⟨e.1, e.2.commandIndex, e.2.command⟩ else none

namespace Checker

section Histories

variable {V : Type} {history past : List (ℕ × ApplyMsg V)} {e : ℕ × ApplyMsg V} {a : Applied V}

theorem applied_append (past later : List (ℕ × ApplyMsg V)) :
    applied (past ++ later) = applied past ++ applied later :=
  List.filterMap_append

theorem applied_cons_of_valid (h : e.2.commandValid = true) (history : List (ℕ × ApplyMsg V)) :
    applied (e :: history) = ⟨e.1, e.2.commandIndex, e.2.command⟩ :: applied history := by
  simp [applied, h]

theorem applied_singleton_of_not_valid (h : e.2.commandValid = false) : applied [e] = [] := by
  simp [applied, h]

/-- A command comes from a message of the history. -/
theorem exists_split_of_mem_applied (h : a ∈ applied history) :
    ∃ before e after, history = before ++ e :: after ∧ e.2.commandValid = true ∧
      a = ⟨e.1, e.2.commandIndex, e.2.command⟩ := by
  obtain ⟨e, he, ha⟩ := List.mem_filterMap.mp h
  split_ifs at ha with hvalid
  cases ha
  obtain ⟨before, after, rfl⟩ := List.append_of_mem he
  exact ⟨before, e, after, rfl, hvalid, rfl⟩

/-- Every message has the command that its index had before. -/
def Consistent (history : List (ℕ × ApplyMsg V)) : Prop :=
  ∀ before e after, history = before ++ e :: after → e.2.commandValid = true →
    ∀ a ∈ applied before, a.index = e.2.commandIndex → a.command = e.2.command

/-- To look at what came before is enough to know that no index has two commands. -/
theorem consistent_iff : Consistent history ↔
    ∀ a ∈ applied history, ∀ b ∈ applied history, a.index = b.index → a.command = b.command := by
  constructor
  · intro h a ha b hb hindex
    obtain ⟨before, e, after, rfl, hvalid, rfl⟩ := exists_split_of_mem_applied hb
    rw [applied_append, applied_cons_of_valid hvalid] at ha
    rcases List.mem_append.mp ha with ha | ha
    · exact h before e after rfl hvalid a ha hindex
    · rcases List.mem_cons.mp ha with rfl | ha
      · rfl
      · obtain ⟨between, e', after', rfl, hvalid', rfl⟩ := exists_split_of_mem_applied ha
        symm
        refine h (before ++ e :: between) e' after' (by simp) hvalid'
          ⟨e.1, e.2.commandIndex, e.2.command⟩ ?_ hindex.symm
        rw [applied_append, applied_cons_of_valid hvalid]
        exact List.mem_append_right _ (List.mem_cons_self ..)
  · intro h before e after hsplit hvalid a ha hindex
    rw [hsplit, applied_append, applied_cons_of_valid hvalid] at h
    exact h a (List.mem_append_left _ ha) ⟨e.1, e.2.commandIndex, e.2.command⟩
      (List.mem_append_right _ (List.mem_cons_self ..)) hindex

end Histories

/-! ## The record of a history -/

section Record

variable {V : Type} {cfg : Checker V} {n : ℕ} {past : List (ℕ × ApplyMsg V)}

theorem entry_record {i : ℕ} (hi : i < cfg.logs.length) (index : ℤ) (v : V) (j : ℕ) (k : ℤ) :
    (cfg.record i index v).entry j k =
      if j = i ∧ k = index then some v else cfg.entry j k := by
  simp only [entry, record, List.getElem?_modify]
  by_cases hj : i = j
  · subst hj
    rw [List.getElem?_eq_getElem hi]
    by_cases hk : k = index <;> simp [hk]
  · cases cfg.logs[j]? <;> simp [hj, Ne.symm hj]

/-- The tester has recorded exactly the commands of a history. -/
structure Records (n : ℕ) (past : List (ℕ × ApplyMsg V)) (cfg : Checker V) : Prop where
  length_eq : cfg.logs.length = n
  entry_iff : ∀ i index v, cfg.entry i index = some v ↔ ⟨i, index, v⟩ ∈ applied past

/-- What has to hold of a message after those before it. -/
def Legal (n : ℕ) (past : List (ℕ × ApplyMsg V)) (e : ℕ × ApplyMsg V) : Prop :=
  e.1 < n ∧ (e.2.commandValid = true →
    (∀ a ∈ applied past, a.index = e.2.commandIndex → a.command = e.2.command) ∧
    (e.2.commandIndex > 1 → ∃ a ∈ applied past, a.server = e.1 ∧ a.index = e.2.commandIndex - 1))

theorem records_initial (n : ℕ) : Records n [] (initial n : Checker V) := by
  refine ⟨List.length_replicate, fun i index v ↦ ?_⟩
  simp only [applied, List.filterMap_nil, List.not_mem_nil, iff_false]
  intro h
  obtain ⟨log, hlog, hv⟩ := Option.bind_eq_some_iff.mp h
  have hmem := List.mem_of_getElem? hlog
  rw [(List.mem_replicate.mp hmem).2] at hv
  cases hv

variable [DecidableEq V]

/-- `checkLogs` finds no mismatch exactly if every server that has the index has the command. -/
theorem mismatch_eq_none_iff (i : ℕ) (m : ApplyMsg V) : cfg.mismatch i m = none ↔
    ∀ j old, cfg.entry j m.commandIndex = some old → old = m.command := by
  -- the loop forgets an error only for another one
  have hloop : ∀ (js : List ℕ) (err : Option (ApplyError V)),
      js.foldl (fun err j ↦
        match cfg.entry j m.commandIndex with
        | some old =>
          if old ≠ m.command then some (.mismatch m.commandIndex i m.command j old) else err
        | none => err) err = none ↔
      err = none ∧ ∀ j ∈ js, ∀ old, cfg.entry j m.commandIndex = some old → old = m.command := by
    intro js
    induction js with
    | nil => simp
    | cons j js ih =>
      intro err
      rw [List.foldl_cons, ih, List.forall_mem_cons, ← and_assoc]
      apply and_congr_left
      intro _
      cases hentry : cfg.entry j m.commandIndex with
      | none => simp
      | some old => by_cases hold : old = m.command <;> simp [hold]
  rw [mismatch, hloop]
  constructor
  · intro h j old hold
    apply h.2 j _ old hold
    obtain ⟨log, hlog, -⟩ := Option.bind_eq_some_iff.mp hold
    exact List.mem_range.mpr (List.getElem?_eq_some_iff.mp hlog).1
  · intro h
    exact ⟨rfl, fun j _ ↦ h j⟩

theorem verdict_eq_none_iff (cfg : Checker V) (i : ℕ) (m : ApplyMsg V) :
    (cfg.verdict i m).2 = none ↔ cfg.mismatch i m = none ∧
      (m.commandIndex > 1 → (cfg.entry i (m.commandIndex - 1)).isSome = true) := by
  have herror : (cfg.verdict i m).2 =
      if m.commandIndex > 1 ∧ (cfg.entry i (m.commandIndex - 1)).isSome = false then
        some (.outOfOrder i m.commandIndex)
      else cfg.mismatch i m := rfl
  rw [herror]
  by_cases hskip : m.commandIndex > 1 ∧ (cfg.entry i (m.commandIndex - 1)).isSome = false
  · rw [if_pos hskip]
    simp [hskip.1, hskip.2]
  · rw [if_neg hskip]
    refine ⟨fun h ↦ ⟨h, fun hgt ↦ ?_⟩, fun h ↦ h.1⟩
    exact Bool.eq_true_of_not_eq_false fun hnone ↦ hskip ⟨hgt, hnone⟩

theorem checker_step_eq_some {n : ℕ} {e : ℕ × ApplyMsg V} {next : Checker V} :
    (checker V n).step cfg e = some next ↔ e.1 < n ∧ cfg.applier e.1 e.2 = (next, none) := by
  simp only [checker]
  by_cases hn : e.1 < n
  · rw [if_pos hn]
    split
    · next heq => simp [hn, heq]
    · next heq => simp [heq]
  · simp [hn]

/-- The tester goes on with a valid command if it passes its checks. -/
theorem checker_step_of_valid {n : ℕ} {e : ℕ × ApplyMsg V} (hn : e.1 < n)
    (h : e.2.commandValid = true) :
    (checker V n).step cfg e =
      if cfg.mismatch e.1 e.2 = none ∧ (e.2.commandIndex > 1 →
          (cfg.entry e.1 (e.2.commandIndex - 1)).isSome = true) then
        some (cfg.record e.1 e.2.commandIndex e.2.command)
      else none := by
  have happlier : cfg.applier e.1 e.2 = cfg.verdict e.1 e.2 := by
    rw [applier, if_neg (by simp [h])]
  have hverdict := verdict_eq_none_iff cfg e.1 e.2
  ext next
  rw [checker_step_eq_some, happlier, Option.ite_none_right_eq_some, ← hverdict]
  constructor
  · rintro ⟨-, heq⟩
    rw [heq]
    exact ⟨rfl, congrArg (some ∘ Prod.fst) heq⟩
  · rintro ⟨hnone, heq⟩
    exact ⟨hn, Prod.ext (Option.some.inj heq) hnone⟩

theorem checker_step_of_not_valid {n : ℕ} {e : ℕ × ApplyMsg V} (hn : e.1 < n)
    (h : e.2.commandValid = false) : (checker V n).step cfg e = some cfg := by
  rw [checker_step_eq_some]
  exact ⟨hn, if_pos h⟩

/-- The checks of a command are those of the history that was recorded. -/
theorem checks_iff (hcfg : Records n past cfg) (i : ℕ) (m : ApplyMsg V) :
    (cfg.mismatch i m = none ∧
      (m.commandIndex > 1 → (cfg.entry i (m.commandIndex - 1)).isSome = true)) ↔
    (∀ a ∈ applied past, a.index = m.commandIndex → a.command = m.command) ∧
      (m.commandIndex > 1 → ∃ a ∈ applied past, a.server = i ∧ a.index = m.commandIndex - 1) := by
  rw [mismatch_eq_none_iff]
  apply and_congr
  · constructor
    · intro h a ha hindex
      apply h a.server a.command
      rw [← hindex]
      exact (hcfg.entry_iff a.server a.index a.command).mpr ha
    · intro h j old hold
      exact h _ ((hcfg.entry_iff j _ old).mp hold) rfl
  · apply imp_congr_right
    intro _
    constructor
    · intro h
      obtain ⟨v, hv⟩ := Option.isSome_iff_exists.mp h
      exact ⟨_, (hcfg.entry_iff i _ v).mp hv, rfl, rfl⟩
    · rintro ⟨a, ha, rfl, hindex⟩
      rw [← hindex, (hcfg.entry_iff a.server a.index a.command).mpr ha]
      rfl

theorem isSome_step_iff (hcfg : Records n past cfg) (e : ℕ × ApplyMsg V) :
    ((checker V n).step cfg e).isSome = true ↔ Legal n past e := by
  by_cases hn : e.1 < n
  · cases hvalid : e.2.commandValid with
    | false => simp [Legal, hn, hvalid, checker_step_of_not_valid hn hvalid]
    | true =>
      rw [Legal, checker_step_of_valid hn hvalid, ← checks_iff hcfg]
      simp [hn, hvalid]
  · simp [checker, Legal, hn]

theorem records_step (hcfg : Records n past cfg) {e : ℕ × ApplyMsg V} {next : Checker V}
    (h : (checker V n).step cfg e = some next) : Records n (past ++ [e]) next := by
  have hlegal := (isSome_step_iff hcfg e).mp (by rw [h]; rfl)
  have hn := hlegal.1
  cases hvalid : e.2.commandValid with
  | false =>
    rw [checker_step_of_not_valid hn hvalid] at h
    cases h
    refine ⟨hcfg.length_eq, fun i index v ↦ ?_⟩
    rw [applied_append, applied_singleton_of_not_valid hvalid, List.append_nil]
    exact hcfg.entry_iff i index v
  | true =>
    rw [checker_step_of_valid hn hvalid] at h
    split_ifs at h with hchecks
    cases h
    have hi : e.1 < cfg.logs.length := hcfg.length_eq ▸ hn
    refine ⟨by simpa [record] using hcfg.length_eq, fun i index v ↦ ?_⟩
    rw [entry_record hi, applied_append, applied_cons_of_valid hvalid, List.mem_append,
      ← hcfg.entry_iff i index v]
    by_cases hnew : i = e.1 ∧ index = e.2.commandIndex
    · obtain ⟨rfl, rfl⟩ := hnew
      have hold : cfg.entry e.1 e.2.commandIndex = some v → v = e.2.command := by
        intro hv
        exact (hlegal.2 hvalid).1 _ ((hcfg.entry_iff _ _ v).mp hv) rfl
      simp only [and_self, if_true, Option.some.injEq, List.mem_singleton, Applied.mk.injEq,
        true_and, applied, List.filterMap_nil]
      constructor
      · exact fun heq ↦ Or.inr heq.symm
      · rintro (hv | rfl)
        · exact (hold hv).symm
        · rfl
    · rw [if_neg hnew]
      simp only [List.mem_singleton, Applied.mk.injEq, applied, List.filterMap_nil]
      constructor
      · exact Or.inl
      · rintro (hv | ⟨rfl, rfl, -⟩)
        · exact hv
        · exact absurd ⟨rfl, rfl⟩ hnew

theorem accepts_iff_legal (n : ℕ) (history : List (ℕ × ApplyMsg V)) :
    ((checker V n).run (checker V n).init history).isSome = true ↔
      ∀ before e after, history = before ++ e :: after → Legal n before e :=
  Machine.run_isSome_iff (R := Records n) (fun _ _ e hcfg ↦ isSome_step_iff hcfg e)
    (fun _ _ _ _ hcfg h ↦ records_step hcfg h) (records_initial n)

/-- **The tester is exact.** It accepts a history of messages, in any interleaving, if and only if
no index is given two commands, by whichever servers, and no server applies an index above 1 without
having applied the one before. -/
theorem checker_accepts_iff (n : ℕ) (history : List (ℕ × ApplyMsg V)) :
    ((checker V n).run (checker V n).init history).isSome = true ↔
      (∀ e ∈ history, e.1 < n) ∧
      (∀ a ∈ applied history, ∀ b ∈ applied history, a.index = b.index → a.command = b.command) ∧
      ∀ before e after, history = before ++ e :: after → e.2.commandValid = true →
        e.2.commandIndex > 1 →
          ∃ a ∈ applied before, a.server = e.1 ∧ a.index = e.2.commandIndex - 1 := by
  rw [accepts_iff_legal, ← consistent_iff]
  constructor
  · intro h
    refine ⟨fun e he ↦ ?_, fun before e after hsplit hvalid ↦ ?_,
      fun before e after hsplit hvalid ↦ ?_⟩
    · obtain ⟨before, after, hsplit⟩ := List.append_of_mem he
      exact (h before e after hsplit).1
    · exact ((h before e after hsplit).2 hvalid).1
    · exact ((h before e after hsplit).2 hvalid).2
  · rintro ⟨hn, hconsistent, horder⟩ before e after hsplit
    refine ⟨hn e (by simp [hsplit]), fun hvalid ↦ ⟨?_, ?_⟩⟩
    · exact hconsistent before e after hsplit hvalid
    · exact horder before e after hsplit hvalid

theorem records_of_run {n : ℕ} {history : List (ℕ × ApplyMsg V)} {cfg : Checker V}
    (h : (checker V n).run (checker V n).init history = some cfg) : Records n history cfg := by
  have hrecords := Machine.remembers_of_run (R := Records n)
    (fun _ _ _ _ hcfg h ↦ records_step hcfg h) (records_initial n) h
  exact hrecords

/-- In a history that is accepted, no index has two commands. -/
theorem agree_of_run {n : ℕ} {history : List (ℕ × ApplyMsg V)} {cfg : Checker V}
    (h : (checker V n).run (checker V n).init history = some cfg) :
    ∀ a ∈ applied history, ∀ b ∈ applied history, a.index = b.index → a.command = b.command :=
  consistent_iff.mp fun before e after hsplit hvalid ↦
    (((accepts_iff_legal n history).mp (by rw [h]; rfl) before e after hsplit).2 hvalid).1

/-! ## Counting the servers that have committed an index -/

/-- Where no two servers differ, the loop of `nCommitted` counts those that have the index. -/
theorem nCommittedLoop_eq {index : ℤ} {v : V}
    (hv : ∀ i w, cfg.entry i index = some w → w = v) (servers : List ℕ) (count : ℕ) (cmd : V)
    (hcmd : count > 0 → cmd = v) :
    ∃ cmd', cfg.nCommittedLoop index servers (count, cmd) =
        some (count + servers.countP (fun i ↦ (cfg.entry i index).isSome), cmd') ∧
      (count + servers.countP (fun i ↦ (cfg.entry i index).isSome) > 0 → cmd' = v) := by
  induction servers generalizing count cmd with
  | nil => exact ⟨cmd, rfl, hcmd⟩
  | cons i rest ih =>
    cases hentry : cfg.entry i index with
    | none =>
      obtain ⟨cmd', hloop, hcmd'⟩ := ih count cmd hcmd
      refine ⟨cmd', ?_, ?_⟩
      · simpa [nCommittedLoop, hentry] using hloop
      · simpa [hentry] using hcmd'
    | some w =>
      have hw := hv i w hentry
      obtain ⟨cmd', hloop, hcmd'⟩ := ih (count + 1) w fun _ ↦ hw
      have hsame : ¬ (count > 0 ∧ cmd ≠ w) := fun hdiff ↦ hdiff.2 ((hcmd hdiff.1).trans hw.symm)
      refine ⟨cmd', ?_, ?_⟩
      · rw [nCommittedLoop, hentry]
        dsimp only
        rw [if_neg hsame, hloop]
        simp [hentry, Nat.add_assoc, Nat.add_comm]
      · intro _
        exact hcmd' (by omega)

/-- **Agreement.** In every state that the tester reaches, `nCommitted` finds no mismatch at any
index: it returns the number of servers that have applied it, and what all of them have applied. -/
theorem nCommitted_of_run [Inhabited V] {n : ℕ} {history : List (ℕ × ApplyMsg V)} {cfg : Checker V}
    (h : (checker V n).run (checker V n).init history = some cfg) (index : ℤ) :
    ∃ cmd, cfg.nCommitted index =
        some ((List.range n).countP fun i ↦
          decide (∃ a ∈ applied history, a.server = i ∧ a.index = index), cmd) ∧
      ∀ a ∈ applied history, a.index = index → cmd = a.command := by
  have hrecords := records_of_run h
  have hagree := agree_of_run h
  obtain ⟨v, hv⟩ : ∃ v, ∀ a ∈ applied history, a.index = index → a.command = v := by
    by_cases hsome : ∃ a ∈ applied history, a.index = index
    · obtain ⟨a, ha, hindex⟩ := hsome
      exact ⟨a.command, fun b hb hb' ↦ hagree b hb a ha (hb'.trans hindex.symm)⟩
    · exact ⟨default, fun a ha hindex ↦ absurd ⟨a, ha, hindex⟩ hsome⟩
  have hentry : ∀ i, (cfg.entry i index).isSome =
      decide (∃ a ∈ applied history, a.server = i ∧ a.index = index) := by
    intro i
    rw [Bool.eq_iff_iff, decide_eq_true_iff, Option.isSome_iff_exists]
    constructor
    · rintro ⟨w, hw⟩
      exact ⟨_, (hrecords.entry_iff i index w).mp hw, rfl, rfl⟩
    · rintro ⟨a, ha, rfl, rfl⟩
      exact ⟨a.command, (hrecords.entry_iff _ _ _).mpr ha⟩
  obtain ⟨cmd, hloop, hcmd⟩ := nCommittedLoop_eq
    (fun i w hw ↦ hv _ ((hrecords.entry_iff i index w).mp hw) rfl) (List.range n) 0 default
    fun hpos ↦ absurd hpos (Nat.lt_irrefl 0)
  simp only [hentry, Nat.zero_add] at hloop hcmd
  refine ⟨cmd, by rw [nCommitted, hrecords.length_eq, hloop], fun a ha hindex ↦ ?_⟩
  rw [hv a ha hindex]
  apply hcmd
  apply List.countP_pos_iff.mpr
  have hserver : a.server < n := by
    have hsome := (hrecords.entry_iff a.server a.index a.command).mpr ha
    obtain ⟨log, hlog, -⟩ := Option.bind_eq_some_iff.mp hsome
    exact hrecords.length_eq ▸ (List.getElem?_eq_some_iff.mp hlog).1
  exact ⟨a.server, List.mem_range.mpr hserver, decide_eq_true ⟨a, ha, rfl, hindex⟩⟩

/-- A message with a command. -/
def commandMsg {V : Type} (index : ℤ) (command : V) : ApplyMsg V :=
  ⟨true, command, index, false, .nil, 0⟩

/-- Two of three servers have applied index 2. -/
theorem nCommitted_of_run_sample :
    ∃ cfg, (checker ℕ 3).run (checker ℕ 3).init
        [(0, commandMsg 1 5), (2, commandMsg 1 5), (0, commandMsg 2 6), (2, commandMsg 2 6)] =
        some cfg ∧
      cfg.nCommitted 2 = some (2, 6) := by
  have hsome : ((checker ℕ 3).run (checker ℕ 3).init
      [(0, commandMsg 1 5), (2, commandMsg 1 5), (0, commandMsg 2 6), (2, commandMsg 2 6)]).isSome =
      true := by decide
  obtain ⟨cfg, hcfg⟩ := Option.isSome_iff_exists.mp hsome
  obtain ⟨cmd, hcommitted, hcmd⟩ := nCommitted_of_run hcfg 2
  obtain rfl : cmd = 6 := hcmd ⟨0, 2, 6⟩ (by decide) rfl
  exact ⟨cfg, hcfg, hcommitted.trans (by decide)⟩

end Record

end Checker

end DistKvRaft.Raft
