import DistKvRaft.MapReduce.Coordinator

/-!
# Calls to a worker

`callWorker` looks for a worker that answers a dial, drops those that do not from `worker_book`, and
then dials the one it found again, outside the lock, before it sends the request.  Crashes may come
at any time, so each dial and the request have outcomes of their own.

A failed second dial is fatal, whoever else is alive.  A failed request is not: the call returns
`false` and the monitor tries again later.
-/

namespace DistKvRaft.MapReduce.Coordinator

open Go

variable {c : Coordinator} {dials redials answers : ℕ → Bool} {visit : List (ℕ × GoString)}

/-- `callWorker` with the request itself: `answers` tells whose request succeeds.  The result is the
one of the source, and `none` where the coordinator ends in `log.Fatal`. -/
def callWorkerResult (c : Coordinator) (dials redials answers : ℕ → Bool)
    (visit : List (ℕ × GoString)) : Coordinator × Option Bool :=
  ((c.callWorker dials redials visit).1, (c.callWorker dials redials visit).2.map answers)

/-- Whoever comes first in the visit among those that answer the probing dial answers the second
dial. -/
def FirstAnswersAgain (dials redials : ℕ → Bool) (visit : List (ℕ × GoString)) : Prop :=
  ∀ before entry after, visit = before ++ entry :: after →
    (∀ other ∈ before, dials other.1 = false) → dials entry.1 = true → redials entry.1 = true

theorem dials_of_mem_probe {pid : ℕ} (h : pid ∈ (probe dials visit).2) : dials pid = false := by
  induction visit with
  | nil => cases h
  | cons entry visit ih =>
    rw [probe] at h
    split_ifs at h with hdial
    · cases h
    · rcases List.mem_cons.mp h with rfl | h
      · simpa using hdial
      · exact ih h

/-- Only workers whose dial failed are deleted. -/
theorem dials_of_deleted {entry : ℕ × GoString} (hentry : entry ∈ c.workerBook)
    (h : entry ∉ (c.callWorker dials redials visit).1.workerBook) : dials entry.1 = false := by
  have hmem : entry.1 ∈ (probe dials visit).2 := by
    by_contra hkept
    rw [callWorker_fst] at h
    exact h (List.mem_filter.mpr ⟨hentry, decide_eq_true hkept⟩)
  exact dials_of_mem_probe hmem

theorem find?_dials_eq_some_iff {entry : ℕ × GoString} :
    (visit.find? fun entry ↦ dials entry.1) = some entry ↔
      dials entry.1 = true ∧ ∃ before after, visit = before ++ entry :: after ∧
        ∀ other ∈ before, dials other.1 = false := by
  rw [List.find?_eq_some_iff_append]
  simp

theorem firstAnswersAgain_iff {entry : ℕ × GoString}
    (h : (visit.find? fun entry ↦ dials entry.1) = some entry) :
    FirstAnswersAgain dials redials visit ↔ redials entry.1 = true := by
  constructor
  · intro hagain
    obtain ⟨hdial, before, after, hsplit, hbefore⟩ := find?_dials_eq_some_iff.mp h
    exact hagain before entry after hsplit hbefore hdial
  · intro hredial before other after hsplit hbefore hdial
    have hother := find?_dials_eq_some_iff.mpr ⟨hdial, before, after, hsplit, hbefore⟩
    cases h.symm.trans hother
    exact hredial

/-- **Calls with a worker left.** For every `worker_book`, every order of the visit and every
outcome of the dials and of the request, with a registered worker that answers both dials: the call
does not end the coordinator and deletes only workers whose dial failed, if and only if the first
worker of the visit that answers the probing dial answers the second dial.  An empty address cannot
be dialled. -/
theorem callWorkerResult_survives_iff (c : Coordinator) (dials redials answers : ℕ → Bool)
    {visit : List (ℕ × GoString)} (hvisit : visit.Perm c.workerBook)
    (hempty : ∀ entry ∈ c.workerBook, entry.2 = [] → dials entry.1 = false)
    (halive : ∃ entry ∈ c.workerBook, dials entry.1 = true ∧ redials entry.1 = true) :
    ((c.callWorkerResult dials redials answers visit).2 ≠ none ∧
      ∀ entry ∈ c.workerBook,
        entry ∉ (c.callWorkerResult dials redials answers visit).1.workerBook →
          dials entry.1 = false) ↔
      FirstAnswersAgain dials redials visit := by
  obtain ⟨alive, halive, hdial, -⟩ := halive
  cases hfind : visit.find? (fun entry ↦ dials entry.1) with
  | none =>
    have hfailed := List.find?_eq_none.mp hfind alive (hvisit.mem_iff.mpr halive)
    exact absurd hdial hfailed
  | some entry =>
    have hentry := hvisit.mem_iff.mp (List.mem_of_find?_eq_some hfind)
    have haddr : entry.2 ≠ [] := by
      intro hnil
      have hfailed := hempty entry hentry hnil
      simp [(find?_dials_eq_some_iff.mp hfind).1] at hfailed
    have hresult : (c.callWorkerResult dials redials answers visit).2 ≠ none ↔
        redials entry.1 = true := by
      rw [callWorkerResult, callWorker_snd, hfind]
      simp [haddr]
    rw [hresult, firstAnswersAgain_iff hfind]
    constructor
    · exact fun h ↦ h.1
    · exact fun h ↦ ⟨h, fun _ ↦ dials_of_deleted⟩

/-- A coordinator with two registered workers. -/
def twoWorkers : Coordinator :=
  ((makeCoordinator [ascii "in"] 1).registerWorker 2 (workerSocket 2)).registerWorker 1
    (workerSocket 1)

/-- Worker `1` answers no dial and is deleted, worker `2` crashes during the request. -/
theorem callWorkerResult_survives_request :
    ((twoWorkers.callWorkerResult (fun pid ↦ pid = 2) (fun pid ↦ pid = 2) (fun _ ↦ false)
        twoWorkers.workerBook).2 ≠ none ∧
      ∀ entry ∈ twoWorkers.workerBook,
        entry ∉ (twoWorkers.callWorkerResult (fun pid ↦ pid = 2) (fun pid ↦ pid = 2)
          (fun _ ↦ false) twoWorkers.workerBook).1.workerBook → decide (entry.1 = 2) = false) ↔
      FirstAnswersAgain (fun pid ↦ pid = 2) (fun pid ↦ pid = 2) twoWorkers.workerBook :=
  callWorkerResult_survives_iff twoWorkers _ _ _ (List.Perm.refl _) (by decide) (by decide)

/-- Worker `1` answers the probing dial and crashes before the second one: the coordinator ends,
although worker `2` is alive all the time. -/
theorem callWorkerResult_fatal :
    (twoWorkers.callWorkerResult (fun _ ↦ true) (fun pid ↦ pid = 2) (fun pid ↦ pid = 2)
        twoWorkers.workerBook).2 = none ∧
      (2, workerSocket 2) ∈ twoWorkers.workerBook := by
  decide

end DistKvRaft.MapReduce.Coordinator
