import Mathlib.Data.List.Basic
import Mathlib.Tactic.Common

/-!
# Sinks that are opened late

Chunks are written to a sink one after the other.  The sink is opened at the first chunk whose
attempt to open it succeeds, and the chunks before that one are skipped.  A write may fail after
some of its bytes; the sink refuses every later chunk then.  Nobody is told.

`stored` is what ends up in the sink.  It is everything exactly when the first attempt to open it
succeeds and no write fails before its last byte or before the last chunk.
-/

namespace DistKvRaft.Sink

/-- One chunk with the outcome of the operations it may need: whether opening the sink fails, and
after how many bytes the write fails. -/
structure Attempt (Byte : Type*) where
  openFails : Bool
  bytes : List Byte
  fault : Option ℕ

variable {Byte : Type*}

/-- What is written to an open sink. -/
def written : List (Attempt Byte) → List Byte
  | [] => []
  | attempt :: attempts =>
    match attempt.fault with
    | none => attempt.bytes ++ written attempts
    | some count => attempt.bytes.take count

/-- What is stored in a sink that is not open yet, and `none` if it is never opened. -/
def stored : List (Attempt Byte) → Option (List Byte)
  | [] => none
  | attempt :: attempts =>
    if attempt.openFails then stored attempts else some (written (attempt :: attempts))

/-- All bytes of all chunks. -/
def total (attempts : List (Attempt Byte)) : List Byte := attempts.flatMap Attempt.bytes

/-- A write fails only behind the last byte of the last chunk. -/
def Intact (attempts : List (Attempt Byte)) : Prop :=
  ∀ front attempt back count, attempts = front ++ attempt :: back →
    attempt.fault = some count → attempt.bytes.length ≤ count ∧ back = []

variable {attempt : Attempt Byte} {attempts : List (Attempt Byte)}

theorem total_cons : total (attempt :: attempts) = attempt.bytes ++ total attempts := rfl

theorem length_written_le (attempts : List (Attempt Byte)) :
    (written attempts).length ≤ (total attempts).length := by
  induction attempts with
  | nil => exact Nat.le_refl _
  | cons attempt attempts ih =>
    rw [written, total_cons, List.length_append]
    cases attempt.fault with
    | none => simpa using ih
    | some count =>
      simp only [List.length_take]
      omega

theorem length_stored_le {content : List Byte} (h : stored attempts = some content) :
    content.length ≤ (total attempts).length := by
  induction attempts with
  | nil => cases h
  | cons attempt attempts ih =>
    rw [stored] at h
    split_ifs at h
    · have hle := ih h
      rw [total_cons, List.length_append]
      omega
    · cases h
      exact length_written_le _

theorem stored_eq_none_iff :
    stored attempts = none ↔ ∀ attempt ∈ attempts, attempt.openFails = true := by
  induction attempts with
  | nil => simp [stored]
  | cons attempt attempts ih =>
    rw [stored]
    cases hopen : attempt.openFails with
    | false => simp [hopen]
    | true => simp [hopen, ih]

theorem intact_cons_none (h : attempt.fault = none) :
    Intact (attempt :: attempts) ↔ Intact attempts := by
  constructor
  · intro hintact front other back count hsplit
    exact hintact (attempt :: front) other back count (by rw [hsplit, List.cons_append])
  · intro hintact front other back count hsplit hfault
    cases front with
    | nil =>
      cases hsplit
      simp [h] at hfault
    | cons first front =>
      cases hsplit
      exact hintact front other back count rfl hfault

theorem intact_cons_some {count : ℕ} (h : attempt.fault = some count) :
    Intact (attempt :: attempts) ↔ attempt.bytes.length ≤ count ∧ attempts = [] := by
  constructor
  · intro hintact
    exact hintact [] attempt attempts count rfl h
  · intro hlast front other back count' hsplit hfault
    rw [hlast.2] at hsplit
    cases front with
    | nil =>
      cases hsplit
      have hcount : count = count' := Option.some.inj (h.symm.trans hfault)
      exact ⟨hcount ▸ hlast.1, rfl⟩
    | cons first front => simp at hsplit

section Complete

variable (hne : ∀ attempt ∈ attempts, attempt.bytes ≠ [])
include hne

theorem total_eq_nil_iff : total attempts = [] ↔ attempts = [] := by
  constructor
  · intro h
    cases attempts with
    | nil => rfl
    | cons attempt attempts =>
      rw [total_cons, List.append_eq_nil_iff] at h
      exact absurd h.1 (hne attempt (List.mem_cons_self ..))
  · intro h
    rw [h]
    rfl

/-- Everything is written to an open sink exactly when no write fails too early. -/
theorem written_eq_total_iff : written attempts = total attempts ↔ Intact attempts := by
  induction attempts with
  | nil => exact iff_of_true rfl fun front attempt back count h ↦ by simp at h
  | cons attempt attempts ih =>
    have hrest : ∀ other ∈ attempts, other.bytes ≠ [] :=
      fun other hother ↦ hne other (List.mem_cons_of_mem _ hother)
    rw [written, total_cons]
    cases hfault : attempt.fault with
    | none =>
      dsimp only
      rw [intact_cons_none hfault, ← ih hrest, List.append_cancel_left_eq]
    | some count =>
      dsimp only
      rw [intact_cons_some hfault, ← total_eq_nil_iff hrest]
      constructor
      · intro h
        have hlength := congrArg List.length h
        rw [List.length_take, List.length_append] at hlength
        exact ⟨by omega, List.eq_nil_of_length_eq_zero (by omega)⟩
      · intro h
        rw [h.2, List.append_nil, List.take_of_length_le h.1]

/-- Everything is stored exactly when the first attempt opens the sink and no write fails too
early. -/
theorem stored_eq_total_iff (hsome : attempts ≠ []) :
    stored attempts = some (total attempts) ↔
      (∀ attempt ∈ attempts.head?, attempt.openFails = false) ∧ Intact attempts := by
  cases attempts with
  | nil => exact absurd rfl hsome
  | cons attempt attempts =>
    rw [stored, List.head?_cons]
    cases hopen : attempt.openFails with
    | false => simp [hopen, written_eq_total_iff hne]
    | true =>
      -- A skipped chunk is missing, whatever is stored later.
      have hmissing : stored attempts ≠ some (total (attempt :: attempts)) := by
        intro h
        have hle := length_stored_le h
        have hpos := List.length_pos_iff.mpr (hne attempt (List.mem_cons_self ..))
        rw [total_cons, List.length_append] at hle
        omega
      simp [hopen, hmissing]

end Complete

end DistKvRaft.Sink
