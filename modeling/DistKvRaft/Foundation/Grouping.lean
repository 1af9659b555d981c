import Mathlib.Data.List.Chain
import Mathlib.Data.List.TakeWhile
import Mathlib.Data.List.Sort
import Mathlib.Order.Defs.LinearOrder
import Mathlib.Tactic.Common

/-!
# Grouping a list into runs of equal keys

`runs` cuts a list into its maximal runs of neighbours with the same key.  Expanding the runs in
order gives the list back, and neighbouring runs have different keys.  On a list sorted by key
there is one run for each distinct key, the keys come in increasing order, and the run of a key
holds every element with that key.
-/

namespace DistKvRaft.Grouping

variable {α κ : Type*} [DecidableEq κ] (key : α → κ)

/-- The maximal runs of neighbours with equal keys, each with its key. -/
def runs : List α → List (κ × List α)
  | [] => []
  | x :: xs =>
    (key x, x :: xs.takeWhile fun y ↦ key y = key x) :: runs (xs.dropWhile fun y ↦ key y = key x)
termination_by xs => xs.length
decreasing_by exact Nat.lt_succ_of_le (List.length_dropWhile_le _ _)

@[simp]
theorem runs_nil : runs key [] = [] := by rw [runs]

theorem runs_cons (x : α) (xs : List α) :
    runs key (x :: xs) =
      (key x, x :: xs.takeWhile fun y ↦ key y = key x) ::
        runs key (xs.dropWhile fun y ↦ key y = key x) := by rw [runs]

/-- Expanding the runs in order gives the list back. -/
theorem flatMap_runs (xs : List α) : (runs key xs).flatMap Prod.snd = xs := by
  induction xs using runs.induct key with
  | case1 => simp
  | case2 x xs ih => rw [runs_cons, List.flatMap_cons, ih, List.cons_append,
      List.takeWhile_append_dropWhile]

/-- The elements of a run all carry its key, and no run is empty. -/
theorem key_of_mem_runs {xs : List α} {run : κ × List α} (h : run ∈ runs key xs) :
    run.2 ≠ [] ∧ ∀ y ∈ run.2, key y = run.1 := by
  induction xs using runs.induct key with
  | case1 => simp at h
  | case2 x xs ih =>
    rw [runs_cons] at h
    rcases List.mem_cons.mp h with rfl | h
    · refine ⟨by simp, fun y hy ↦ ?_⟩
      rcases List.mem_cons.mp hy with rfl | hy
      · rfl
      · simpa using List.mem_takeWhile_imp hy
    · exact ih h

/-- The keys of the runs are the keys of the elements. -/
theorem mem_keys_runs {xs : List α} {k : κ} :
    k ∈ (runs key xs).map Prod.fst ↔ ∃ x ∈ xs, key x = k := by
  constructor
  · intro h
    obtain ⟨run, hrun, rfl⟩ := List.mem_map.mp h
    obtain ⟨hne, hkey⟩ := key_of_mem_runs key hrun
    obtain ⟨y, hy⟩ := List.exists_mem_of_ne_nil _ hne
    refine ⟨y, ?_, hkey y hy⟩
    rw [← flatMap_runs key xs]
    exact List.mem_flatMap.mpr ⟨run, hrun, hy⟩
  · rintro ⟨x, hx, rfl⟩
    rw [← flatMap_runs key xs] at hx
    obtain ⟨run, hrun, hx⟩ := List.mem_flatMap.mp hx
    rw [(key_of_mem_runs key hrun).2 x hx]
    exact List.mem_map_of_mem hrun

/-- Neighbouring runs have different keys. -/
theorem isChain_keys_runs (xs : List α) : ((runs key xs).map Prod.fst).IsChain (· ≠ ·) := by
  induction xs using runs.induct key with
  | case1 => simp
  | case2 x xs ih =>
    rw [runs_cons, List.map_cons, List.isChain_cons]
    refine ⟨fun k hk ↦ ?_, ih⟩
    cases hdrop : xs.dropWhile fun y ↦ key y = key x with
    | nil => simp [hdrop] at hk
    | cons y ys =>
      have hy := List.head?_dropWhile_not (fun y ↦ decide (key y = key x)) xs
      rw [hdrop] at hy hk
      have hkey : key y = k := by simpa [runs_cons] using hk
      rw [← hkey]
      exact Ne.symm (by simpa using hy)

/-! ## Positions of the first run -/

theorem take_length_takeWhile (p : α → Bool) (xs : List α) :
    xs.take (xs.takeWhile p).length = xs.takeWhile p :=
  calc
    xs.take (xs.takeWhile p).length =
        (xs.takeWhile p ++ xs.dropWhile p).take (xs.takeWhile p).length := by
      rw [List.takeWhile_append_dropWhile]
    _ = xs.takeWhile p := List.take_left

theorem drop_length_takeWhile (p : α → Bool) (xs : List α) :
    xs.drop (xs.takeWhile p).length = xs.dropWhile p :=
  calc
    xs.drop (xs.takeWhile p).length =
        (xs.takeWhile p ++ xs.dropWhile p).drop (xs.takeWhile p).length := by
      rw [List.takeWhile_append_dropWhile]
    _ = xs.dropWhile p := List.drop_left

/-! ## Sorted lists -/

section Sorted

variable {α κ : Type*} [LinearOrder κ] [DecidableEq κ] (key : α → κ)

/-- Sorted by key, with any order among equal keys. -/
def SortedByKey (xs : List α) : Prop := xs.Pairwise fun a b ↦ key a ≤ key b

/-- In a sorted list the run at the head holds every element with its key. -/
theorem takeWhile_eq_filter {x : α} {xs : List α} (h : SortedByKey key (x :: xs)) :
    xs.takeWhile (fun y ↦ key y = key x) = xs.filter (fun y ↦ key y = key x) ∧
      xs.dropWhile (fun y ↦ key y = key x) = xs.filter (fun y ↦ key y ≠ key x) := by
  induction xs with
  | nil => simp
  | cons y ys ih =>
    rw [SortedByKey, List.pairwise_cons, List.pairwise_cons] at h
    obtain ⟨hx, hy, hys⟩ := h
    by_cases hkey : key y = key x
    · have hrest := ih (List.pairwise_cons.mpr ⟨fun z hz ↦ hx z (by simp [hz]), hys⟩)
      simp [hkey, hrest.1, hrest.2]
    · have hlt : key x < key y := lt_of_le_of_ne (hx y (by simp)) (Ne.symm hkey)
      have hne : ∀ z ∈ ys, key z ≠ key x := fun z hz ↦ (hlt.trans_le (hy z hz)).ne'
      have hnone : ys.filter (fun z ↦ key z = key x) = [] :=
        List.filter_eq_nil_iff.mpr fun z hz ↦ by simpa using hne z hz
      have hall : ys.filter (fun z ↦ key z ≠ key x) = ys :=
        List.filter_eq_self.mpr fun z hz ↦ by simpa using hne z hz
      simpa [hkey, hnone] using hall.symm

omit [DecidableEq κ] in
theorem sortedByKey_dropWhile {xs : List α} (h : SortedByKey key xs) (p : α → Bool) :
    SortedByKey key (xs.dropWhile p) :=
  List.Pairwise.sublist (List.dropWhile_sublist p) h

/-- The keys of the runs of a sorted list increase strictly. -/
theorem pairwise_keys_runs {xs : List α} (h : SortedByKey key xs) :
    ((runs key xs).map Prod.fst).Pairwise (· < ·) := by
  induction xs using runs.induct key with
  | case1 => simp
  | case2 x xs ih =>
    have htail := (List.pairwise_cons.mp h).2
    rw [runs_cons, List.map_cons, List.pairwise_cons]
    refine ⟨fun k hk ↦ ?_, ih (sortedByKey_dropWhile key htail _)⟩
    obtain ⟨y, hy, rfl⟩ := (mem_keys_runs key).mp hk
    rw [(takeWhile_eq_filter key h).2, List.mem_filter] at hy
    exact lt_of_le_of_ne ((List.pairwise_cons.mp h).1 y hy.1) (Ne.symm (by simpa using hy.2))

/-- The run of a key in a sorted list holds all elements with that key, in their order. -/
theorem run_eq_filter {xs : List α} (h : SortedByKey key xs) {run : κ × List α}
    (hrun : run ∈ runs key xs) : run.2 = xs.filter fun y ↦ key y = run.1 := by
  induction xs using runs.induct key with
  | case1 => simp at hrun
  | case2 x xs ih =>
    have htail := (List.pairwise_cons.mp h).2
    obtain ⟨htake, hdrop⟩ := takeWhile_eq_filter key h
    rw [runs_cons] at hrun
    rcases List.mem_cons.mp hrun with rfl | hrun
    · simp [htake]
    · have hkey : ∃ y ∈ xs.dropWhile (fun y ↦ key y = key x), key y = run.1 :=
        (mem_keys_runs key).mp (List.mem_map_of_mem hrun)
      obtain ⟨y, hy, hykey⟩ := hkey
      rw [hdrop, List.mem_filter] at hy
      have hne : key x ≠ run.1 := fun heq ↦ by simp [hykey, heq] at hy
      rw [ih (sortedByKey_dropWhile key htail _) hrun, hdrop, List.filter_filter,
        List.filter_cons_of_neg (by simpa using hne)]
      refine List.filter_congr fun z _ ↦ ?_
      by_cases hz : key z = run.1
      · simp [hz, hne.symm]
      · simp [hz]

end Sorted

end DistKvRaft.Grouping
