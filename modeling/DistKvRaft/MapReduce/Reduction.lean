import DistKvRaft.Foundation.Lists
import DistKvRaft.MapReduce.Worker

/-!
# The groups of `perform_reduce`

The loops of `perform_reduce` as the source writes them, without a bound on the number of rounds:
`RunLoop` is the loop over `j` and `GroupLoop` the loop over `i`.  A derivation is a run that ends,
so `groupLoop_iff` says that the loops end and which calls of the reduce function they make.

Expanding the groups of these calls gives the input back.  On the sorted list of
`read_intermediates` there is one group for each key, and it holds all values of the key.
-/

namespace DistKvRaft.MapReduce

open Go FileStore

/-- The loop over `j`, from its first value to the one it ends with: `j` advances while it is inside
the list and the key at `j` is the given one. -/
inductive RunLoop (xs : List KeyValue) (key : GoString) : ℕ → ℕ → Prop
  | exit {j : ℕ} : (∀ kv, xs[j]? = some kv → kv.key ≠ key) → RunLoop xs key j j
  | next {j last : ℕ} {kv : KeyValue} : xs[j]? = some kv → kv.key = key →
      RunLoop xs key (j + 1) last → RunLoop xs key j last

/-- The loop over `i`, from a value of `i` on, with the arguments of its `reducef` calls. -/
inductive GroupLoop (xs : List KeyValue) : ℕ → List (GoString × List GoString) → Prop
  | exit {i : ℕ} : xs.length ≤ i → GroupLoop xs i []
  | next {i j : ℕ} {kv : KeyValue} {calls : List (GoString × List GoString)} : xs[i]? = some kv →
      RunLoop xs kv.key (i + 1) j → GroupLoop xs j calls →
      GroupLoop xs i ((kv.key, collectValues xs i j) :: calls)

variable {xs : List KeyValue}

/-! ## The loops end -/

theorem runLoop_runEnd (key : GoString) {n j : ℕ} (hn : xs.length - j ≤ n) :
    RunLoop xs key j (runEnd xs key n j) := by
  induction n generalizing j with
  | zero =>
    apply RunLoop.exit
    intro kv hkv
    have hlt := (List.getElem?_eq_some_iff.mp hkv).1
    omega
  | succ n ih =>
    rw [runEnd]
    split_ifs with hkey
    · cases hget : xs[j]? with
      | none => simp [hget] at hkey
      | some kv =>
        have hkv : kv.key = key := by simpa [hget] using hkey
        exact RunLoop.next hget hkv (ih (by omega))
    · apply RunLoop.exit
      intro kv hkv heq
      simp [hkv, heq] at hkey

theorem RunLoop.unique {key : GoString} {j last last' : ℕ} (h : RunLoop xs key j last)
    (h' : RunLoop xs key j last') : last = last' := by
  induction h with
  | exit hexit =>
    cases h' with
    | exit => rfl
    | next hget hkey => exact absurd hkey (hexit _ hget)
  | next hget hkey _ ih =>
    cases h' with
    | exit hexit => exact absurd hkey (hexit _ hget)
    | next _ _ hrest => exact ih hrest

theorem groupLoop_reduceLoop {n i : ℕ} (hn : xs.length - i ≤ n) :
    GroupLoop xs i (reduceLoop xs n i) := by
  induction n generalizing i with
  | zero => exact GroupLoop.exit (by omega)
  | succ n ih =>
    rw [reduceLoop]
    cases hget : xs[i]? with
    | none => exact GroupLoop.exit (List.getElem?_eq_none_iff.mp hget)
    | some kv =>
      have hend := runEnd_eq xs kv.key (n := xs.length) (j := i + 1) (by omega)
      exact GroupLoop.next hget (runLoop_runEnd kv.key (by omega)) (ih (by omega))

theorem GroupLoop.unique {i : ℕ} {calls calls' : List (GoString × List GoString)}
    (h : GroupLoop xs i calls) (h' : GroupLoop xs i calls') : calls = calls' := by
  induction h generalizing calls' with
  | exit hexit =>
    cases h' with
    | exit => rfl
    | next hget => exact absurd (List.getElem?_eq_some_iff.mp hget).1 (by omega)
  | next hget hrun _ ih =>
    cases h' with
    | exit hexit => exact absurd (List.getElem?_eq_some_iff.mp hget).1 (by omega)
    | next hget' hrun' hrest =>
      cases hget.symm.trans hget'
      cases hrun.unique hrun'
      rw [ih hrest]

/-- The loops end, with the calls that `reduceCalls` computes. -/
theorem groupLoop_iff (calls : List (GoString × List GoString)) :
    GroupLoop xs 0 calls ↔ calls = reduceCalls xs := by
  have hloop : GroupLoop xs 0 (reduceCalls xs) := groupLoop_reduceLoop (by omega)
  constructor
  · exact fun h ↦ h.unique hloop
  · intro h
    rw [h]
    exact hloop

/-! ## The groups of a list -/

/-- A group written out as pairs again. -/
def expandCall (call : GoString × List GoString) : List KeyValue := call.2.map (KeyValue.mk call.1)

theorem expand_run {run : GoString × List KeyValue} (h : ∀ kv ∈ run.2, kv.key = run.1) :
    expandCall (run.1, run.2.map KeyValue.value) = run.2 := by
  rw [expandCall, List.map_map]
  have hback : ∀ kv ∈ run.2, (KeyValue.mk run.1 ∘ KeyValue.value) kv = kv := by
    intro kv hkv
    rw [Function.comp_apply, ← h kv hkv]
  exact (List.map_congr_left hback).trans (List.map_id _)

/-- Expanding the groups in order gives the list back. -/
theorem flatMap_expandCall (xs : List KeyValue) : (reduceCalls xs).flatMap expandCall = xs := by
  rw [reduceCalls_eq, List.flatMap_map]
  calc
    _ = (Grouping.runs KeyValue.key xs).flatMap Prod.snd :=
      List.flatMap_congr fun run hrun ↦ expand_run (Grouping.key_of_mem_runs _ hrun).2
    _ = xs := Grouping.flatMap_runs KeyValue.key xs

theorem ne_nil_of_mem_reduceCalls {call : GoString × List GoString} (h : call ∈ reduceCalls xs) :
    call.2 ≠ [] := by
  rw [reduceCalls_eq] at h
  obtain ⟨run, hrun, rfl⟩ := List.mem_map.mp h
  simpa using (Grouping.key_of_mem_runs KeyValue.key hrun).1

/-! ## The groups of a sorted list -/

/-- The only call for a key of the list has all values of the key. -/
theorem filter_reduceCalls (hsorted : Grouping.SortedByKey KeyValue.key xs) {kv : KeyValue}
    (h : kv ∈ xs) :
    (reduceCalls xs).filter (fun call ↦ call.1 = kv.key) =
      [(kv.key, (xs.filter fun other ↦ other.key = kv.key).map KeyValue.value)] := by
  have hmem : kv.key ∈ (reduceCalls xs).map Prod.fst := mem_keys_reduceCalls.mpr ⟨kv, h, rfl⟩
  obtain ⟨call, hcall, hkey⟩ := List.mem_map.mp hmem
  have hnodup : ((reduceCalls xs).map Prod.fst).Nodup :=
    (pairwise_keys_reduceCalls hsorted).imp fun hlt ↦ hlt.ne
  rw [← hkey, Lists.filter_key_eq_singleton hnodup hcall]
  congr 1
  exact Prod.ext rfl (values_of_mem_reduceCalls hsorted hcall)

/-- **Grouping without loss.** For every list and reduce function the nested loops end; the groups
they reduce expand to the list in order, none is empty, neighbouring ones have different keys, and
the output has for each, in order, the key, a space, the reduced value and a newline.  Where no key
and no reduced value has a newline, these are the lines of the output.  On the result of
`read_intermediates` the keys of the groups increase strictly, and each key of the list is reduced
exactly once, with all its values. -/
theorem performReduce_groups (reducef : GoString → List GoString → GoString) (xs : List KeyValue)
    (ofileName : GoString) (d : Dir) :
    (∀ calls, GroupLoop xs 0 calls ↔ calls = reduceCalls xs) ∧
    (reduceCalls xs).flatMap expandCall = xs ∧
    (∀ call ∈ reduceCalls xs, call.2 ≠ []) ∧
    ((reduceCalls xs).map Prod.fst).IsChain (· ≠ ·) ∧
    (∃ content, performReduce reducef xs ofileName d ofileName = some content ∧
      content = ((reduceCalls xs).flatMap fun call ↦
        call.1 ++ 0x20 :: reducef call.1 call.2 ++ [0x0A]) ∧
      ((∀ call ∈ reduceCalls xs, 0x0A ∉ call.1 ∧ 0x0A ∉ reducef call.1 call.2) →
        content.splitOn 0x0A =
          ((reduceCalls xs).map fun call ↦ call.1 ++ 0x20 :: reducef call.1 call.2) ++ [[]])) ∧
    ∀ sorting openFails filenames dir,
      ((reduceCalls (readIntermediates sorting openFails filenames dir)).map Prod.fst).Pairwise
        (· < ·) ∧
      ∀ kv ∈ readIntermediates sorting openFails filenames dir,
        (reduceCalls (readIntermediates sorting openFails filenames dir)).filter
            (fun call ↦ call.1 = kv.key) =
          [(kv.key, ((readIntermediates sorting openFails filenames dir).filter
            fun other ↦ other.key = kv.key).map KeyValue.value)] := by
  refine ⟨groupLoop_iff, flatMap_expandCall xs, fun _ ↦ ne_nil_of_mem_reduceCalls, ?_, ?_, ?_⟩
  · rw [keys_reduceCalls]
    exact Grouping.isChain_keys_runs KeyValue.key xs
  · refine ⟨_, performReduce_file reducef xs ofileName d, rfl, fun hnewline ↦ ?_⟩
    let lines := (reduceCalls xs).map fun call ↦ (call.1, reducef call.1 call.2)
    have hlines : ∀ line ∈ lines, 0x0A ∉ line.1 ∧ 0x0A ∉ line.2 :=
      List.forall_mem_map.mpr hnewline
    have hsplit := splitOn_lines hlines
    rwa [List.flatMap_map, List.map_map] at hsplit
  · intro sorting openFails filenames dir
    have hsorted := sorting.sortedByKey (readLoop openFails dir 0 filenames)
    exact ⟨pairwise_keys_reduceCalls hsorted, fun _ ↦ filter_reduceCalls hsorted⟩

end DistKvRaft.MapReduce
