import DistKvRaft.MapReduce.Records
import DistKvRaft.Foundation.Grouping
import DistKvRaft.Foundation.Lists

/-!
# The file work of a MapReduce worker

The four functions a worker runs on files: `perform_map`, `bucket_by_intermediate_key`,
`read_intermediates` and `perform_reduce`.  Every file operation that the code lets fail without
stopping takes its outcome from a fault pattern; `Faults.none` is a run in which all of them
succeed.

`sort.Sort` is any sorting function for the order of `ByKey.Less`: it is documented to be unstable,
so nothing is said about the order of equal keys.
-/

namespace DistKvRaft.MapReduce

open Go FileStore

/-! ## Map side -/

/-- `perform_map`: the emitted pairs, and `none` where the worker ends in `log.Fatalf`. -/
def performMap (mapf : GoString → GoString → List KeyValue) (filename : GoString) (d : Dir) :
    Option (List KeyValue) :=
  (d filename).map (mapf filename)

/-- Outcomes of the file operations of `bucket_by_intermediate_key`, indexed by the loop counter:
whether the `OpenFile` of that iteration fails, and after how many bytes its `Encode` fails. -/
structure Faults where
  openFails : ℕ → Bool
  encodeFails : ℕ → Option ℕ

/-- Every file operation succeeds. -/
def Faults.none : Faults := ⟨fun _ ↦ false, fun _ ↦ .none⟩

/-- An open bucket file with its encoder, which refuses to write after a failed write. -/
structure Handle where
  offset : ℕ
  failed : Bool
  deriving DecidableEq

/-- The directory and the maps `fileHandles` and `encoderHandles`, which have the same keys. -/
structure BucketState where
  dir : Dir
  handles : ℕ → Option Handle

/-- Open the file of a bucket with truncation and attach a fresh encoder. -/
def openBucket (taskId b : ℕ) (st : BucketState) : BucketState :=
  ⟨create st.dir (intermediateName taskId b), Function.update st.handles b (some ⟨0, false⟩)⟩

/-- Write one record through the encoder of a bucket. -/
def encodePair (taskId b : ℕ) (fault : Option ℕ) (kv : KeyValue) (h : Handle) (st : BucketState) :
    BucketState :=
  if h.failed then st
  else
    let written := match fault with
      | none => encodeKeyValue kv
      | some count => (encodeKeyValue kv).take count
    ⟨writeAt st.dir (intermediateName taskId b) h.offset written,
      Function.update st.handles b (some ⟨h.offset + written.length, fault.isSome⟩)⟩

/-- One iteration of the bucket loop: the bucket is opened at its first pair, and a pair whose
bucket cannot be opened is skipped. -/
def bucketIteration (faults : Faults) (taskId nReduce i : ℕ) (kv : KeyValue) (st : BucketState) :
    BucketState :=
  let b := bucket nReduce kv.key
  match st.handles b with
  | some h => encodePair taskId b (faults.encodeFails i) kv h st
  | none =>
    if faults.openFails i then st
    else encodePair taskId b (faults.encodeFails i) kv ⟨0, false⟩ (openBucket taskId b st)

/-- The loop over the pairs, from loop counter `i` on. -/
def bucketLoop (faults : Faults) (taskId nReduce : ℕ) :
    ℕ → List KeyValue → BucketState → BucketState
  | _, [], st => st
  | i, kv :: kvs, st =>
    bucketLoop faults taskId nReduce (i + 1) kvs (bucketIteration faults taskId nReduce i kv st)

def bucketByIntermediateKey (faults : Faults) (kva : List KeyValue) (taskId nReduce : ℕ)
    (d : Dir) : Dir :=
  (bucketLoop faults taskId nReduce 0 kva ⟨d, fun _ ↦ none⟩).dir

/-! ## Reduce side -/

/-- A sorting function for `ByKey.Less`, not necessarily stable. -/
structure ByKeySort where
  sort : List KeyValue → List KeyValue
  perm : ∀ kva, (sort kva).Perm kva
  sorted : ∀ kva, (sort kva).Pairwise fun a b ↦ ¬ b.key < a.key

/-- Insertion sort by key. -/
def ByKeySort.insertion : ByKeySort where
  sort := List.insertionSort fun a b ↦ a.key ≤ b.key
  perm := List.perm_insertionSort _
  sorted kva := by
    have : Std.Total fun a b : KeyValue ↦ a.key ≤ b.key := ⟨fun a b ↦ le_total a.key b.key⟩
    have : IsTrans KeyValue fun a b ↦ a.key ≤ b.key := ⟨fun _ _ _ ↦ le_trans⟩
    exact (List.pairwise_insertionSort (fun a b : KeyValue ↦ a.key ≤ b.key) kva).imp not_lt.mpr

theorem ByKeySort.sortedByKey (sorting : ByKeySort) (kva : List KeyValue) :
    Grouping.SortedByKey KeyValue.key (sorting.sort kva) :=
  (sorting.sorted kva).imp fun h ↦ not_lt.mp h

/-- Read the listed files one after the other.  A file that cannot be opened contributes nothing,
like one that does not exist. -/
def readLoop (openFails : ℕ → Bool) (d : Dir) : ℕ → List GoString → List KeyValue
  | _, [] => []
  | i, name :: names =>
    (if openFails i then [] else ((d name).map decodeAll).getD []) ++
      readLoop openFails d (i + 1) names

def readIntermediates (sorting : ByKeySort) (openFails : ℕ → Bool) (filenames : List GoString)
    (d : Dir) : List KeyValue :=
  sorting.sort (readLoop openFails d 0 filenames)

/-- The inner loop over `j`: the end of the run of keys equal to that at `i`. -/
def runEnd (xs : List KeyValue) (key : GoString) : ℕ → ℕ → ℕ
  | 0, j => j
  | n + 1, j => if (xs[j]?).any (fun kv ↦ kv.key = key) then runEnd xs key n (j + 1) else j

/-- The inner loop over `k`: the values at positions `i` up to `j`. -/
def collectValues (xs : List KeyValue) (i j : ℕ) : List GoString :=
  (List.range' i (j - i)).flatMap fun k ↦ ((xs[k]?).map KeyValue.value).toList

/-- The outer loop over `i`: the arguments of the successive `reducef` calls. -/
def reduceLoop (xs : List KeyValue) : ℕ → ℕ → List (GoString × List GoString)
  | 0, _ => []
  | n + 1, i =>
    match xs[i]? with
    | none => []
    | some kv =>
      let j := runEnd xs kv.key xs.length (i + 1)
      (kv.key, collectValues xs i j) :: reduceLoop xs n j

/-- The arguments of all `reducef` calls of `perform_reduce`, in order. -/
def reduceCalls (intermediate : List KeyValue) : List (GoString × List GoString) :=
  reduceLoop intermediate intermediate.length 0

/-- `"%v %v\n"`. -/
def outputLine (key output : GoString) : GoString := key ++ 0x20 :: output ++ [0x0A]

/-- The lines written by `perform_reduce`, in order. -/
def reduceLines (reducef : GoString → List GoString → GoString) (intermediate : List KeyValue) :
    List GoString :=
  (reduceCalls intermediate).map fun call ↦ outputLine call.1 (reducef call.1 call.2)

def performReduce (reducef : GoString → List GoString → GoString) (intermediate : List KeyValue)
    (ofileName : GoString) (d : Dir) : Dir :=
  writeChunks (create d ofileName) ofileName 0 (reduceLines reducef intermediate)

/-! ## What the bucket loop writes -/

/-- The pairs of a list that belong to one bucket. -/
def bucketPairs (nReduce b : ℕ) (kva : List KeyValue) : List KeyValue :=
  kva.filter fun kv ↦ bucket nReduce kv.key = b

/-- The bytes written for one bucket. -/
def bucketBytes (nReduce b : ℕ) (kva : List KeyValue) : GoString :=
  (bucketPairs nReduce b kva).flatMap encodeKeyValue

theorem bucketPairs_cons (nReduce b : ℕ) (kv : KeyValue) (kva : List KeyValue) :
    bucketPairs nReduce b (kv :: kva) =
      if bucket nReduce kv.key = b then kv :: bucketPairs nReduce b kva
      else bucketPairs nReduce b kva := by
  simp [bucketPairs, List.filter_cons]

/-- Every open handle is intact and stands at the end of its file. -/
def BucketState.Synced (taskId : ℕ) (st : BucketState) : Prop :=
  ∀ b h, st.handles b = some h → h.failed = false ∧
    ∃ content, st.dir (intermediateName taskId b) = some content ∧ content.length = h.offset

/-- The content of the file of a bucket once the pairs `kva` are written from state `st` on.  A
bucket that is not open yet is only touched if some pair belongs to it. -/
def fileAfter (taskId nReduce b : ℕ) (kva : List KeyValue) (st : BucketState) : Option GoString :=
  if (st.handles b).isSome then
    (st.dir (intermediateName taskId b)).map fun content ↦ content ++ bucketBytes nReduce b kva
  else if bucketPairs nReduce b kva = [] then st.dir (intermediateName taskId b)
  else some (bucketBytes nReduce b kva)

section BucketLoop

variable {taskId nReduce : ℕ} {st : BucketState}

theorem intermediateName_ne {b b' : ℕ} (h : b' ≠ b) :
    intermediateName taskId b' ≠ intermediateName taskId b :=
  fun heq ↦ h (intermediateName_inj heq).2

theorem synced_openBucket (hst : st.Synced taskId) (b : ℕ) :
    (openBucket taskId b st).Synced taskId := by
  intro b' h hb'
  by_cases hbb : b' = b
  · subst hbb
    simp only [openBucket, Function.update_self, Option.some.injEq] at hb'
    subst hb'
    exact ⟨rfl, [], by simp [openBucket], rfl⟩
  · simp only [openBucket, Function.update_of_ne hbb] at hb'
    simp only [openBucket, create_of_ne _ (intermediateName_ne hbb)]
    exact hst b' h hb'

theorem synced_encodePair (hst : st.Synced taskId) {b : ℕ} {h : Handle}
    (hb : st.handles b = some h) (kv : KeyValue) :
    (encodePair taskId b none kv h st).Synced taskId := by
  obtain ⟨hfailed, content, hcontent, hlength⟩ := hst b h hb
  intro b' h' hb'
  simp only [encodePair, hfailed, Bool.false_eq_true, if_false] at hb' ⊢
  by_cases hbb : b' = b
  · subst hbb
    simp only [Function.update_self, Option.some.injEq] at hb'
    subst hb'
    refine ⟨rfl, content ++ encodeKeyValue kv, ?_, by simp [hlength]⟩
    rw [← hlength, writeAt_end _ _ hcontent]
  · rw [Function.update_of_ne hbb] at hb'
    rw [writeAt_of_ne _ (intermediateName_ne hbb)]
    exact hst b' h' hb'

/-- Opening a bucket that some coming pair belongs to does not change what is written. -/
theorem fileAfter_openBucket {b : ℕ} (hb : st.handles b = none) {kva : List KeyValue}
    (hkva : bucketPairs nReduce b kva ≠ []) (b' : ℕ) :
    fileAfter taskId nReduce b' kva (openBucket taskId b st) =
      fileAfter taskId nReduce b' kva st := by
  by_cases hbb : b' = b
  · subst hbb
    simp [fileAfter, openBucket, hb, hkva]
  · simp [fileAfter, openBucket, hbb, create_of_ne _ (intermediateName_ne hbb)]

/-- Writing the first of the coming pairs does not change what is written in the end. -/
theorem fileAfter_encodePair (hst : st.Synced taskId) {kv : KeyValue} {h : Handle}
    (hb : st.handles (bucket nReduce kv.key) = some h) (kva : List KeyValue) (b : ℕ) :
    fileAfter taskId nReduce b kva (encodePair taskId (bucket nReduce kv.key) none kv h st) =
      fileAfter taskId nReduce b (kv :: kva) st := by
  obtain ⟨hfailed, content, hcontent, hlength⟩ := hst _ h hb
  by_cases hbb : b = bucket nReduce kv.key
  · subst hbb
    simp only [fileAfter, encodePair, hfailed, Bool.false_eq_true, if_false, Function.update_self,
      Option.isSome_some, if_true, hb]
    rw [← hlength, writeAt_end _ _ hcontent, hcontent]
    simp [bucketBytes, bucketPairs_cons]
  · simp [fileAfter, encodePair, hfailed, hbb, writeAt_of_ne _ (intermediateName_ne hbb),
      bucketBytes, bucketPairs_cons, Ne.symm hbb]

/-- One iteration without faults writes its pair: it keeps the handles in step with their files
and the final content of every bucket. -/
theorem bucketIteration_spec (hst : st.Synced taskId) (i : ℕ) (kv : KeyValue)
    (kva : List KeyValue) :
    (bucketIteration .none taskId nReduce i kv st).Synced taskId ∧
      ∀ b, fileAfter taskId nReduce b kva (bucketIteration .none taskId nReduce i kv st) =
        fileAfter taskId nReduce b (kv :: kva) st := by
  unfold bucketIteration
  dsimp only
  split
  · next h hb => exact ⟨synced_encodePair hst hb kv, fileAfter_encodePair hst hb kva⟩
  · next hb =>
    have hopen := synced_openBucket hst (bucket nReduce kv.key)
    have hhandle : (openBucket taskId (bucket nReduce kv.key) st).handles
        (bucket nReduce kv.key) = some ⟨0, false⟩ := by simp [openBucket]
    simp only [Faults.none, Bool.false_eq_true, if_false]
    refine ⟨synced_encodePair hopen hhandle kv, fun b ↦ ?_⟩
    rw [fileAfter_encodePair hopen hhandle, fileAfter_openBucket hb]
    simp [bucketPairs_cons]

theorem bucketLoop_spec (hst : st.Synced taskId) (i : ℕ) (kva : List KeyValue) (b : ℕ) :
    (bucketLoop .none taskId nReduce i kva st).dir (intermediateName taskId b) =
      fileAfter taskId nReduce b kva st := by
  induction kva generalizing i st with
  | nil => cases h : st.dir (intermediateName taskId b) <;>
      simp [bucketLoop, fileAfter, bucketBytes, bucketPairs, h]
  | cons kv kva ih =>
    obtain ⟨hsynced, hfile⟩ := bucketIteration_spec hst i kv kva
    rw [bucketLoop, ih hsynced, hfile]

/-- The loop touches no file but those of its own task. -/
theorem bucketLoop_frame (faults : Faults) (i : ℕ) (kva : List KeyValue) {name : GoString}
    (hname : ∀ b, name ≠ intermediateName taskId b) :
    (bucketLoop faults taskId nReduce i kva st).dir name = st.dir name := by
  induction kva generalizing i st with
  | nil => rfl
  | cons kv kva ih =>
    have hencode (b : ℕ) (fault : Option ℕ) (h : Handle) (st : BucketState) :
        (encodePair taskId b fault kv h st).dir name = st.dir name := by
      unfold encodePair
      split
      · rfl
      · exact writeAt_of_ne _ (hname b) _ _
    rw [bucketLoop, ih]
    unfold bucketIteration
    dsimp only
    split
    · exact hencode _ _ _ _
    · split
      · rfl
      · rw [hencode]
        exact create_of_ne _ (hname _)

end BucketLoop

/-- **Bucket files.** Without faults, a map task leaves in the file of each bucket that some pair
belongs to exactly the records of that bucket, and changes no other file. -/
theorem bucketByIntermediateKey_spec (kva : List KeyValue) (taskId nReduce : ℕ) (d : Dir) :
    (∀ b, bucketByIntermediateKey .none kva taskId nReduce d (intermediateName taskId b) =
      if bucketPairs nReduce b kva = [] then d (intermediateName taskId b)
      else some (bucketBytes nReduce b kva)) ∧
    ∀ name, (∀ b, name ≠ intermediateName taskId b) →
      bucketByIntermediateKey .none kva taskId nReduce d name = d name := by
  refine ⟨fun b ↦ ?_, fun name hname ↦ bucketLoop_frame _ _ _ hname⟩
  have hsynced : BucketState.Synced taskId ⟨d, fun _ ↦ none⟩ := by
    intro b h hb
    cases hb
  rw [bucketByIntermediateKey, bucketLoop_spec hsynced]
  simp [fileAfter]

/-! ## What the reduce loops compute -/

section ReduceLoop

variable (xs : List KeyValue)

theorem runEnd_eq (key : GoString) {n j : ℕ} (hn : xs.length - j ≤ n) :
    runEnd xs key n j = j + ((xs.drop j).takeWhile fun kv ↦ kv.key = key).length := by
  induction n generalizing j with
  | zero => simp [runEnd, List.drop_eq_nil_of_le (by omega : xs.length ≤ j)]
  | succ n ih =>
    by_cases hj : j < xs.length
    · rw [runEnd, List.drop_eq_getElem_cons hj, List.getElem?_eq_getElem hj, Option.any_some]
      by_cases hkey : xs[j].key = key
      · rw [if_pos (by simpa using hkey), ih (by omega),
          List.takeWhile_cons_of_pos (by simpa using hkey), List.length_cons]
        omega
      · rw [if_neg (by simpa using hkey), List.takeWhile_cons_of_neg (by simpa using hkey)]
        rfl
    · simp [runEnd, List.drop_eq_nil_of_le (by omega : xs.length ≤ j),
        List.getElem?_eq_none (by omega : xs.length ≤ j)]

theorem collectValues_eq (i j : ℕ) :
    collectValues xs i j = ((xs.drop i).take (j - i)).map KeyValue.value := by
  unfold collectValues
  generalize j - i = count
  induction count generalizing i with
  | zero => simp
  | succ count ih =>
    rw [List.range'_succ, List.flatMap_cons, ih]
    by_cases hi : i < xs.length
    · rw [List.drop_eq_getElem_cons hi, List.take_succ_cons, List.getElem?_eq_getElem hi]
      simp
    · simp [List.drop_eq_nil_of_le (by omega : xs.length ≤ i),
        List.drop_eq_nil_of_le (by omega : xs.length ≤ i + 1),
        List.getElem?_eq_none (by omega : xs.length ≤ i)]

/-- The index loops visit the runs of the list from position `i` on. -/
theorem reduceLoop_eq {n i : ℕ} (hn : xs.length - i ≤ n) :
    reduceLoop xs n i = (Grouping.runs KeyValue.key (xs.drop i)).map fun run ↦
      (run.1, run.2.map KeyValue.value) := by
  induction n generalizing i with
  | zero => simp [reduceLoop, List.drop_eq_nil_of_le (by omega : xs.length ≤ i)]
  | succ n ih =>
    by_cases hi : i < xs.length
    · have hend := runEnd_eq xs xs[i].key (n := xs.length) (j := i + 1) (by omega)
      have hdrop : (xs.drop (i + 1)).dropWhile (fun kv ↦ kv.key = xs[i].key) =
          xs.drop (runEnd xs xs[i].key xs.length (i + 1)) := by
        rw [hend, ← Grouping.drop_length_takeWhile, List.drop_drop]
      have htake : (xs.drop i).take (runEnd xs xs[i].key xs.length (i + 1) - i) =
          xs[i] :: (xs.drop (i + 1)).takeWhile fun kv ↦ kv.key = xs[i].key := by
        rw [hend, List.drop_eq_getElem_cons hi, Nat.add_assoc, Nat.add_sub_cancel_left,
          Nat.add_comm 1, List.take_succ_cons, Grouping.take_length_takeWhile]
      rw [reduceLoop, List.getElem?_eq_getElem hi]
      dsimp only
      rw [ih (by omega), collectValues_eq, htake, List.drop_eq_getElem_cons hi, Grouping.runs_cons,
        List.map_cons, hdrop]
      rfl
    · simp [reduceLoop, List.drop_eq_nil_of_le (by omega : xs.length ≤ i),
        List.getElem?_eq_none (by omega : xs.length ≤ i)]

/-- `perform_reduce` calls the reduce function once for each run of equal keys. -/
theorem reduceCalls_eq :
    reduceCalls xs = (Grouping.runs KeyValue.key xs).map fun run ↦
      (run.1, run.2.map KeyValue.value) := by
  simpa [reduceCalls] using reduceLoop_eq xs (n := xs.length) (i := 0) (by omega)

theorem keys_reduceCalls :
    (reduceCalls xs).map Prod.fst = (Grouping.runs KeyValue.key xs).map Prod.fst := by
  rw [reduceCalls_eq, List.map_map]
  rfl

variable {xs}

theorem mem_keys_reduceCalls {key : GoString} :
    key ∈ (reduceCalls xs).map Prod.fst ↔ ∃ kv ∈ xs, kv.key = key := by
  rw [keys_reduceCalls, Grouping.mem_keys_runs]

/-- On a sorted list the calls are made in the order of their keys, one for each key. -/
theorem pairwise_keys_reduceCalls (hsorted : Grouping.SortedByKey KeyValue.key xs) :
    ((reduceCalls xs).map Prod.fst).Pairwise (· < ·) := by
  rw [keys_reduceCalls]
  exact Grouping.pairwise_keys_runs KeyValue.key hsorted

/-- On a sorted list a call has all values of its key. -/
theorem values_of_mem_reduceCalls (hsorted : Grouping.SortedByKey KeyValue.key xs)
    {call : GoString × List GoString} (h : call ∈ reduceCalls xs) :
    call.2 = (xs.filter fun kv ↦ kv.key = call.1).map KeyValue.value := by
  rw [reduceCalls_eq] at h
  obtain ⟨run, hrun, rfl⟩ := List.mem_map.mp h
  rw [Grouping.run_eq_filter KeyValue.key hsorted hrun]

end ReduceLoop

/-! ## What `perform_reduce` writes -/

/-- The output file has for each call the key, a space, the reduced value and a newline. -/
theorem performReduce_file (reducef : GoString → List GoString → GoString) (xs : List KeyValue)
    (ofileName : GoString) (d : Dir) :
    performReduce reducef xs ofileName d ofileName =
      some ((reduceCalls xs).flatMap fun call ↦
        call.1 ++ 0x20 :: reducef call.1 call.2 ++ [0x0A]) := by
  rw [performReduce, writeChunks_create, reduceLines, List.flatMap_def]
  rfl

theorem performReduce_frame (reducef : GoString → List GoString → GoString) (xs : List KeyValue)
    {ofileName name : GoString} (h : name ≠ ofileName) (d : Dir) :
    performReduce reducef xs ofileName d name = d name := by
  rw [performReduce, writeChunks_of_ne _ h, create_of_ne _ h]

/-- Where no key and no value has a newline, these are the lines of the text. -/
theorem splitOn_lines {lines : List (GoString × GoString)}
    (h : ∀ line ∈ lines, 0x0A ∉ line.1 ∧ 0x0A ∉ line.2) :
    (lines.flatMap fun line ↦ line.1 ++ 0x20 :: line.2 ++ [0x0A]).splitOn 0x0A =
      (lines.map fun line ↦ line.1 ++ 0x20 :: line.2) ++ [[]] := by
  rw [← Lists.splitOn_flatMap_concat, List.flatMap_map]
  intro text htext hmem
  obtain ⟨line, hline, rfl⟩ := List.mem_map.mp htext
  obtain ⟨hkey, hvalue⟩ := h line hline
  rcases List.mem_append.mp hmem with hmem | hmem
  · exact hkey hmem
  · rcases List.mem_cons.mp hmem with heq | hmem
    · exact absurd heq (by decide)
    · exact hvalue hmem

/-- Without open failures the records of the listed files are read in order. -/
theorem readLoop_eq_flatMap (d : Dir) (i : ℕ) (names : List GoString) :
    readLoop (fun _ ↦ false) d i names =
      names.flatMap fun name ↦ ((d name).map decodeAll).getD [] := by
  induction names generalizing i with
  | nil => rfl
  | cons name names ih => simp [readLoop, ih]

end DistKvRaft.MapReduce
