import DistKvRaft.MapReduce.Reduction

/-!
# The partition by key

A map task chooses the bucket of a pair from the key before it is encoded; a reduce task groups by
the key after it is decoded.  The encoder replaces each byte that is not valid UTF-8 by U+FFFD, so
the two keys differ where a key has such bytes.

`KeyPartition` says what the reduce side relies on.  It holds exactly when the replacement moves no
emitted key to another bucket and makes no two emitted keys equal, which all valid keys satisfy.
-/

namespace DistKvRaft.MapReduce

open Go FileStore

/-- The map tasks, given by number and emitted pairs, write their buckets one after the other. -/
def storeAll (nReduce : ℕ) (tasks : List (ℕ × List KeyValue)) (d : Dir) : Dir :=
  tasks.foldl (fun d task ↦ bucketByIntermediateKey .none task.2 task.1 nReduce d) d

/-- What reduce task `r` then reads. -/
def readStored (sorting : ByKeySort) (nReduce : ℕ) (tasks : List (ℕ × List KeyValue)) (d : Dir)
    (r : ℕ) : List KeyValue :=
  readIntermediates sorting (fun _ ↦ false) (tasks.map fun task ↦ intermediateName task.1 r)
    (storeAll nReduce tasks d)

/-- One reduce task: read the files of its bucket and write its output file. -/
def reduceStored (sorting : ByKeySort) (reducef : GoString → List GoString → GoString)
    (tasks : List (ℕ × List KeyValue)) (d : Dir) (r : ℕ) : Dir :=
  performReduce reducef
    (readIntermediates sorting (fun _ ↦ false) (tasks.map fun task ↦ intermediateName task.1 r) d)
    (outName r) d

/-- The map tasks and then all reduce tasks, one after the other. -/
def reduceAll (sorting : ByKeySort) (reducef : GoString → List GoString → GoString) (nReduce : ℕ)
    (tasks : List (ℕ × List KeyValue)) (d : Dir) : Dir :=
  (List.range nReduce).foldl (reduceStored sorting reducef tasks) (storeAll nReduce tasks d)

/-- The pairs that the reduce tasks read are partitioned by key: each is in the bucket of its key as
it was read, and pairs emitted with different keys are read back with different keys.  The output
files are made of lines, one for each key that was read; over all files there is no second line for
a key, and there are as many lines as emitted keys. -/
structure KeyPartition (nReduce : ℕ) (emitted : List KeyValue) (read : ℕ → List KeyValue)
    (out : ℕ → Option GoString) : Prop where
  bucket_eq : ∀ r < nReduce, ∀ kv ∈ read r, ihash kv.key % nReduce = r
  keys_ne : ∀ kv ∈ emitted, ∀ kv' ∈ emitted, kv.key ≠ kv'.key →
    ∀ back ∈ decodeAll (encodeKeyValue kv), ∀ back' ∈ decodeAll (encodeKeyValue kv'),
      back.key ≠ back'.key
  output : ∃ lines : ℕ → List (GoString × GoString),
    (∀ r < nReduce,
      out r = some ((lines r).flatMap fun line ↦ line.1 ++ 0x20 :: line.2 ++ [0x0A]) ∧
      ∀ key, key ∈ (lines r).map Prod.fst ↔ ∃ kv ∈ read r, kv.key = key) ∧
    ((List.range nReduce).flatMap fun r ↦ (lines r).map Prod.fst).Nodup ∧
    ((List.range nReduce).flatMap lines).length = (emitted.map KeyValue.key).dedup.length

/-- Replacing the invalid bytes of the emitted keys moves none of them to another bucket and makes
no two of them equal. -/
structure KeepsKeys (nReduce : ℕ) (emitted : List KeyValue) : Prop where
  bucket_eq : ∀ kv ∈ emitted, bucket nReduce (Utf8.toValid kv.key) = bucket nReduce kv.key
  injective : ∀ kv ∈ emitted, ∀ kv' ∈ emitted,
    Utf8.toValid kv.key = Utf8.toValid kv'.key → kv.key = kv'.key

theorem decodeAll_encodeKeyValue (kv : KeyValue) :
    decodeAll (encodeKeyValue kv) = [kv.toValid] := by
  simpa using decodeAll_flatMap [kv]

/-! ## What the reduce tasks read -/

section Stored

variable {nReduce : ℕ} {tasks : List (ℕ × List KeyValue)} {d : Dir}

theorem storeAll_cons (task : ℕ × List KeyValue) :
    storeAll nReduce (task :: tasks) d =
      storeAll nReduce tasks (bucketByIntermediateKey .none task.2 task.1 nReduce d) := rfl

theorem storeAll_frame {name : GoString}
    (hname : ∀ task ∈ tasks, ∀ b, name ≠ intermediateName task.1 b) :
    storeAll nReduce tasks d name = d name := by
  induction tasks generalizing d with
  | nil => rfl
  | cons task tasks ih =>
    rw [storeAll_cons, ih fun other hother ↦ hname other (List.mem_cons_of_mem _ hother)]
    apply (bucketByIntermediateKey_spec task.2 task.1 nReduce d).2
    exact hname task (List.mem_cons_self ..)

/-- The file of a bucket holds the records of its task. -/
theorem storeAll_file (hids : (tasks.map Prod.fst).Nodup) {task : ℕ × List KeyValue}
    (htask : task ∈ tasks) (b : ℕ) :
    storeAll nReduce tasks d (intermediateName task.1 b) =
      if bucketPairs nReduce b task.2 = [] then d (intermediateName task.1 b)
      else some (bucketBytes nReduce b task.2) := by
  induction tasks generalizing d with
  | nil => cases htask
  | cons first tasks ih =>
    rw [List.map_cons, List.nodup_cons] at hids
    obtain ⟨hown, hframe⟩ := bucketByIntermediateKey_spec first.2 first.1 nReduce d
    rw [storeAll_cons]
    rcases List.mem_cons.mp htask with rfl | htask
    · rw [← hown b]
      apply storeAll_frame
      intro other hother b' heq
      exact hids.1 ((intermediateName_inj heq).1 ▸ List.mem_map_of_mem hother)
    · have hne : ∀ b', intermediateName task.1 b ≠ intermediateName first.1 b' := by
        intro b' heq
        exact hids.1 ((intermediateName_inj heq).1 ▸ List.mem_map_of_mem htask)
      rw [← hframe _ hne]
      exact ih hids.2 htask

/-- A reduce task reads the pairs of its bucket with their invalid bytes replaced. -/
theorem readStored_perm (sorting : ByKeySort) (hids : (tasks.map Prod.fst).Nodup) {r : ℕ}
    (hclean : ∀ task ∈ tasks, d (intermediateName task.1 r) = none) :
    (readStored sorting nReduce tasks d r).Perm
      ((bucketPairs nReduce r (tasks.flatMap Prod.snd)).map KeyValue.toValid) := by
  refine (sorting.perm _).trans (List.Perm.of_eq ?_)
  rw [readLoop_eq_flatMap, List.flatMap_map, bucketPairs, List.filter_flatMap, List.map_flatMap]
  refine List.flatMap_congr fun task htask ↦ ?_
  rw [storeAll_file hids htask]
  split_ifs with hempty
  · rw [hclean task htask]
    exact (congrArg (List.map KeyValue.toValid) hempty).symm
  · exact decodeAll_flatMap _

theorem reduceStored_frame (sorting : ByKeySort) (reducef : GoString → List GoString → GoString)
    {rs : List ℕ} {name : GoString} (hname : ∀ r ∈ rs, name ≠ outName r) :
    rs.foldl (reduceStored sorting reducef tasks) d name = d name := by
  induction rs generalizing d with
  | nil => rfl
  | cons r rs ih =>
    rw [List.foldl_cons, ih fun r' hr' ↦ hname r' (List.mem_cons_of_mem _ hr')]
    exact performReduce_frame _ _ (hname r (List.mem_cons_self ..)) d

/-- A reduce task reads what it would read before all other reduce tasks. -/
theorem readIntermediates_frame (sorting : ByKeySort)
    (reducef : GoString → List GoString → GoString) (rs : List ℕ) (r : ℕ) :
    readIntermediates sorting (fun _ ↦ false) (tasks.map fun task ↦ intermediateName task.1 r)
        (rs.foldl (reduceStored sorting reducef tasks) d) =
      readIntermediates sorting (fun _ ↦ false) (tasks.map fun task ↦ intermediateName task.1 r)
        d := by
  rw [readIntermediates, readIntermediates, readLoop_eq_flatMap, readLoop_eq_flatMap,
    List.flatMap_map, List.flatMap_map]
  congr 1
  refine List.flatMap_congr fun task _ ↦ ?_
  rw [reduceStored_frame sorting reducef fun r' _ ↦
    (outName_ne_intermediateName r' task.1 r).symm]

/-- The output file of a reduce task. -/
theorem reduceAll_file (sorting : ByKeySort) (reducef : GoString → List GoString → GoString)
    {r : ℕ} (hr : r < nReduce) :
    reduceAll sorting reducef nReduce tasks d (outName r) =
      some ((reduceCalls (readStored sorting nReduce tasks d r)).flatMap fun call ↦
        call.1 ++ 0x20 :: reducef call.1 call.2 ++ [0x0A]) := by
  obtain ⟨before, after, hrange⟩ := List.append_of_mem (List.mem_range.mpr hr)
  have hnodup := List.nodup_range (n := nReduce)
  rw [hrange, List.nodup_append, List.nodup_cons] at hnodup
  have hafter : ∀ r' ∈ after, outName r ≠ outName r' := by
    intro r' hr' heq
    exact hnodup.2.1.1 (outName_injective heq ▸ hr')
  rw [reduceAll, hrange, List.foldl_append, List.foldl_cons, reduceStored_frame _ _ hafter,
    reduceStored, performReduce_file, readIntermediates_frame]
  rfl

end Stored

/-! ## When the partition survives -/

section Partition

variable {nReduce : ℕ} {emitted : List KeyValue} {read : ℕ → List KeyValue}
  (hperm : ∀ r < nReduce,
    (read r).Perm ((bucketPairs nReduce r emitted).map KeyValue.toValid))
include hperm

theorem mem_read {r : ℕ} (hr : r < nReduce) {back : KeyValue} :
    back ∈ read r ↔ ∃ kv ∈ emitted, bucket nReduce kv.key = r ∧ kv.toValid = back := by
  rw [(hperm r hr).mem_iff]
  simp [bucketPairs, and_assoc]

theorem mem_keys_read {r : ℕ} (hr : r < nReduce) {key : GoString} :
    key ∈ (reduceCalls (read r)).map Prod.fst ↔
      ∃ kv ∈ emitted, bucket nReduce kv.key = r ∧ Utf8.toValid kv.key = key := by
  rw [mem_keys_reduceCalls]
  constructor
  · rintro ⟨back, hback, rfl⟩
    obtain ⟨kv, hkv, hbucket, rfl⟩ := (mem_read hperm hr).mp hback
    exact ⟨kv, hkv, hbucket, rfl⟩
  · rintro ⟨kv, hkv, hbucket, rfl⟩
    exact ⟨kv.toValid, (mem_read hperm hr).mpr ⟨kv, hkv, hbucket, rfl⟩, rfl⟩

theorem KeyPartition.keepsKeys (hpos : 0 < nReduce) {out : ℕ → Option GoString}
    (h : KeyPartition nReduce emitted read out) : KeepsKeys nReduce emitted where
  bucket_eq kv hkv := by
    have hlt := bucket_lt hpos kv.key
    exact h.bucket_eq _ hlt kv.toValid ((mem_read hperm hlt).mpr ⟨kv, hkv, rfl, rfl⟩)
  injective kv hkv kv' hkv' heq := by
    by_contra hne
    refine h.keys_ne kv hkv kv' hkv' hne kv.toValid ?_ kv'.toValid ?_ heq
    · rw [decodeAll_encodeKeyValue]
      exact List.mem_singleton_self _
    · rw [decodeAll_encodeKeyValue]
      exact List.mem_singleton_self _

variable (hsorted : ∀ r < nReduce, Grouping.SortedByKey KeyValue.key (read r))
include hsorted

/-- No key is on two lines. -/
theorem KeepsKeys.one_line (h : KeepsKeys nReduce emitted) :
    ((List.range nReduce).flatMap fun r ↦ (reduceCalls (read r)).map Prod.fst).Nodup := by
  apply Lists.nodup_flatMap_of_part (bucket nReduce) List.nodup_range
  · intro r hr
    have hincreasing := pairwise_keys_reduceCalls (hsorted r (List.mem_range.mp hr))
    exact hincreasing.imp fun hlt ↦ hlt.ne
  · intro r hr key hkey
    obtain ⟨kv, hkv, hbucket, rfl⟩ := (mem_keys_read hperm (List.mem_range.mp hr)).mp hkey
    rw [h.bucket_eq kv hkv, hbucket]

/-- There are as many lines as emitted keys. -/
theorem KeepsKeys.line_count (hpos : 0 < nReduce) (h : KeepsKeys nReduce emitted) :
    ((List.range nReduce).flatMap fun r ↦ (reduceCalls (read r)).map Prod.fst).length =
      (emitted.map KeyValue.key).dedup.length := by
  apply Lists.length_eq_length_dedup (h.one_line hperm hsorted)
  · intro x hx y hy
    obtain ⟨kv, hkv, rfl⟩ := List.mem_map.mp hx
    obtain ⟨kv', hkv', rfl⟩ := List.mem_map.mp hy
    exact h.injective kv hkv kv' hkv'
  · intro key
    rw [List.mem_flatMap]
    constructor
    · rintro ⟨r, hr, hkey⟩
      obtain ⟨kv, hkv, -, heq⟩ := (mem_keys_read hperm (List.mem_range.mp hr)).mp hkey
      exact ⟨kv.key, List.mem_map_of_mem hkv, heq⟩
    · rintro ⟨k, hk, heq⟩
      obtain ⟨kv, hkv, rfl⟩ := List.mem_map.mp hk
      have hlt := bucket_lt hpos kv.key
      exact ⟨_, List.mem_range.mpr hlt, (mem_keys_read hperm hlt).mpr ⟨kv, hkv, rfl, heq⟩⟩

theorem keyPartition_iff_keepsKeys (hpos : 0 < nReduce)
    {reducef : GoString → List GoString → GoString} {out : ℕ → Option GoString}
    (hout : ∀ r < nReduce, out r = some ((reduceCalls (read r)).flatMap fun call ↦
      call.1 ++ 0x20 :: reducef call.1 call.2 ++ [0x0A])) :
    KeyPartition nReduce emitted read out ↔ KeepsKeys nReduce emitted := by
  constructor
  · exact fun h ↦ h.keepsKeys hperm hpos
  · intro h
    let lines (r : ℕ) := (reduceCalls (read r)).map fun call ↦ (call.1, reducef call.1 call.2)
    have hkeys (r : ℕ) : (lines r).map Prod.fst = (reduceCalls (read r)).map Prod.fst := by
      rw [List.map_map]
      rfl
    refine ⟨fun r hr back hback ↦ ?_, fun kv hkv kv' hkv' hne back hback back' hback' heq ↦ ?_,
      lines, fun r hr ↦ ⟨?_, fun key ↦ ?_⟩, ?_, ?_⟩
    · obtain ⟨kv, hkv, hbucket, rfl⟩ := (mem_read hperm hr).mp hback
      exact (h.bucket_eq kv hkv).trans hbucket
    · rw [decodeAll_encodeKeyValue, List.mem_singleton] at hback hback'
      rw [hback, hback'] at heq
      exact hne (h.injective kv hkv kv' hkv' heq)
    · rw [hout r hr, List.flatMap_map]
    · rw [hkeys, mem_keys_reduceCalls]
    · simpa only [hkeys] using h.one_line hperm hsorted
    · have hcount := h.line_count hperm hsorted hpos
      simpa [List.length_flatMap, lines] using hcount

end Partition

/-- Valid keys keep their bucket and stay different. -/
theorem keepsKeys_of_valid {nReduce : ℕ} {emitted : List KeyValue}
    (h : ∀ kv ∈ emitted, Utf8.ValidString kv.key) : KeepsKeys nReduce emitted where
  bucket_eq kv hkv := by rw [Utf8.toValid_eq_self (h kv hkv)]
  injective kv hkv kv' hkv' heq := by
    rwa [Utf8.toValid_eq_self (h kv hkv), Utf8.toValid_eq_self (h kv' hkv')] at heq

/-- **The partition and the encoding.** For any map tasks with any pairs, written to a directory
without old files of these tasks: what the reduce tasks read and print is partitioned by key if and
only if replacing the invalid bytes of the emitted keys moves none of them to another bucket and
makes no two of them equal. -/
theorem readStored_keyPartition_iff (sorting : ByKeySort)
    (reducef : GoString → List GoString → GoString) {nReduce : ℕ} (hpos : 0 < nReduce)
    {tasks : List (ℕ × List KeyValue)} (hids : (tasks.map Prod.fst).Nodup) {d : Dir}
    (hclean : ∀ r < nReduce, ∀ task ∈ tasks, d (intermediateName task.1 r) = none) :
    KeyPartition nReduce (tasks.flatMap Prod.snd) (readStored sorting nReduce tasks d)
        (fun r ↦ reduceAll sorting reducef nReduce tasks d (outName r)) ↔
      KeepsKeys nReduce (tasks.flatMap Prod.snd) :=
  keyPartition_iff_keepsKeys (fun r hr ↦ readStored_perm sorting hids (hclean r hr))
    (fun _ _ ↦ sorting.sortedByKey _) hpos fun _ hr ↦ reduceAll_file sorting reducef hr

/-- Two tasks with valid keys, one of which both emit. -/
def validKeys : List (ℕ × List KeyValue) :=
  [(3, [⟨ascii "a", ascii "1"⟩, ⟨ascii "b", [0xFF]⟩]), (0, [⟨ascii "a", ascii "2"⟩])]

theorem validKeys_keyPartition :
    KeyPartition 2 (validKeys.flatMap Prod.snd) (readStored .insertion 2 validKeys fun _ ↦ none)
      fun r ↦ reduceAll .insertion (fun _ values ↦ values.flatten) 2 validKeys (fun _ ↦ none)
        (outName r) :=
  (readStored_keyPartition_iff .insertion (fun _ values ↦ values.flatten) (by decide)
    (by decide) fun _ _ _ _ ↦ rfl).mpr (keepsKeys_of_valid (by decide))

/-- Two pairs whose keys are different invalid bytes. -/
def invalidKeys : List KeyValue := [⟨[0xFF], ascii "1"⟩, ⟨[0xFE], ascii "2"⟩]

/-- The two bytes hash to different buckets, and both keys are read back as U+FFFD, which belongs to
the first one: reduce task `1` reads a key of bucket `0`. -/
theorem invalidKeys_not_keyPartition :
    ¬ KeyPartition 2 invalidKeys (readStored .insertion 2 [(0, invalidKeys)] fun _ ↦ none)
      fun r ↦ reduceAll .insertion (fun _ values ↦ values.flatten) 2 [(0, invalidKeys)]
        (fun _ ↦ none) (outName r) := by
  intro h
  have hread : ⟨[0xEF, 0xBF, 0xBD], ascii "2"⟩ ∈
      readStored .insertion 2 [(0, invalidKeys)] (fun _ ↦ none) 1 := by decide +kernel
  exact absurd (h.bucket_eq 1 (by decide) _ hread) (by decide)

end DistKvRaft.MapReduce
