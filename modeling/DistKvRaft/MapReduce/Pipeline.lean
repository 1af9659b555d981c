import DistKvRaft.MapReduce.Worker
import DistKvRaft.Foundation.Machine

/-!
# The data path of a MapReduce job

A job is executed as a sequence of uninterrupted map and reduce executions.  `MapFiles` and
`Written` say what the directory holds while this goes on: the inputs never change, each
execution of a map task leaves the same files as its first one, and a bucket without pairs is
never touched.  From this every schedule that runs each map task before the first reduce task
produces the reference result: one line for each emitted key, in the file its hash selects, reduced
from all values emitted for the key.
-/

namespace DistKvRaft.MapReduce

open Go FileStore

/-- What the user gives: the input files, the two functions and the number of reduce tasks.  The
sorting function stands for `sort.Sort`. -/
structure Job where
  filenames : List GoString
  mapf : GoString → GoString → List KeyValue
  reducef : GoString → List GoString → GoString
  nReduce : ℕ
  sorting : ByKeySort

namespace Job

variable (job : Job)

/-- The file part of `map_exec` for a map task; `none` where the worker ends in `log.Fatalf` or in
a division by zero. -/
def mapExec (i : ℕ) (d : Dir) : Option Dir := do
  let filename ← job.filenames[i]?
  let kva ← performMap job.mapf filename d
  if kva ≠ [] ∧ job.nReduce = 0 then none
  else pure (bucketByIntermediateKey .none kva i job.nReduce d)

/-- The pairs that a reduce task reads. -/
def intermediates (r : ℕ) (d : Dir) : List KeyValue :=
  readIntermediates job.sorting (fun _ ↦ false) (reduceFiles job.filenames.length r) d

/-- The file part of `reduce_exec` for a reduce task. -/
def reduceExec (r : ℕ) (d : Dir) : Dir :=
  performReduce job.reducef (job.intermediates r d) (outName r) d

/-- The file part of one execution of a task. -/
def exec (d : Dir) : Task → Option Dir
  | .map i => job.mapExec i d
  | .reduce r => some (job.reduceExec r d)

/-- The executions of a job on its working directory, one at a time. -/
def executions (d : Dir) : Machine Dir Task := ⟨d, job.exec⟩

/-- The tasks of a job. -/
def IsTask : Task → Prop
  | .map i => i < job.filenames.length
  | .reduce r => r < job.nReduce

instance : DecidablePred job.IsTask
  | .map i => inferInstanceAs (Decidable (i < job.filenames.length))
  | .reduce r => inferInstanceAs (Decidable (r < job.nReduce))

/-- What the map function gives for the input of a map task, as it is in `d`. -/
def emitted (d : Dir) (i : ℕ) : List KeyValue :=
  ((job.filenames[i]?).bind fun filename ↦ (d filename).map (job.mapf filename)).getD []

/-- The pairs that all map tasks emit. -/
def allEmitted (d : Dir) : List KeyValue :=
  (List.range job.filenames.length).flatMap (job.emitted d)

/-- The values emitted for a key, over all map tasks. -/
def emittedValues (d : Dir) (key : GoString) : List GoString :=
  ((job.allEmitted d).filter fun kv ↦ kv.key = key).map KeyValue.value

/-- The reference result: over the output files there is one line for each emitted key and no
other, each in the file of its hash, with the reduce function applied to all values of the key in
some order.  A line is the key, a space, the value and a newline; where no key and no value has a
newline of its own, these are the lines of the text. -/
structure IsReferenceOutput (d : Dir) (lines : ℕ → List (GoString × GoString)) (d' : Dir) :
    Prop where
  content : ∀ r < job.nReduce,
    d' (outName r) = some ((lines r).flatMap fun line ↦ line.1 ++ 0x20 :: line.2 ++ [0x0A])
  text : ∀ r < job.nReduce, (∀ line ∈ lines r, 0x0A ∉ line.1 ∧ 0x0A ∉ line.2) →
    ∀ content ∈ d' (outName r),
      content.splitOn 0x0A = ((lines r).map fun line ↦ line.1 ++ 0x20 :: line.2) ++ [[]]
  one_line : ∀ r < job.nReduce, ((lines r).map Prod.fst).Nodup
  keys : ∀ r < job.nReduce, ∀ key, key ∈ (lines r).map Prod.fst ↔
    (∃ kv ∈ job.allEmitted d, kv.key = key) ∧ ihash key % job.nReduce = r
  values : ∀ r < job.nReduce, ∀ line ∈ lines r,
    ∃ vs, vs.Perm (job.emittedValues d line.1) ∧ line.2 = job.reducef line.1 vs

/-! ## What reduce tasks read -/

/-- The records a reduce task reads are those of its file of every map task. -/
theorem intermediates_perm (r : ℕ) (d : Dir) :
    (job.intermediates r d).Perm ((List.range job.filenames.length).flatMap fun i ↦
      ((d (intermediateName i r)).map decodeAll).getD []) := by
  refine (job.sorting.perm _).trans (List.Perm.of_eq ?_)
  rw [readLoop_eq_flatMap, reduceFiles, List.flatMap_map]

/-! ## What the directory holds -/

/-- The inputs are as they were in `d₀`, and so is every bucket file that no pair belongs to. -/
structure MapFiles (d₀ d : Dir) : Prop where
  inputs : ∀ name, ¬ IsMrName name → d name = d₀ name
  untouched : ∀ i b, bucketPairs job.nReduce b (job.emitted d₀ i) = [] →
    d (intermediateName i b) = d₀ (intermediateName i b)

/-- Every bucket that a map task emits to holds the task's records. -/
def Written (d₀ d : Dir) (i : ℕ) : Prop :=
  ∀ b, bucketPairs job.nReduce b (job.emitted d₀ i) ≠ [] →
    d (intermediateName i b) = some (bucketBytes job.nReduce b (job.emitted d₀ i))

/-- The records that reduce task `r` finds for map task `i` once the buckets of the pairs `kva` are
written: what is read back of the pairs, or what the directory held before where there are none. -/
def foundFor (d₀ : Dir) (r i : ℕ) (kva : List KeyValue) : List KeyValue :=
  if bucketPairs job.nReduce r kva = [] then ((d₀ (intermediateName i r)).map decodeAll).getD []
  else (bucketPairs job.nReduce r kva).map KeyValue.toValid

/-- The records that a reduce task finds for a map task on the inputs in `d₀`. -/
def found (d₀ : Dir) (r i : ℕ) : List KeyValue := job.foundFor d₀ r i (job.emitted d₀ i)

/-- The pairs that a reduce task reduces once all buckets are written. -/
def reduceInput (d₀ : Dir) (r : ℕ) : List KeyValue :=
  job.sorting.sort ((List.range job.filenames.length).flatMap (job.found d₀ r))

/-- The output of a reduce task on completely written buckets. -/
def output (d₀ : Dir) (r : ℕ) : GoString :=
  (reduceLines job.reducef (job.reduceInput d₀ r)).flatten

variable {job} {d₀ d : Dir}

theorem MapFiles.refl : job.MapFiles d₀ d₀ := ⟨fun _ _ ↦ rfl, fun _ _ _ ↦ rfl⟩

theorem emitted_eq {filename : GoString} {i : ℕ} (hi : job.filenames[i]? = some filename)
    {content : GoString} (hcontent : d₀ filename = some content) :
    job.emitted d₀ i = job.mapf filename content := by
  simp [emitted, hi, hcontent]

/-- A map execution succeeds and leaves the files of its task; it keeps the files of every other
task and all outputs. -/
theorem mapExec_spec (hpos : 0 < job.nReduce)
    (hinputs : ∀ f ∈ job.filenames, ¬ IsMrName f ∧ d₀ f ≠ none) (hd : job.MapFiles d₀ d) {i : ℕ}
    (hi : i < job.filenames.length) :
    ∃ d', job.mapExec i d = some d' ∧ job.MapFiles d₀ d' ∧ job.Written d₀ d' i ∧
      (∀ i', job.Written d₀ d i' → job.Written d₀ d' i') ∧
      ∀ r, d' (outName r) = d (outName r) := by
  have hget := List.getElem?_eq_getElem hi
  obtain ⟨hname, hexists⟩ := hinputs _ (List.getElem_mem hi)
  obtain ⟨content, hcontent⟩ := Option.ne_none_iff_exists'.mp hexists
  have hmap : performMap job.mapf job.filenames[i] d = some (job.emitted d₀ i) := by
    rw [emitted_eq hget hcontent, performMap, hd.inputs _ hname, hcontent, Option.map_some]
  obtain ⟨hown, hframe⟩ := bucketByIntermediateKey_spec (job.emitted d₀ i) i job.nReduce d
  have hother : ∀ name, (∀ b, name ≠ intermediateName i b) →
      bucketByIntermediateKey .none (job.emitted d₀ i) i job.nReduce d name = d name := hframe
  have hwritten : job.Written d₀
      (bucketByIntermediateKey .none (job.emitted d₀ i) i job.nReduce d) i := by
    intro b hb
    rw [hown, if_neg hb]
  refine ⟨_, by simp [mapExec, hget, hmap, hpos.ne'], ⟨fun name hmr ↦ ?_, fun i' b hb ↦ ?_⟩,
    hwritten, fun i' hi' ↦ ?_, fun r ↦ hother _ fun b ↦ outName_ne_intermediateName r i b⟩
  · rw [hother name fun b heq ↦ hmr (heq ▸ intermediateName_isMrName i b), hd.inputs name hmr]
  · by_cases hii : i' = i
    · subst hii
      rw [hown, if_pos hb, hd.untouched i' b hb]
    · rw [hother _ fun b' heq ↦ hii (intermediateName_inj heq).1, hd.untouched i' b hb]
  · by_cases hii : i' = i
    · exact hii ▸ hwritten
    · intro b hb
      rw [hother _ fun b' heq ↦ hii (intermediateName_inj heq).1, hi' b hb]

/-- What a reduce task reads in the file of one bucket. -/
theorem decode_eq_foundFor {r i : ℕ} {kva : List KeyValue}
    (h : d (intermediateName i r) = if bucketPairs job.nReduce r kva = []
      then d₀ (intermediateName i r) else some (bucketBytes job.nReduce r kva)) :
    ((d (intermediateName i r)).map decodeAll).getD [] = job.foundFor d₀ r i kva := by
  rw [h, foundFor]
  split_ifs
  · rfl
  · rw [Option.map_some, Option.getD_some, bucketBytes, decodeAll_flatMap]

/-- What a reduce task reads for a map task whose buckets are written. -/
theorem decode_eq_found (hd : job.MapFiles d₀ d) {i : ℕ} (hi : job.Written d₀ d i) (r : ℕ) :
    ((d (intermediateName i r)).map decodeAll).getD [] = job.found d₀ r i := by
  refine decode_eq_foundFor ?_
  split_ifs with hb
  · exact hd.untouched i r hb
  · exact hi r hb

/-- On completely written buckets the content of every file a reduce task reads is known. -/
theorem intermediates_eq (hd : job.MapFiles d₀ d)
    (hall : ∀ i < job.filenames.length, job.Written d₀ d i) (r : ℕ) :
    job.intermediates r d = job.reduceInput d₀ r := by
  rw [intermediates, readIntermediates, readLoop_eq_flatMap, reduceFiles, List.flatMap_map,
    reduceInput]
  congr 1
  exact List.flatMap_congr fun i hi ↦ decode_eq_found hd (hall i (List.mem_range.mp hi)) r

/-- A reduce execution on completely written buckets leaves its output and keeps everything else. -/
theorem reduceExec_spec (hd : job.MapFiles d₀ d)
    (hall : ∀ i < job.filenames.length, job.Written d₀ d i) (r : ℕ) :
    job.MapFiles d₀ (job.reduceExec r d) ∧
      (∀ i < job.filenames.length, job.Written d₀ (job.reduceExec r d) i) ∧
      job.reduceExec r d (outName r) = some (job.output d₀ r) ∧
      ∀ r', r' ≠ r → job.reduceExec r d (outName r') = d (outName r') := by
  have hframe : ∀ name, name ≠ outName r → job.reduceExec r d name = d name := by
    intro name hname
    exact performReduce_frame _ _ hname d
  have hinter : ∀ i b, job.reduceExec r d (intermediateName i b) = d (intermediateName i b) :=
    fun i b ↦ hframe _ (outName_ne_intermediateName r i b).symm
  refine ⟨⟨fun name hmr ↦ ?_, fun i b hb ↦ ?_⟩, fun i hi b hb ↦ ?_, ?_, fun r' hr' ↦ ?_⟩
  · rw [hframe name fun heq ↦ hmr (heq ▸ outName_isMrName r), hd.inputs name hmr]
  · rw [hinter, hd.untouched i b hb]
  · rw [hinter, hall i hi b hb]
  · rw [reduceExec, performReduce, writeChunks_create, intermediates_eq hd hall, output]
  · exact hframe _ fun heq ↦ hr' (outName_injective heq)

/-! ## Schedules -/

/-- Any sequence of map executions succeeds and leaves the files of every task that occurs. -/
theorem run_maps (hpos : 0 < job.nReduce)
    (hinputs : ∀ f ∈ job.filenames, ¬ IsMrName f ∧ d₀ f ≠ none)
    (hd : job.MapFiles d₀ d) {es : List Task}
    (hes : ∀ e ∈ es, ∃ i < job.filenames.length, e = .map i) :
    ∃ d', (job.executions d₀).run d es = some d' ∧ job.MapFiles d₀ d' ∧
      ∀ i, job.Written d₀ d i ∨ .map i ∈ es → job.Written d₀ d' i := by
  induction es generalizing d with
  | nil => exact ⟨d, rfl, hd, fun i hi ↦ by simpa using hi⟩
  | cons e es ih =>
    obtain ⟨i, hi, rfl⟩ := hes e (by simp)
    obtain ⟨d₁, hexec, hd₁, hown, hkeep, -⟩ := mapExec_spec hpos hinputs hd hi
    obtain ⟨d₂, hrun, hd₂, hwritten⟩ := ih hd₁ fun e he ↦ hes e (by simp [he])
    have hstep : (job.executions d₀).step d (.map i) = some d₁ := hexec
    refine ⟨d₂, by rw [Machine.run_cons, hstep]; exact hrun, hd₂, fun i' hi' ↦ hwritten i' ?_⟩
    rcases hi' with hi' | hi'
    · exact Or.inl (hkeep i' hi')
    · rcases List.mem_cons.mp hi' with heq | hmem
      · cases heq
        exact Or.inl hown
      · exact Or.inr hmem

/-- Once all buckets are written, any sequence of executions succeeds and leaves the output of
every reduce task that occurs. -/
theorem run_tasks (hpos : 0 < job.nReduce)
    (hinputs : ∀ f ∈ job.filenames, ¬ IsMrName f ∧ d₀ f ≠ none)
    (hd : job.MapFiles d₀ d) (hall : ∀ i < job.filenames.length, job.Written d₀ d i)
    {es : List Task} (hes : ∀ e ∈ es, job.IsTask e) :
    ∃ d', (job.executions d₀).run d es = some d' ∧
      ∀ r, d (outName r) = some (job.output d₀ r) ∨ .reduce r ∈ es →
        d' (outName r) = some (job.output d₀ r) := by
  induction es generalizing d with
  | nil => exact ⟨d, rfl, fun r hr ↦ by simpa using hr⟩
  | cons e es ih =>
    have hrest : ∀ e ∈ es, job.IsTask e := fun e he ↦ hes e (by simp [he])
    obtain ⟨kind, id⟩ := e
    cases kind with
    | map =>
      obtain ⟨d₁, hexec, hd₁, -, hkeep, hout⟩ :=
        mapExec_spec hpos hinputs hd (hes (.map id) (by simp))
      obtain ⟨d₂, hrun, hdone⟩ := ih hd₁ (fun i' hi' ↦ hkeep i' (hall i' hi')) hrest
      have hstep : (job.executions d₀).step d (.map id) = some d₁ := hexec
      refine ⟨d₂, by rw [Machine.run_cons, hstep]; exact hrun, fun r hr ↦ hdone r ?_⟩
      rw [hout]
      simpa using hr
    | reduce =>
      obtain ⟨hd₁, hall₁, hown, hkeep⟩ := reduceExec_spec hd hall id
      obtain ⟨d₂, hrun, hdone⟩ := ih hd₁ hall₁ hrest
      have hstep : (job.executions d₀).step d (.reduce id) = some (job.reduceExec id d) := rfl
      refine ⟨d₂, by rw [Machine.run_cons, hstep]; exact hrun, fun r hr ↦ hdone r ?_⟩
      by_cases hid : r = id
      · exact Or.inl (hid ▸ hown)
      · rw [hkeep r hid]
        simpa [hid] using hr

/-! ## The reference result -/

/-- In a directory without old files and with valid strings, a reduce task reads exactly the pairs
of its bucket. -/
theorem reduceInput_perm (hclean : ∀ name, IsMrName name → d₀ name = none)
    (hvalid : ∀ kv ∈ job.allEmitted d₀, kv.Valid) (r : ℕ) :
    (job.reduceInput d₀ r).Perm (bucketPairs job.nReduce r (job.allEmitted d₀)) := by
  refine (job.sorting.perm _).trans (List.Perm.of_eq ?_)
  rw [allEmitted, bucketPairs, List.filter_flatMap]
  refine List.flatMap_congr fun i hi ↦ ?_
  unfold found foundFor
  split_ifs with hb
  · rw [hclean _ (intermediateName_isMrName i r)]
    exact hb.symm
  · refine (List.map_congr_left fun kv hkv ↦ ?_).trans (List.map_id _)
    have hmem : kv ∈ job.allEmitted d₀ :=
      List.mem_flatMap.mpr ⟨i, hi, (List.mem_filter.mp hkv).1⟩
    exact kv.toValid_eq_self_iff.mpr (hvalid kv hmem)

/-- The lines of a reduce task: the key and the reduced value of each call. -/
def lines (job : Job) (d₀ : Dir) (r : ℕ) : List (GoString × GoString) :=
  (reduceCalls (job.reduceInput d₀ r)).map fun call ↦ (call.1, job.reducef call.1 call.2)

theorem output_eq_lines (r : ℕ) :
    job.output d₀ r =
      (job.lines d₀ r).flatMap fun line ↦ line.1 ++ 0x20 :: line.2 ++ [0x0A] := by
  rw [output, lines, reduceLines, List.flatMap_map, List.flatMap_def]
  rfl

theorem keys_lines (r : ℕ) :
    (job.lines d₀ r).map Prod.fst = (reduceCalls (job.reduceInput d₀ r)).map Prod.fst := by
  rw [lines, List.map_map]
  rfl

/-- The values of one reduce call are all values emitted for its key. -/
theorem values_perm (hperm : (job.reduceInput d₀ r).Perm
      (bucketPairs job.nReduce r (job.allEmitted d₀)))
    {call : GoString × List GoString} (hcall : call ∈ reduceCalls (job.reduceInput d₀ r))
    (hbucket : bucket job.nReduce call.1 = r) :
    call.2.Perm (job.emittedValues d₀ call.1) := by
  rw [values_of_mem_reduceCalls (job.sorting.sortedByKey _) hcall]
  refine ((hperm.filter _).map _).trans (List.Perm.of_eq ?_)
  rw [bucketPairs, List.filter_filter, emittedValues]
  congr 1
  refine List.filter_congr fun kv _ ↦ ?_
  by_cases hkey : kv.key = call.1
  · simp [hkey, hbucket]
  · simp [hkey]

theorem isReferenceOutput (hclean : ∀ name, IsMrName name → d₀ name = none)
    (hvalid : ∀ kv ∈ job.allEmitted d₀, kv.Valid) {d' : Dir}
    (hout : ∀ r < job.nReduce, d' (outName r) = some (job.output d₀ r)) :
    job.IsReferenceOutput d₀ (job.lines d₀) d' := by
  have hperm : ∀ r, (job.reduceInput d₀ r).Perm (bucketPairs job.nReduce r (job.allEmitted d₀)) :=
    reduceInput_perm hclean hvalid
  have hkeys (r : ℕ) (key : GoString) : key ∈ (job.lines d₀ r).map Prod.fst ↔
      (∃ kv ∈ job.allEmitted d₀, kv.key = key) ∧ ihash key % job.nReduce = r := by
    rw [keys_lines, mem_keys_reduceCalls]
    constructor
    · rintro ⟨kv, hkv, rfl⟩
      have hmem := List.mem_filter.mp ((hperm r).mem_iff.mp hkv)
      exact ⟨⟨kv, hmem.1, rfl⟩, of_decide_eq_true hmem.2⟩
    · rintro ⟨⟨kv, hkv, rfl⟩, hr⟩
      have hmem : kv ∈ bucketPairs job.nReduce r (job.allEmitted d₀) :=
        List.mem_filter.mpr ⟨hkv, decide_eq_true hr⟩
      exact ⟨kv, (hperm r).mem_iff.mpr hmem, rfl⟩
  refine ⟨fun r hr ↦ ?_, fun r hr hnewline content hcontent ↦ ?_, fun r _ ↦ ?_, fun r _ ↦ hkeys r,
    fun r _ line hline ↦ ?_⟩
  · rw [hout r hr, output_eq_lines]
  · rw [hout r hr, output_eq_lines] at hcontent
    cases hcontent
    exact splitOn_lines hnewline
  · rw [keys_lines]
    exact (pairwise_keys_reduceCalls (job.sorting.sortedByKey _)).imp fun h ↦ h.ne
  · have hr := ((hkeys r line.1).mp (List.mem_map_of_mem hline)).2
    obtain ⟨call, hcall, rfl⟩ := List.mem_map.mp hline
    exact ⟨_, values_perm (hperm r) hcall hr, rfl⟩

/-- **The data path computes the reference result.** In a directory without `mr-*` files, run every
map task at least once in any order, then every reduce task at least once in any order with further
map executions in between: all executions succeed, and the output files hold one line for each
emitted key, in the file of its hash, reduced from all values emitted for the key. -/
theorem run_isReferenceOutput (job : Job) (d : Dir) (hpos : 0 < job.nReduce)
    (hclean : ∀ name, IsMrName name → d name = none)
    (hinputs : ∀ f ∈ job.filenames, ¬ IsMrName f ∧ d f ≠ none)
    (hvalid : ∀ kv ∈ job.allEmitted d, kv.Valid) {mapPhase reducePhase : List Task}
    (hmaps : ∀ e ∈ mapPhase, ∃ i < job.filenames.length, e = .map i)
    (hallMaps : ∀ i < job.filenames.length, .map i ∈ mapPhase)
    (htasks : ∀ e ∈ reducePhase, job.IsTask e)
    (hallReduces : ∀ r < job.nReduce, .reduce r ∈ reducePhase) :
    ∃ d', (job.executions d).run d (mapPhase ++ reducePhase) = some d' ∧
      ∃ lines, job.IsReferenceOutput d lines d' := by
  obtain ⟨d₁, hrun₁, hd₁, hwritten⟩ := run_maps hpos hinputs MapFiles.refl hmaps
  obtain ⟨d₂, hrun₂, hdone⟩ := run_tasks hpos hinputs hd₁
    (fun i hi ↦ hwritten i (Or.inr (hallMaps i hi))) htasks
  refine ⟨d₂, by rw [Machine.run_append, hrun₁]; exact hrun₂, _, isReferenceOutput hclean hvalid ?_⟩
  exact fun r hr ↦ hdone r (Or.inr (hallReduces r hr))

/-- Two pairs for one key and one for another, joined by concatenation. -/
def sample : Job where
  filenames := [ascii "in"]
  mapf _ content := [⟨ascii "b", content⟩, ⟨ascii "a", ascii "1"⟩, ⟨ascii "b", ascii "2"⟩]
  reducef _ values := values.flatten
  nReduce := 2
  sorting := .insertion

/-- A directory that holds the input of `sample` only. -/
def sampleDir : Dir := Function.update (fun _ ↦ none) (ascii "in") (some (ascii "x"))

theorem sampleDir_eq_none {name : GoString} (h : IsMrName name) : sampleDir name = none := by
  have hne : name ≠ ascii "in" := by
    rintro rfl
    exact absurd h (by decide)
  simp [sampleDir, hne]

theorem run_sample_isReferenceOutput :
    ∃ d', (sample.executions sampleDir).run sampleDir
        ([.map 0, .map 0] ++ [.reduce 1, .map 0, .reduce 0]) = some d' ∧
      ∃ lines, sample.IsReferenceOutput sampleDir lines d' :=
  run_isReferenceOutput sample sampleDir (by decide) (fun _ ↦ sampleDir_eq_none) (by decide)
    (by decide) (by decide) (by decide) (by decide) (by decide)

end Job

end DistKvRaft.MapReduce
