import DistKvRaft.Foundation.Lists
import DistKvRaft.MapReduce.Pipeline

/-!
# Files left over from earlier jobs

A map task opens, and so truncates, only the files of buckets that one of its pairs belongs to,
while a reduce task reads a file for every map task.  Whatever an earlier job left in the file of a
bucket without pairs is therefore read as a part of this job.  `perm_iff_noLeftovers` says exactly
when two directories with the same inputs give the same pairs, namely those that the job emitted.
-/

namespace DistKvRaft.MapReduce

open Go FileStore

namespace Job

variable (job : Job)

/-- Execute the map tasks in the given order; the pairs each of them emitted are recorded. -/
def mapPhase : List ℕ → Dir → Option (Dir × List (ℕ × List KeyValue))
  | [], d => some (d, [])
  | i :: order, d =>
    (job.mapExec i d).bind fun d' ↦
      (mapPhase order d').map fun result ↦ (result.1, (i, job.emitted d i) :: result.2)

/-- In every bucket without pairs of its map task the directory holds no record. -/
def NoLeftovers (trace : List (ℕ × List KeyValue)) (d : Dir) : Prop :=
  ∀ task ∈ trace, ∀ r < job.nReduce, bucketPairs job.nReduce r task.2 = [] →
    ((d (intermediateName task.1 r)).map decodeAll).getD [] = []

variable {job} {d d' : Dir} {trace : List (ℕ × List KeyValue)} {order : List ℕ}

/-- A map execution emits what its input gives and writes exactly that. -/
theorem mapExec_eq_some {i : ℕ} (h : job.mapExec i d = some d') :
    ∃ filename ∈ job.filenames[i]?, ∃ content ∈ d filename,
      job.emitted d i = job.mapf filename content ∧
      (job.emitted d i ≠ [] → job.nReduce ≠ 0) ∧
      d' = bucketByIntermediateKey .none (job.emitted d i) i job.nReduce d := by
  obtain ⟨filename, hfilename, h⟩ := Option.bind_eq_some_iff.mp h
  obtain ⟨kva, hkva, h⟩ := Option.bind_eq_some_iff.mp h
  obtain ⟨content, hcontent, rfl⟩ := Option.map_eq_some_iff.mp hkva
  have hemitted := emitted_eq hfilename hcontent
  split_ifs at h with hzero
  cases h
  refine ⟨filename, hfilename, content, hcontent, hemitted, fun hne heq ↦ ?_, by rw [hemitted]⟩
  exact hzero ⟨hemitted ▸ hne, heq⟩

theorem mapExec_frame {i : ℕ} (h : job.mapExec i d = some d') {name : GoString}
    (hname : ∀ b, name ≠ intermediateName i b) : d' name = d name := by
  obtain ⟨_, _, _, _, _, _, rfl⟩ := mapExec_eq_some h
  exact (bucketByIntermediateKey_spec _ i job.nReduce d).2 name hname

theorem mapExec_file {i : ℕ} (h : job.mapExec i d = some d') (b : ℕ) :
    d' (intermediateName i b) = if bucketPairs job.nReduce b (job.emitted d i) = []
      then d (intermediateName i b) else some (bucketBytes job.nReduce b (job.emitted d i)) := by
  obtain ⟨_, _, _, _, _, _, rfl⟩ := mapExec_eq_some h
  exact (bucketByIntermediateKey_spec _ i job.nReduce d).1 b

/-- The files after a map phase. -/
theorem mapPhase_spec (hnodup : order.Nodup) (h : job.mapPhase order d = some (d', trace)) :
    trace.map Prod.fst = order ∧
    (∀ task ∈ trace, ∀ b, d' (intermediateName task.1 b) =
      if bucketPairs job.nReduce b task.2 = [] then d (intermediateName task.1 b)
      else some (bucketBytes job.nReduce b task.2)) ∧
    ∀ name, (∀ i ∈ order, ∀ b, name ≠ intermediateName i b) → d' name = d name := by
  induction order generalizing d trace with
  | nil =>
    cases h
    simp
  | cons i order ih =>
    obtain ⟨hi, hnodup⟩ := List.nodup_cons.mp hnodup
    obtain ⟨d₁, hexec, h⟩ := Option.bind_eq_some_iff.mp h
    obtain ⟨⟨d₂, rest⟩, hphase, heq⟩ := Option.map_eq_some_iff.mp h
    cases heq
    obtain ⟨hfst, hfiles, hframe⟩ := ih hnodup hphase
    refine ⟨by rw [List.map_cons, hfst], fun task htask b ↦ ?_, fun name hname ↦ ?_⟩
    · rcases List.mem_cons.mp htask with rfl | htask
      · have hlater : ∀ i' ∈ order, ∀ b', intermediateName i b ≠ intermediateName i' b' :=
          fun i' hi' b' heq ↦ hi ((intermediateName_inj heq).1 ▸ hi')
        rw [hframe _ hlater, mapExec_file hexec]
      · have hne : task.1 ≠ i := fun heq ↦ hi (hfst ▸ heq ▸ List.mem_map_of_mem htask)
        rw [hfiles task htask b, mapExec_frame hexec fun b' heq ↦ hne (intermediateName_inj heq).1]
    · rw [hframe name fun i' hi' ↦ hname i' (List.mem_cons_of_mem _ hi'),
        mapExec_frame hexec (hname i (List.mem_cons_self ..))]

/-- Directories with the same inputs take a map execution to directories with the same inputs. -/
theorem mapExec_congr {d₁ d₂ d₁' : Dir} (hagree : ∀ f ∈ job.filenames, d₁ f = d₂ f) {i : ℕ}
    (h : job.mapExec i d₁ = some d₁') :
    ∃ d₂', job.mapExec i d₂ = some d₂' ∧ job.emitted d₂ i = job.emitted d₁ i ∧
      ∀ f ∈ job.filenames, d₁' f = d₂' f := by
  obtain ⟨filename, hfilename, content, hcontent, hemitted, hpos, -⟩ := mapExec_eq_some h
  have hcontent₂ : d₂ filename = some content :=
    (hagree filename (List.mem_of_getElem? hfilename)).symm.trans hcontent
  have hsame : job.emitted d₂ i = job.emitted d₁ i :=
    (emitted_eq hfilename hcontent₂).trans hemitted.symm
  have hexec : job.mapExec i d₂ =
      some (bucketByIntermediateKey .none (job.emitted d₂ i) i job.nReduce d₂) := by
    rw [← hsame, emitted_eq hfilename hcontent₂] at hpos
    rw [emitted_eq hfilename hcontent₂, mapExec, hfilename]
    simpa [performMap, hcontent₂] using hpos
  refine ⟨_, hexec, hsame, fun f hf ↦ ?_⟩
  by_cases hown : ∃ b, f = intermediateName i b
  · obtain ⟨b, rfl⟩ := hown
    rw [mapExec_file h, mapExec_file hexec, hsame, hagree _ hf]
  · have hother : ∀ b, f ≠ intermediateName i b := fun b heq ↦ hown ⟨b, heq⟩
    rw [mapExec_frame h hother, mapExec_frame hexec hother, hagree f hf]

theorem mapPhase_congr {d₁ d₂ d₁' : Dir} (hagree : ∀ f ∈ job.filenames, d₁ f = d₂ f)
    (h : job.mapPhase order d₁ = some (d₁', trace)) :
    ∃ d₂', job.mapPhase order d₂ = some (d₂', trace) := by
  induction order generalizing d₁ d₂ trace with
  | nil =>
    cases h
    exact ⟨d₂, rfl⟩
  | cons i order ih =>
    obtain ⟨e₁, hexec, h⟩ := Option.bind_eq_some_iff.mp h
    obtain ⟨⟨_, rest⟩, hphase, heq⟩ := Option.map_eq_some_iff.mp h
    cases heq
    obtain ⟨e₂, hexec₂, hemitted, hagree'⟩ := mapExec_congr hagree hexec
    obtain ⟨d₂', hphase₂⟩ := ih hagree' hphase
    exact ⟨d₂', by simp [mapPhase, hexec₂, hphase₂, hemitted]⟩

/-- What a reduce task reads after a map phase. -/
theorem intermediates_perm_trace (horder : order.Perm (List.range job.filenames.length))
    (h : job.mapPhase order d = some (d', trace)) (r : ℕ) :
    (job.intermediates r d').Perm (trace.flatMap fun task ↦ job.foundFor d r task.1 task.2) := by
  obtain ⟨hfst, hfiles, -⟩ := mapPhase_spec (horder.nodup_iff.mpr List.nodup_range) h
  refine (job.intermediates_perm r d').trans ((horder.symm.flatMap_right _).trans ?_)
  rw [← hfst, List.flatMap_map]
  exact .of_eq (List.flatMap_congr fun task htask ↦ decode_eq_foundFor (hfiles task htask r))

theorem length_le_foundFor (d : Dir) (r : ℕ) (task : ℕ × List KeyValue) :
    (bucketPairs job.nReduce r task.2).length ≤ (job.foundFor d r task.1 task.2).length := by
  unfold foundFor
  split_ifs with hempty
  · simp [hempty]
  · simp

/-- After one map phase the reduce tasks read the emitted pairs exactly when these are valid and the
directory held no record in a bucket without pairs. -/
theorem intermediates_perm_iff (hpos : 0 < job.nReduce)
    (horder : order.Perm (List.range job.filenames.length))
    (h : job.mapPhase order d = some (d', trace)) :
    (∀ r < job.nReduce, (job.intermediates r d').Perm
        (bucketPairs job.nReduce r (trace.flatMap Prod.snd))) ↔
      (∀ kv ∈ trace.flatMap Prod.snd, kv.Valid) ∧ job.NoLeftovers trace d := by
  have hread := intermediates_perm_trace horder h
  have hpairs (r : ℕ) : bucketPairs job.nReduce r (trace.flatMap Prod.snd) =
      trace.flatMap fun task ↦ bucketPairs job.nReduce r task.2 := by
    rw [bucketPairs, List.filter_flatMap]
    rfl
  constructor
  · intro hperm
    have hclean : job.NoLeftovers trace d := by
      intro task htask r hr hempty
      have htotal := ((hread r).symm.trans ((hperm r hr).trans (.of_eq (hpairs r)))).length_eq
      have hlength := Lists.length_eq_of_flatMap
        (fun task _ ↦ length_le_foundFor d r task) htotal.le task htask
      rw [hempty, foundFor, if_pos hempty] at hlength
      exact List.eq_nil_of_length_eq_zero hlength
    refine ⟨fun kv hkv ↦ ?_, hclean⟩
    have hr := bucket_lt hpos kv.key
    have hmem : kv ∈ bucketPairs job.nReduce (bucket job.nReduce kv.key) (trace.flatMap Prod.snd) :=
      List.mem_filter.mpr ⟨hkv, decide_eq_true rfl⟩
    obtain ⟨task, htask, hfound⟩ :=
      List.mem_flatMap.mp ((hread _).mem_iff.mp ((hperm _ hr).mem_iff.mpr hmem))
    unfold foundFor at hfound
    split_ifs at hfound with hempty
    · rw [hclean task htask _ hr hempty] at hfound
      cases hfound
    · obtain ⟨kv', -, rfl⟩ := List.mem_map.mp hfound
      exact kv'.valid_toValid
  · rintro ⟨hvalid, hclean⟩ r hr
    refine (hread r).trans (.of_eq ?_)
    rw [hpairs]
    refine List.flatMap_congr fun task htask ↦ ?_
    unfold foundFor
    split_ifs with hempty
    · rw [hclean task htask r hr hempty, hempty]
    · refine (List.map_congr_left fun kv hkv ↦ ?_).trans (List.map_id _)
      have hmem : kv ∈ trace.flatMap Prod.snd :=
        List.mem_flatMap.mpr ⟨task, htask, (List.mem_filter.mp hkv).1⟩
      exact kv.toValid_eq_self_iff.mpr (hvalid kv hmem)

/-- **Independence of leftovers.** Take two directories that agree on the input files, and execute
every map task once.  The same pairs are emitted in both, and the reduce tasks read exactly these
pairs in both if and only if all of them are valid UTF-8 and neither directory held a record in a
bucket that its map task emits nothing to. -/
theorem perm_iff_noLeftovers (job : Job) (hpos : 0 < job.nReduce) {order : List ℕ}
    (horder : order.Perm (List.range job.filenames.length)) {d₁ d₂ d₁' : Dir}
    (hinputs : ∀ f ∈ job.filenames, d₁ f = d₂ f)
    {trace : List (ℕ × List KeyValue)} (h : job.mapPhase order d₁ = some (d₁', trace)) :
    ∃ d₂', job.mapPhase order d₂ = some (d₂', trace) ∧
      ((∀ r < job.nReduce,
          (job.intermediates r d₁').Perm (bucketPairs job.nReduce r (trace.flatMap Prod.snd)) ∧
          (job.intermediates r d₂').Perm (bucketPairs job.nReduce r (trace.flatMap Prod.snd))) ↔
        (∀ kv ∈ trace.flatMap Prod.snd, kv.Valid) ∧ job.NoLeftovers trace d₁ ∧
          job.NoLeftovers trace d₂) := by
  obtain ⟨d₂', h₂⟩ := mapPhase_congr hinputs h
  have hiff₁ := intermediates_perm_iff hpos horder h
  have hiff₂ := intermediates_perm_iff hpos horder h₂
  refine ⟨d₂', h₂, fun hboth ↦ ?_, fun ⟨hvalid, hclean₁, hclean₂⟩ r hr ↦ ?_⟩
  · obtain ⟨hvalid, hclean₁⟩ := hiff₁.mp fun r hr ↦ (hboth r hr).1
    exact ⟨hvalid, hclean₁, (hiff₂.mp fun r hr ↦ (hboth r hr).2).2⟩
  · exact ⟨hiff₁.mpr ⟨hvalid, hclean₁⟩ r hr, hiff₂.mpr ⟨hvalid, hclean₂⟩ r hr⟩

/-- A map task that emits one pair, for the first of two reduce tasks. -/
def single : Job where
  filenames := [ascii "in"]
  mapf _ _ := [⟨ascii "a", ascii "1"⟩]
  reducef _ values := values.flatten
  nReduce := 2
  sorting := .insertion

/-- The directory of `sample` with a record of an earlier job for the second reduce task. -/
def leftoverDir : Dir :=
  Function.update sampleDir (intermediateName 0 1) (some (encodeKeyValue ⟨ascii "old", ascii "9"⟩))

theorem leftoverDir_of_ne {name : GoString} (h : name ≠ intermediateName 0 1) :
    leftoverDir name = sampleDir name := by
  simp [leftoverDir, h]

theorem perm_iff_noLeftovers_single :
    ∃ d₁' d₂' trace, single.mapPhase [0] sampleDir = some (d₁', trace) ∧
      single.mapPhase [0] leftoverDir = some (d₂', trace) ∧
      ((∀ r < single.nReduce,
          (single.intermediates r d₁').Perm
            (bucketPairs single.nReduce r (trace.flatMap Prod.snd)) ∧
          (single.intermediates r d₂').Perm
            (bucketPairs single.nReduce r (trace.flatMap Prod.snd))) ↔
        (∀ kv ∈ trace.flatMap Prod.snd, kv.Valid) ∧ single.NoLeftovers trace sampleDir ∧
          single.NoLeftovers trace leftoverDir) := by
  have hsome : (single.mapPhase [0] sampleDir).isSome = true := by decide
  obtain ⟨⟨d₁', trace⟩, h⟩ := Option.isSome_iff_exists.mp hsome
  have hinputs : ∀ f ∈ single.filenames, sampleDir f = leftoverDir f := by decide
  obtain ⟨d₂', h₂, hiff⟩ := perm_iff_noLeftovers single (by decide) (by decide) hinputs h
  exact ⟨d₁', d₂', trace, h, h₂, hiff⟩

/-- The second reduce task of `single` reads the record that an earlier job left. -/
theorem leftover_read :
    (∀ name, name ≠ intermediateName 0 1 → leftoverDir name = sampleDir name) ∧
    ∃ d' trace, single.mapPhase [0] leftoverDir = some (d', trace) ∧
      bucketPairs single.nReduce 1 (trace.flatMap Prod.snd) = [] ∧
      single.intermediates 1 d' = [⟨ascii "old", ascii "9"⟩] := by
  refine ⟨fun _ ↦ leftoverDir_of_ne, ?_⟩
  have hrun : (single.mapPhase [0] leftoverDir).any (fun result ↦
      bucketPairs single.nReduce 1 (result.2.flatMap Prod.snd) = [] ∧
        single.intermediates 1 result.1 = [⟨ascii "old", ascii "9"⟩]) = true := by
    decide +kernel
  cases h : single.mapPhase [0] leftoverDir with
  | none => simp [h] at hrun
  | some result => exact ⟨result.1, result.2, rfl, by simpa [h] using hrun⟩

end Job

end DistKvRaft.MapReduce
