import DistKvRaft.MapReduce.Phases

/-!
# Files of completed tasks

All executions of a task write the same bytes to the same files, each at its own offset.  A file can
lose bytes only when an execution opens it, with truncation.  `Undisturbed` is the discipline under
which this does no harm: a file is opened only while every other execution that has written to it
has crashed without sending its report.  Along every run that keeps to it the files of a completed
task are complete, so every reduce execution reads whole bucket files.

The code does not keep to it: a monitor has a slow task executed again, and the second execution
truncates files of the first one, before or after its report.
-/

namespace DistKvRaft.MapReduce

open Go FileStore

/-- A file of a task. -/
inductive TaskFile
  | intermediate (i b : ℕ)
  | out (r : ℕ)
  deriving DecidableEq

namespace TaskFile

def name : TaskFile → GoString
  | .intermediate i b => intermediateName i b
  | .out r => outName r

theorem name_injective : Function.Injective name := by
  intro f g h
  cases f with
  | intermediate i b =>
    cases g with
    | intermediate i' b' =>
      obtain ⟨rfl, rfl⟩ := intermediateName_inj h
      rfl
    | out r => exact absurd h.symm (outName_ne_intermediateName r i b)
  | out r =>
    cases g with
    | intermediate i b => exact absurd h (outName_ne_intermediateName r i b)
    | out r' => exact congrArg _ (outName_injective h)

theorem name_isMrName (f : TaskFile) : IsMrName f.name := by
  cases f with
  | intermediate i b => exact intermediateName_isMrName i b
  | out r => exact outName_isMrName r

/-- The whole content of the file. -/
def target (job : Job) (d₀ : Dir) : TaskFile → GoString
  | .intermediate i b => bucketBytes job.nReduce b (job.emitted d₀ i)
  | .out r => job.output d₀ r

/-- Some execution has something to write to the file. -/
def Used (job : Job) (d₀ : Dir) : TaskFile → Prop
  | .intermediate i b => bucketPairs job.nReduce b (job.emitted d₀ i) ≠ []
  | .out _ => True

end TaskFile

namespace Phase

/-- The offset of an execution in a file it has open. -/
def offset : Phase → TaskFile → Option ℕ
  | .bucketing reply _ handles, .intermediate i b =>
    if i = reply.maptaskId then (handles b).map Handle.offset else none
  | .writing reply _ offset, .out r => if r = reply.reducetaskId then some offset else none
  | _, _ => none

/-- The file that the next step opens with truncation. -/
def opens : Phase → Option TaskFile
  | .bucketing reply (kv :: _) handles =>
    if (handles (bucket reply.nReduce kv.key)).isNone then
      some (.intermediate reply.maptaskId (bucket reply.nReduce kv.key))
    else none
  | .reading reply [] _ => some (.out reply.reducetaskId)
  | _ => none

end Phase

/-- The execution has written to the file, and has not crashed before it sent its report. -/
def Execution.countsOn (e : Execution) (f : TaskFile) : Bool :=
  e.status ≠ .crashed ∧ (e.phase.offset f).any (0 < ·)

/-- If the next step of execution `k` opens a file, every other execution that has written to the
file has crashed without sending its report. -/
def OpensUnwritten (s : Cluster) (k : ℕ) : Prop :=
  ∀ e ∈ s.executions[k]?, ∀ f ∈ e.phase.opens, ∀ j < s.executions.length, j ≠ k →
    ∀ e' ∈ s.executions[j]?, e'.countsOn f = false

instance (s : Cluster) (k : ℕ) : Decidable (OpensUnwritten s k) := by
  unfold OpensUnwritten
  infer_instance

/-- The discipline that keeps files of completed tasks complete. -/
def Undisturbed (s : Cluster) : Event → Prop
  | .advance k => OpensUnwritten s k
  | _ => True

instance (s : Cluster) : DecidablePred (Undisturbed s)
  | .advance k => inferInstanceAs (Decidable (OpensUnwritten s k))
  | .registerWorker _ | .giveMapTask _ | .giveReduceTask _ | .report _ | .deliver _ | .wake _ _
  | .crash _ => instDecidableTrue

/-! ## What executions have written -/

theorem bucketPairs_append (nReduce b : ℕ) (xs ys : List KeyValue) :
    bucketPairs nReduce b (xs ++ ys) = bucketPairs nReduce b xs ++ bucketPairs nReduce b ys := by
  simp [bucketPairs]

theorem bucketBytes_append (nReduce b : ℕ) (xs ys : List KeyValue) :
    bucketBytes nReduce b (xs ++ ys) = bucketBytes nReduce b xs ++ bucketBytes nReduce b ys := by
  simp [bucketBytes, bucketPairs_append]

/-- The handle of a bucket after the pairs `written` of all pairs `kva`: it stands behind their
records, and a bucket is open only if some pair belongs to it. -/
def HandleAfter (nReduce b : ℕ) (kva written : List KeyValue) (handle : Option Handle) : Prop :=
  handle = none ∧ bucketPairs nReduce b written = [] ∨
    handle = some ⟨(bucketBytes nReduce b written).length, false⟩ ∧ bucketPairs nReduce b kva ≠ []

/-- The execution has read what the inputs in `d₀` determine, and written a part of it. -/
def Phase.OnTrack (job : Job) (d₀ : Dir) : Phase → Prop
  | .mapping _ => True
  | .bucketing reply rest handles => ∃ written, job.emitted d₀ reply.maptaskId = written ++ rest ∧
    ∀ b, HandleAfter job.nReduce b (job.emitted d₀ reply.maptaskId) written (handles b)
  | .reading reply rest kva => ∃ k ≤ job.filenames.length,
    rest = (reduceFiles job.filenames.length reply.reducetaskId).drop k ∧
      kva = (List.range k).flatMap (job.found d₀ reply.reducetaskId)
  | .writing reply lines offset => ∃ written,
    reduceLines job.reducef (job.reduceInput d₀ reply.reducetaskId) = written ++ lines ∧
      offset = written.flatten.length

/-- What a file-level step does to the files, with the part of the file that was written before. -/
inductive Effect (job : Job) (d₀ d : Dir) (phase phase' : Phase) : Dir → Prop
  | read (hoffset : ∀ f, phase'.offset f = none) : Effect job d₀ d phase phase' d
  | truncate {f : TaskFile} (hopens : phase.opens = some f) (hused : f.Used job d₀)
      (hoffset : ∀ f', phase'.offset f' = if f' = f then some 0 else phase.offset f') :
      Effect job d₀ d phase phase' (create d f.name)
  | write {f : TaskFile} {front chunk : GoString} (hfront : phase.offset f = some front.length)
      (hchunk : front ++ chunk <+: f.target job d₀) (hused : f.Used job d₀)
      (hoffset : ∀ f', phase'.offset f' =
        if f' = f then some (front ++ chunk).length else phase.offset f') :
      Effect job d₀ d phase phase' (writeAt d f.name front.length chunk)

namespace Phase

variable {job : Job} {d₀ d d' : Dir} {phase phase' : Phase}

theorem effect_openBucket {reply : MapReply} (hn : reply.nReduce = job.nReduce) {kv : KeyValue}
    {kvs : List KeyValue} {handles : ℕ → Option Handle}
    (htrack : OnTrack job d₀ (.bucketing reply (kv :: kvs) handles))
    (h : handles (bucket reply.nReduce kv.key) = none) :
    Effect job d₀ d (.bucketing reply (kv :: kvs) handles)
      (.bucketing reply (kv :: kvs)
        (Function.update handles (bucket reply.nReduce kv.key) (some ⟨0, false⟩)))
      (create d (intermediateName reply.maptaskId (bucket reply.nReduce kv.key))) := by
  obtain ⟨written, hemitted, -⟩ := htrack
  refine .truncate (f := .intermediate reply.maptaskId (bucket reply.nReduce kv.key))
    (by simp [opens, h]) ?_ fun f' ↦ ?_
  · rw [TaskFile.Used, hemitted, bucketPairs_append, hn]
    simp [bucketPairs_cons]
  · cases f' with
    | out r => simp [offset]
    | intermediate i b =>
      by_cases hi : i = reply.maptaskId
      · by_cases hb : b = bucket reply.nReduce kv.key
        · simp [offset, hi, hb]
        · simp [offset, hi, hb]
      · simp [offset, hi]

theorem effect_encode {reply : MapReply} (hn : reply.nReduce = job.nReduce) {kv : KeyValue}
    {kvs : List KeyValue} {handles : ℕ → Option Handle} {handle : Handle}
    (htrack : OnTrack job d₀ (.bucketing reply (kv :: kvs) handles))
    (h : handles (bucket reply.nReduce kv.key) = some handle) :
    let st := encodePair reply.maptaskId (bucket reply.nReduce kv.key) none kv handle ⟨d, handles⟩
    Effect job d₀ d (.bucketing reply (kv :: kvs) handles) (.bucketing reply kvs st.handles)
      st.dir := by
  obtain ⟨written, hemitted, hhandles⟩ := htrack
  have hafter := hhandles (bucket reply.nReduce kv.key)
  rw [h] at hafter
  obtain ⟨hnone, -⟩ | ⟨hhandle, hused⟩ := hafter
  · cases hnone
  cases hhandle
  simp only [encodePair, Bool.false_eq_true, if_false]
  refine .write (f := .intermediate reply.maptaskId (bucket reply.nReduce kv.key))
    (by simp [offset, h]) ?_ hused fun f' ↦ ?_
  · rw [TaskFile.target, hemitted, bucketBytes_append, List.prefix_append_right_inj]
    simp [bucketBytes, bucketPairs_cons, hn]
  · cases f' with
    | out r => simp [offset]
    | intermediate i b =>
      by_cases hi : i = reply.maptaskId
      · by_cases hb : b = bucket reply.nReduce kv.key
        · simp [offset, hi, hb]
        · simp [offset, hi, hb]
      · simp [offset, hi]

theorem effect_writeLine {reply : ReduceReply} {line : GoString} {lines : List GoString} {o : ℕ}
    (htrack : OnTrack job d₀ (.writing reply (line :: lines) o)) :
    Effect job d₀ d (.writing reply (line :: lines) o) (.writing reply lines (o + line.length))
      (writeAt d (outName reply.reducetaskId) o line) := by
  obtain ⟨written, hlines, rfl⟩ := htrack
  refine .write (f := .out reply.reducetaskId) (by simp [offset]) ?_ trivial fun f' ↦ ?_
  · rw [TaskFile.target, Job.output, hlines, List.flatten_append, List.prefix_append_right_inj]
    exact ⟨_, rfl⟩
  · cases f' with
    | intermediate i b => simp [offset]
    | out r =>
      by_cases hr : r = reply.reducetaskId
      · simp [offset, hr]
      · simp [offset, hr]

/-- Every step of an execution that is on track reads, opens a file of its task, or writes the next
part of one. -/
theorem FileStep.effect (h : FileStep job d phase phase' d') (hassigned : phase.Assigned job)
    (htrack : phase.OnTrack job d₀) : Effect job d₀ d phase phase' d' := by
  cases h with
  | readInput hkva => exact .read fun f ↦ by cases f <;> simp [offset]
  | openBucket hb => exact effect_openBucket hassigned.2 htrack hb
  | encode hb => exact effect_encode hassigned.2 htrack hb
  | readBucket => exact .read fun f ↦ by cases f <;> rfl
  | openOutput =>
    refine .truncate (f := .out _) rfl trivial fun f' ↦ ?_
    cases f' with
    | intermediate i b => rfl
    | out r => simp [offset]
  | writeLine => exact effect_writeLine htrack

theorem onTrack_readInput (hinputs : ∀ f ∈ job.filenames, ¬ IsMrName f)
    (hd : job.MapFiles d₀ d) {reply : MapReply} (hassigned : Assigned job (.mapping reply))
    {kva : List KeyValue} (h : performMap job.mapf reply.filename d = some kva) :
    OnTrack job d₀ (.bucketing reply kva fun _ ↦ none) := by
  have hname := hinputs _ (List.mem_of_getElem? hassigned.1)
  have hemitted : job.emitted d₀ reply.maptaskId = kva := by
    rw [performMap, hd.inputs _ hname] at h
    simp [Job.emitted, hassigned.1, h]
  exact ⟨[], hemitted, fun b ↦ Or.inl ⟨rfl, rfl⟩⟩

theorem onTrack_openBucket {reply : MapReply} (hn : reply.nReduce = job.nReduce) {kv : KeyValue}
    {kvs : List KeyValue} {handles : ℕ → Option Handle}
    (htrack : OnTrack job d₀ (.bucketing reply (kv :: kvs) handles))
    (h : handles (bucket reply.nReduce kv.key) = none) :
    OnTrack job d₀ (.bucketing reply (kv :: kvs)
      (Function.update handles (bucket reply.nReduce kv.key) (some ⟨0, false⟩))) := by
  obtain ⟨written, hemitted, hhandles⟩ := htrack
  refine ⟨written, hemitted, fun b ↦ ?_⟩
  by_cases hb : b = bucket reply.nReduce kv.key
  · subst hb
    have hafter := hhandles (bucket reply.nReduce kv.key)
    rw [h] at hafter
    obtain ⟨-, hpairs⟩ | ⟨hsome, -⟩ := hafter
    · refine Or.inr ⟨by simp [bucketBytes, hpairs], ?_⟩
      rw [hemitted, bucketPairs_append, hn]
      simp [bucketPairs_cons]
    · cases hsome
  · rw [Function.update_of_ne hb]
    exact hhandles b

theorem onTrack_encode {reply : MapReply} (hn : reply.nReduce = job.nReduce) {kv : KeyValue}
    {kvs : List KeyValue} {handles : ℕ → Option Handle} {handle : Handle}
    (htrack : OnTrack job d₀ (.bucketing reply (kv :: kvs) handles))
    (h : handles (bucket reply.nReduce kv.key) = some handle) :
    OnTrack job d₀ (.bucketing reply kvs (encodePair reply.maptaskId (bucket reply.nReduce kv.key)
      none kv handle ⟨d, handles⟩).handles) := by
  obtain ⟨written, hemitted, hhandles⟩ := htrack
  refine ⟨written ++ [kv], by simp [hemitted], fun b ↦ ?_⟩
  have hafter := hhandles b
  by_cases hb : b = bucket reply.nReduce kv.key
  · subst hb
    rw [h] at hafter
    obtain ⟨hnone, -⟩ | ⟨hhandle, hused⟩ := hafter
    · cases hnone
    · cases hhandle
      refine Or.inr ⟨?_, hused⟩
      simp [encodePair, bucketBytes, hn, bucketPairs]
  · have hnone : bucketPairs job.nReduce b [kv] = [] := by
      simp [bucketPairs, ← hn, Ne.symm hb]
    have hsame : (encodePair reply.maptaskId (bucket reply.nReduce kv.key) none kv handle
        ⟨d, handles⟩).handles b = handles b := by
      unfold encodePair
      split
      · rfl
      · exact Function.update_of_ne hb _ _
    rw [hsame]
    simpa [HandleAfter, bucketBytes, bucketPairs_append, hnone] using hafter

theorem onTrack_readBucket (hd : job.MapFiles d₀ d)
    (hall : ∀ i < job.filenames.length, job.Written d₀ d i) {reply : ReduceReply} {name : GoString}
    {names : List GoString} {kva : List KeyValue}
    (htrack : OnTrack job d₀ (.reading reply (name :: names) kva)) :
    OnTrack job d₀ (.reading reply names (kva ++ ((d name).map decodeAll).getD [])) := by
  obtain ⟨k, hk, hrest, rfl⟩ := htrack
  have hlt : k < (reduceFiles job.filenames.length reply.reducetaskId).length := by
    by_contra hge
    rw [List.drop_eq_nil_of_le (not_lt.mp hge)] at hrest
    cases hrest
  rw [List.drop_eq_getElem_cons hlt] at hrest
  obtain ⟨rfl, rfl⟩ := List.cons.inj hrest
  have hk' : k < job.filenames.length := by simpa [reduceFiles] using hlt
  refine ⟨k + 1, hk', rfl, ?_⟩
  rw [List.range_succ, List.flatMap_append, List.flatMap_singleton]
  congr 1
  simp only [reduceFiles, List.getElem_map, List.getElem_range]
  exact Job.decode_eq_found hd (hall k hk') reply.reducetaskId

theorem onTrack_openOutput {reply : ReduceReply} {kva : List KeyValue}
    (htrack : OnTrack job d₀ (.reading reply [] kva)) :
    OnTrack job d₀ (.writing reply (reduceLines job.reducef (job.sorting.sort kva)) 0) := by
  obtain ⟨k, hk, hrest, rfl⟩ := htrack
  have hlength := List.drop_eq_nil_iff.mp hrest.symm
  simp only [reduceFiles, List.length_map, List.length_range] at hlength
  obtain rfl : k = job.filenames.length := le_antisymm hk hlength
  exact ⟨[], rfl, rfl⟩

theorem onTrack_writeLine {reply : ReduceReply} {line : GoString} {lines : List GoString} {o : ℕ}
    (htrack : OnTrack job d₀ (.writing reply (line :: lines) o)) :
    OnTrack job d₀ (.writing reply lines (o + line.length)) := by
  obtain ⟨written, hlines, rfl⟩ := htrack
  exact ⟨written ++ [line], by simp [hlines], by simp⟩

/-- An execution stays on track, if a reduce execution finds all buckets written. -/
theorem FileStep.onTrack (h : FileStep job d phase phase' d')
    (hinputs : ∀ f ∈ job.filenames, ¬ IsMrName f) (hd : job.MapFiles d₀ d)
    (hall : phase.task.kind = .reduce → ∀ i < job.filenames.length, job.Written d₀ d i)
    (hassigned : phase.Assigned job) (htrack : phase.OnTrack job d₀) : phase'.OnTrack job d₀ := by
  cases h with
  | readInput hkva => exact onTrack_readInput hinputs hd hassigned hkva
  | openBucket hb => exact onTrack_openBucket hassigned.2 htrack hb
  | encode hb => exact onTrack_encode hassigned.2 htrack hb
  | readBucket => exact onTrack_readBucket hd (hall rfl) htrack
  | openOutput => exact onTrack_openOutput htrack
  | writeLine => exact onTrack_writeLine htrack

end Phase

/-! ## What the files hold -/

/-- Every file the execution has open is no longer than it should be and, unless the execution has
crashed, holds what the execution has written. -/
def Holds (job : Job) (d₀ d : Dir) (e : Execution) : Prop :=
  ∀ f offset, e.phase.offset f = some offset → ∃ content, d f.name = some content ∧
    content.length ≤ (f.target job d₀).length ∧
      (e.status ≠ .crashed → (f.target job d₀).take offset <+: content)

/-- Executions and directory after any number of steps that leave the files undisturbed. -/
structure Intact (job : Job) (d₀ : Dir) (executions : List Execution) (d : Dir) : Prop where
  mapFiles : job.MapFiles d₀ d
  onTrack : ∀ e ∈ executions, e.phase.OnTrack job d₀
  holds : ∀ e ∈ executions, Holds job d₀ d e

section Effect

variable {job : Job} {d₀ d d' : Dir} {phase phase' : Phase}

theorem mapFiles_of_frame (hd : job.MapFiles d₀ d) {f : TaskFile} (hused : f.Used job d₀)
    (hframe : ∀ name, name ≠ f.name → d' name = d name) : job.MapFiles d₀ d' where
  inputs name hname := by
    rw [hframe name fun heq ↦ hname (heq ▸ f.name_isMrName), hd.inputs name hname]
  untouched i b hb := by
    have hne : (TaskFile.intermediate i b).name ≠ f.name := fun heq ↦ by
      cases TaskFile.name_injective heq
      exact hused hb
    exact (hframe _ hne).trans (hd.untouched i b hb)

theorem Effect.mapFiles (h : Effect job d₀ d phase phase' d') (hd : job.MapFiles d₀ d) :
    job.MapFiles d₀ d' := by
  cases h with
  | read => exact hd
  | truncate _ hused _ => exact mapFiles_of_frame hd hused fun _ ↦ create_of_ne d
  | write _ _ hused _ => exact mapFiles_of_frame hd hused fun _ hne ↦ writeAt_of_ne d hne _ _

/-- The file after a write: it keeps every part of its target and holds the new one. -/
theorem content_writeAt {f : TaskFile} {front chunk : GoString} {content : GoString}
    (hcontent : d f.name = some content) (hlength : content.length ≤ (f.target job d₀).length)
    (hfront : (f.target job d₀).take front.length <+: content)
    (hchunk : front ++ chunk <+: f.target job d₀) :
    ∃ content', writeAt d f.name front.length chunk f.name = some content' ∧
      content'.length ≤ (f.target job d₀).length ∧ front ++ chunk <+: content' ∧
      ∀ part, part <+: f.target job d₀ → part <+: content → part <+: content' := by
  have htake : (f.target job d₀).take front.length = front :=
    (List.prefix_iff_eq_take.mp ((List.prefix_append front chunk).trans hchunk)).symm
  rw [htake] at hfront
  exact ⟨_, by rw [writeAt_self, hcontent, Option.map_some], overwrite_chunk hlength hfront hchunk⟩

/-- A step keeps what other executions have written, if it opens no file they have written to. -/
theorem Effect.holds_of_other (h : Effect job d₀ d phase phase' d') {e x : Execution}
    (he : Holds job d₀ d e) (hphase : e.phase = phase) (halive : e.status ≠ .crashed)
    (hx : Holds job d₀ d x)
    (hguard : ∀ f, phase.opens = some f → x.countsOn f = false) : Holds job d₀ d' x := by
  subst hphase
  intro f' offset hoffset
  obtain ⟨content, hcontent, hlength, hpart⟩ := hx f' offset hoffset
  cases h with
  | read => exact ⟨content, hcontent, hlength, hpart⟩
  | @truncate f hopens _ _ =>
    by_cases hf : f' = f
    · subst hf
      refine ⟨[], create_self d _, Nat.zero_le _, fun hstatus ↦ ?_⟩
      have hunwritten := hguard f' hopens
      have hzero : offset = 0 := by simpa [Execution.countsOn, hstatus, hoffset] using hunwritten
      rw [hzero]
      exact List.prefix_refl []
    · exact ⟨content, by rw [create_of_ne d (TaskFile.name_injective.ne hf), hcontent], hlength,
        hpart⟩
  | @write f front chunk hfront hchunk _ _ =>
    by_cases hf : f' = f
    · subst hf
      obtain ⟨content₁, hcontent₁, -, hfront₁⟩ := he f' _ hfront
      cases hcontent.symm.trans hcontent₁
      obtain ⟨content', hcontent', hlength', -, hkeep⟩ :=
        content_writeAt hcontent hlength (hfront₁ halive) hchunk
      exact ⟨content', hcontent', hlength', fun hstatus ↦
        hkeep _ (List.take_prefix _ _) (hpart hstatus)⟩
    · exact ⟨content, by rw [writeAt_of_ne d (TaskFile.name_injective.ne hf), hcontent], hlength,
        hpart⟩

/-- After its own step an execution finds in its files what it has written. -/
theorem Effect.holds_self (h : Effect job d₀ d phase phase' d') {e : Execution}
    (he : Holds job d₀ d e) (hphase : e.phase = phase) (halive : e.status ≠ .crashed) :
    Holds job d₀ d' { e with phase := phase' } := by
  subst hphase
  intro f' offset hoffset
  dsimp only at hoffset ⊢
  cases h with
  | read hnone =>
    rw [hnone] at hoffset
    cases hoffset
  | @truncate f _ _ hoffsets =>
    rw [hoffsets] at hoffset
    split_ifs at hoffset with hf
    · subst hf
      cases hoffset
      exact ⟨[], create_self d _, Nat.zero_le _, fun _ ↦ List.prefix_refl []⟩
    · obtain ⟨content, hcontent, hrest⟩ := he f' offset hoffset
      exact ⟨content, by rw [create_of_ne d (TaskFile.name_injective.ne hf), hcontent], hrest⟩
  | @write f front chunk hfront hchunk _ hoffsets =>
    rw [hoffsets] at hoffset
    split_ifs at hoffset with hf
    · subst hf
      cases hoffset
      obtain ⟨content, hcontent, hlength, hpart⟩ := he f' _ hfront
      obtain ⟨content', hcontent', hlength', hnew, -⟩ :=
        content_writeAt hcontent hlength (hpart halive) hchunk
      refine ⟨content', hcontent', hlength', fun _ ↦ ?_⟩
      rwa [← List.prefix_iff_eq_take.mp hchunk]
    · obtain ⟨content, hcontent, hrest⟩ := he f' offset hoffset
      exact ⟨content, by rw [writeAt_of_ne d (TaskFile.name_injective.ne hf), hcontent], hrest⟩

end Effect

section Runs

open Cluster

variable {job : Job} {d₀ : Dir} {s t : Cluster}

/-- An execution that has written all its files and sent its report has left them complete. -/
theorem content_of_reported (hfiles : Intact job d₀ s.executions s.dir) {e : Execution}
    (he : e ∈ s.executions) (hstatus : e.status = .reported) {f : TaskFile}
    (hoffset : e.phase.offset f = some (f.target job d₀).length) :
    s.dir f.name = some (f.target job d₀) := by
  obtain ⟨content, hcontent, hlength, hpart⟩ := hfiles.holds e he f _ hoffset
  have hprefix := hpart (by simp [hstatus])
  rw [List.take_length] at hprefix
  rw [hcontent, hprefix.eq_of_length_le hlength]

theorem written_of_isComplete (hs : s.Consistent job) (hfiles : Intact job d₀ s.executions s.dir)
    {i : ℕ} (h : s.coordinator.IsComplete (.map i)) : job.Written d₀ s.dir i := by
  obtain ⟨e, he, htask, hfinished, hstatus⟩ := hs.complete _ h
  have htrack := hfiles.onTrack e he
  intro b hb
  cases hphase : e.phase with
  | bucketing reply rest handles =>
    rw [hphase] at htask hfinished htrack
    obtain rfl : reply.maptaskId = i := congrArg Task.id htask
    cases rest with
    | cons kv kvs => cases hfinished
    | nil =>
      obtain ⟨written, hemitted, hhandles⟩ := htrack
      rw [List.append_nil] at hemitted
      subst hemitted
      obtain ⟨-, hnone⟩ | ⟨hhandle, -⟩ := hhandles b
      · exact absurd hnone hb
      · have hoffset : e.phase.offset (.intermediate reply.maptaskId b) =
            some (TaskFile.target job d₀ (.intermediate reply.maptaskId b)).length := by
          simp [hphase, Phase.offset, hhandle, TaskFile.target]
        exact content_of_reported hfiles he hstatus hoffset
  | mapping reply => rw [hphase] at hfinished; cases hfinished
  | reading reply rest kva => rw [hphase] at htask; cases htask
  | writing reply lines offset => rw [hphase] at htask; cases htask

theorem output_of_isComplete (hs : s.Consistent job) (hfiles : Intact job d₀ s.executions s.dir)
    {r : ℕ} (h : s.coordinator.IsComplete (.reduce r)) :
    s.dir (outName r) = some (job.output d₀ r) := by
  obtain ⟨e, he, htask, hfinished, hstatus⟩ := hs.complete _ h
  have htrack := hfiles.onTrack e he
  cases hphase : e.phase with
  | writing reply lines offset =>
    rw [hphase] at htask hfinished htrack
    obtain rfl : reply.reducetaskId = r := congrArg Task.id htask
    cases lines with
    | cons line lines => cases hfinished
    | nil =>
      obtain ⟨written, hlines, rfl⟩ := htrack
      rw [List.append_nil] at hlines
      have hoffset : e.phase.offset (.out reply.reducetaskId) =
          some (TaskFile.target job d₀ (.out reply.reducetaskId)).length := by
        simp [hphase, Phase.offset, TaskFile.target, Job.output, hlines]
      exact content_of_reported hfiles he hstatus hoffset
  | mapping reply => rw [hphase] at htask; cases htask
  | bucketing reply rest handles => rw [hphase] at htask; cases htask
  | reading reply rest kva => rw [hphase] at hfinished; cases hfinished

/-! ## Every undisturbed run -/

/-- The map tasks are complete when a reduce task is executed. -/
theorem written_of_reduce (hs : s.Consistent job) (hfiles : Intact job d₀ s.executions s.dir)
    {e : Execution} (he : e ∈ s.executions) (hkind : e.phase.task.kind = .reduce) :
    ∀ i < job.filenames.length, job.Written d₀ s.dir i := by
  intro i hi
  have hlt := (hs.mem_given _).mp (hs.executions e he).1
  rw [hkind] at hlt
  rw [← hs.filenames] at hi
  exact written_of_isComplete hs hfiles (hs.valid.isComplete_map (Nat.zero_lt_of_lt hlt) hi)

theorem Intact.advance (hinputs : ∀ f ∈ job.filenames, ¬ IsMrName f) (hs : s.Consistent job)
    (hfiles : Intact job d₀ s.executions s.dir) {k : ℕ} {e : Execution} {phase : Phase} {d : Dir}
    (he : s.executions[k]? = some e) (hrunning : e.status = .running)
    (h : Phase.FileStep job s.dir e.phase phase d) (hguard : Undisturbed s (.advance k)) :
    Intact job d₀ (s.executions.set k { e with phase }) d := by
  have hmem := List.mem_of_getElem? he
  have hassigned := (hs.executions e hmem).2
  have htrack := hfiles.onTrack e hmem
  have halive : e.status ≠ .crashed := by simp [hrunning]
  have heffect := h.effect hassigned htrack
  have hwritten := written_of_reduce hs hfiles hmem
  refine ⟨heffect.mapFiles hfiles.mapFiles, fun x hx ↦ ?_, fun x hx ↦ ?_⟩
  · rcases List.mem_or_eq_of_mem_set hx with hx | rfl
    · exact hfiles.onTrack x hx
    · exact h.onTrack hinputs hfiles.mapFiles hwritten hassigned htrack
  · obtain ⟨j, hj⟩ := List.mem_iff_getElem?.mp hx
    by_cases hjk : k = j
    · subst hjk
      rw [List.getElem?_set_self (List.getElem?_eq_some_iff.mp he).1] at hj
      cases hj
      exact heffect.holds_self (hfiles.holds e hmem) rfl halive
    · rw [List.getElem?_set_ne hjk] at hj
      exact heffect.holds_of_other (hfiles.holds e hmem) rfl halive
        (hfiles.holds x (List.mem_of_getElem? hj)) fun f hopens ↦
          hguard e he f hopens j (List.getElem?_eq_some_iff.mp hj).1 (Ne.symm hjk) x hj

/-- Changes of status that revive nobody. -/
theorem Intact.of_phases {executions executions' : List Execution} {d : Dir}
    (h : Intact job d₀ executions d)
    (hsame : ∀ x ∈ executions', ∃ e ∈ executions, x.phase = e.phase ∧
      (x.status ≠ .crashed → e.status ≠ .crashed)) : Intact job d₀ executions' d where
  mapFiles := h.mapFiles
  onTrack x hx := by
    obtain ⟨e, he, hphase, -⟩ := hsame x hx
    exact hphase ▸ h.onTrack e he
  holds x hx f offset hoffset := by
    obtain ⟨e, he, hphase, hstatus⟩ := hsame x hx
    obtain ⟨content, hcontent, hlength, hpart⟩ := h.holds e he f offset (hphase ▸ hoffset)
    exact ⟨content, hcontent, hlength, hpart ∘ hstatus⟩

/-- An execution that begins has no file open. -/
theorem Intact.append {executions : List Execution} {d : Dir} (h : Intact job d₀ executions d)
    {e : Execution} (htrack : e.phase.OnTrack job d₀) (hnone : ∀ f, e.phase.offset f = none) :
    Intact job d₀ (executions ++ [e]) d where
  mapFiles := h.mapFiles
  onTrack x hx := by
    rcases List.mem_append.mp hx with hx | hx
    · exact h.onTrack x hx
    · exact List.mem_singleton.mp hx ▸ htrack
  holds x hx := by
    rcases List.mem_append.mp hx with hx | hx
    · exact h.holds x hx
    · intro f offset hoffset
      rw [List.mem_singleton.mp hx, hnone] at hoffset
      cases hoffset

theorem Intact.append_map {executions : List Execution} {d : Dir} (h : Intact job d₀ executions d)
    (worker : ℕ) (reply : MapReply) (status : Status) :
    Intact job d₀ (executions ++ [⟨worker, .ofMap reply, status⟩]) d :=
  h.append trivial fun f ↦ by cases f <;> rfl

theorem Intact.append_reduce {executions : List Execution} {d : Dir}
    (h : Intact job d₀ executions d) (worker : ℕ) {reply : ReduceReply}
    (hfiles : reply.reducefiles = reduceFiles job.filenames.length reply.reducetaskId)
    (status : Status) : Intact job d₀ (executions ++ [⟨worker, .ofReduce reply, status⟩]) d :=
  h.append ⟨0, Nat.zero_le _, hfiles, rfl⟩ fun f ↦ by cases f <;> rfl

theorem Intact.step (hinputs : ∀ f ∈ job.filenames, ¬ IsMrName f) (hs : s.Consistent job)
    (hfiles : Intact job d₀ s.executions s.dir) {event : Event} (hguard : Undisturbed s event)
    (h : s.step job event = some t) : Intact job d₀ t.executions t.dir := by
  cases transition_of_step h with
  | advance he hrunning hstep => exact hfiles.advance hinputs hs he hrunning hstep hguard
  | giveMap worker hgive => exact hfiles.append_map worker _ _
  | giveReduce worker hmap hlt =>
    have hassigned := hs.valid.reducefiles_eq hmap
    rw [hs.filenames] at hassigned
    exact hfiles.append_reduce worker hassigned _
  | @redo m monitor visit phase worker hmonitor hredo =>
    have hassigned := (hs.monitors _ (List.mem_of_getElem? hmonitor)).2
    cases monitor with
    | map taskId =>
      obtain ⟨filename, -, rfl⟩ := Option.map_eq_some_iff.mp hredo
      exact hfiles.append_map worker _ _
    | reduce reply =>
      cases hredo
      exact hfiles.append_reduce worker hassigned _
  | crash _ worker =>
    refine hfiles.of_phases fun x hx ↦ ?_
    obtain ⟨e, he, rfl⟩ := List.mem_map.mp hx
    refine ⟨e, he, ?_⟩
    unfold Execution.crash
    split
    · exact ⟨rfl, fun hne ↦ absurd rfl hne⟩
    · exact ⟨rfl, id⟩
  | report he hrunning hfinished =>
    refine hfiles.of_phases fun x hx ↦ ?_
    rcases List.mem_or_eq_of_mem_set hx with hx | rfl
    · exact ⟨x, hx, rfl, id⟩
    · exact ⟨_, List.mem_of_getElem? he, rfl, fun _ ↦ by simp [hrunning]⟩
  | register => exact hfiles
  | noTask => exact hfiles
  | deliver => exact hfiles
  | endMonitor => exact hfiles
  | fatal => exact hfiles
  | panic => exact hfiles

/-- **Files of completed tasks are complete** in every state reached by steps that open a file only
while every other execution that has written to it has crashed without sending its report.  Handler
calls are one step each here, so a task counted twice by two overlapping reports is not among these
states. -/
theorem complete_of_undisturbed (job : Job) (d₀ : Dir)
    (hinputs : ∀ f ∈ job.filenames, ¬ IsMrName f) {s : Cluster}
    (h : (job.cluster d₀).ReachableWhen Undisturbed s) :
    (∀ i, s.coordinator.IsComplete (.map i) → ∀ b,
      bucketPairs job.nReduce b (job.emitted d₀ i) ≠ [] →
        s.dir (intermediateName i b) = some (bucketBytes job.nReduce b (job.emitted d₀ i))) ∧
    ∀ r, s.coordinator.IsComplete (.reduce r) → s.dir (outName r) = some (job.output d₀ r) := by
  have hinit : Intact job d₀ (job.cluster d₀).init.executions (job.cluster d₀).init.dir :=
    ⟨.refl, fun _ he ↦ absurd he List.not_mem_nil, fun _ he ↦ absurd he List.not_mem_nil⟩
  have hboth : s.Consistent job ∧ Intact job d₀ s.executions s.dir := by
    refine Machine.ReachableFrom.invariant
      (I := fun s ↦ s.Consistent job ∧ Intact job d₀ s.executions s.dir) h
      ⟨consistent_initial job d₀, hinit⟩ fun s event t hs hguard hstep ↦ ?_
    exact ⟨hs.1.step hstep, hs.2.step hinputs hs.1 hguard hstep⟩
  exact ⟨fun i hi ↦ written_of_isComplete hboth.1 hboth.2 hi,
    fun r hr ↦ output_of_isComplete hboth.1 hboth.2 hr⟩

/-- One worker executes the map task of `sample` and then its first reduce task. -/
theorem complete_of_undisturbed_sample :
    ∃ s, (Job.sample.cluster Job.sampleDir).ReachableWhen Undisturbed s ∧
      s.coordinator.IsComplete (.reduce 0) ∧
      s.dir (outName 0) = some (Job.sample.output Job.sampleDir 0) := by
  have hrun : ∃ s, (Job.sample.cluster Job.sampleDir).ReachableWhen Undisturbed s ∧
      s.coordinator.IsComplete (.reduce 0) :=
    Machine.exists_reachableWhen
      [.registerWorker 1, .giveMapTask 1, .advance 0, .advance 0, .advance 0, .advance 0,
        .advance 0, .advance 0, .report 0, .deliver (.map 0), .giveReduceTask 1, .advance 1,
        .advance 1, .advance 1, .report 1, .deliver (.reduce 0)]
      (by decide +kernel)
  obtain ⟨s, hs, hcomplete⟩ := hrun
  exact ⟨s, hs, hcomplete, (complete_of_undisturbed _ _ (by decide) hs).2 0 hcomplete⟩

/-- A monitor has the task of a slow worker executed again.  The slow worker finishes and reports,
and then the second execution opens a bucket file: the task is complete and the file is empty. -/
theorem truncated_after_report :
    bucketPairs Job.sample.nReduce 1 (Job.sample.emitted Job.sampleDir 0) ≠ [] ∧
    ∃ s, (Job.sample.cluster Job.sampleDir).Reachable s ∧ s.coordinator.IsComplete (.map 0) ∧
      s.dir (intermediateName 0 1) = some [] := by
  refine ⟨by decide, Machine.exists_reachable
    [.registerWorker 1, .registerWorker 2, .giveMapTask 1,
      .wake 0 [(2, workerSocket 2), (1, workerSocket 1)], .advance 0, .advance 0, .advance 0,
      .advance 0, .advance 0, .advance 0, .report 0, .deliver (.map 0), .advance 1, .advance 1]
    (by decide +kernel)⟩

end Runs

end DistKvRaft.MapReduce
