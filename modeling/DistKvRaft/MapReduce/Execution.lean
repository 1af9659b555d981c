import DistKvRaft.MapReduce.Coordinator
import DistKvRaft.MapReduce.Pipeline
import Mathlib.Logic.Relation

/-!
# Executions of tasks in file-level steps

`map_exec` and `reduce_exec` cut into their file operations: one step reads an input file, opens a
bucket or output file with truncation, writes one record or one line at the execution's own offset,
or reads one bucket file.  Executions of the same task share file names, so what they leave depends
on how such steps interleave; an execution that is left alone does what the uninterrupted
`Job.mapExec` and `Job.reduceExec` do.
-/

namespace DistKvRaft.MapReduce

open Go FileStore

/-- Where an execution stands between two file-level steps. -/
inductive Phase
  /-- before `perform_map` -/
  | mapping (reply : MapReply)
  /-- in the bucket loop, with the pairs still to be written -/
  | bucketing (reply : MapReply) (rest : List KeyValue) (handles : ℕ → Option Handle)
  /-- in `read_intermediates`, with the files still to be read -/
  | reading (reply : ReduceReply) (rest : List GoString) (kva : List KeyValue)
  /-- in `perform_reduce`, with the lines still to be written -/
  | writing (reply : ReduceReply) (lines : List GoString) (offset : ℕ)

/-- Why there is no next step: the files are written, or the worker ends in `log.Fatalf` or in a
division by zero. -/
inductive Stop
  | finished
  | fatal
  deriving DecidableEq

namespace Phase

/-- The start of `map_exec`. -/
def ofMap (reply : MapReply) : Phase := .mapping reply

/-- The start of `reduce_exec`. -/
def ofReduce (reply : ReduceReply) : Phase := .reading reply reply.reducefiles []

def task : Phase → Task
  | .mapping reply => .map reply.maptaskId
  | .bucketing reply _ _ => .map reply.maptaskId
  | .reading reply _ _ => .reduce reply.reducetaskId
  | .writing reply _ _ => .reduce reply.reducetaskId

/-- The next file-level step. -/
def advance (job : Job) (d : Dir) : Phase → Except Stop (Phase × Dir)
  | .mapping reply =>
    match performMap job.mapf reply.filename d with
    | none => .error .fatal
    | some kva => .ok (.bucketing reply kva fun _ ↦ none, d)
  | .bucketing _ [] _ => .error .finished
  | .bucketing reply (kv :: kvs) handles =>
    let b := bucket reply.nReduce kv.key
    if reply.nReduce = 0 then .error .fatal
    else match handles b with
      | none =>
        let st := openBucket reply.maptaskId b ⟨d, handles⟩
        .ok (.bucketing reply (kv :: kvs) st.handles, st.dir)
      | some h =>
        let st := encodePair reply.maptaskId b none kv h ⟨d, handles⟩
        .ok (.bucketing reply kvs st.handles, st.dir)
  | .reading reply (name :: names) kva =>
    .ok (.reading reply names (kva ++ ((d name).map decodeAll).getD []), d)
  | .reading reply [] kva =>
    .ok (.writing reply (reduceLines job.reducef (job.sorting.sort kva)) 0,
      create d (outName reply.reducetaskId))
  | .writing reply (line :: lines) offset =>
    .ok (.writing reply lines (offset + line.length),
      writeAt d (outName reply.reducetaskId) offset line)
  | .writing _ [] _ => .error .finished

/-- All files of the execution are written. -/
def isFinished : Phase → Bool
  | .bucketing _ [] _ => true
  | .writing _ [] _ => true
  | _ => false

/-- Steps of one execution with nobody else on its files. -/
def Alone (job : Job) : Phase × Dir → Phase × Dir → Prop :=
  Relation.ReflTransGen fun p q ↦ p.1.advance job p.2 = .ok q

/-- The file-level steps, one case for each. -/
inductive FileStep (job : Job) (d : Dir) : Phase → Phase → Dir → Prop
  | readInput {reply : MapReply} {kva : List KeyValue}
      (h : performMap job.mapf reply.filename d = some kva) :
      FileStep job d (.mapping reply) (.bucketing reply kva fun _ ↦ none) d
  | openBucket {reply : MapReply} {kv : KeyValue} {kvs : List KeyValue}
      {handles : ℕ → Option Handle} (h : handles (bucket reply.nReduce kv.key) = none) :
      FileStep job d (.bucketing reply (kv :: kvs) handles)
        (.bucketing reply (kv :: kvs)
          (Function.update handles (bucket reply.nReduce kv.key) (some ⟨0, false⟩)))
        (create d (intermediateName reply.maptaskId (bucket reply.nReduce kv.key)))
  | encode {reply : MapReply} {kv : KeyValue} {kvs : List KeyValue}
      {handles : ℕ → Option Handle} {handle : Handle}
      (h : handles (bucket reply.nReduce kv.key) = some handle) :
      FileStep job d (.bucketing reply (kv :: kvs) handles)
        (.bucketing reply kvs
          (encodePair reply.maptaskId (bucket reply.nReduce kv.key) none kv handle
            ⟨d, handles⟩).handles)
        (encodePair reply.maptaskId (bucket reply.nReduce kv.key) none kv handle ⟨d, handles⟩).dir
  | readBucket {reply : ReduceReply} {name : GoString} {names : List GoString}
      {kva : List KeyValue} :
      FileStep job d (.reading reply (name :: names) kva)
        (.reading reply names (kva ++ ((d name).map decodeAll).getD [])) d
  | openOutput {reply : ReduceReply} {kva : List KeyValue} :
      FileStep job d (.reading reply [] kva)
        (.writing reply (reduceLines job.reducef (job.sorting.sort kva)) 0)
        (create d (outName reply.reducetaskId))
  | writeLine {reply : ReduceReply} {line : GoString} {lines : List GoString} {offset : ℕ} :
      FileStep job d (.writing reply (line :: lines) offset)
        (.writing reply lines (offset + line.length))
        (writeAt d (outName reply.reducetaskId) offset line)

section

variable {job : Job} {d d' : Dir} {phase phase' : Phase}

theorem fileStep_of_advance (h : phase.advance job d = .ok (phase', d')) :
    FileStep job d phase phase' d' := by
  cases phase with
  | mapping reply =>
    simp only [advance] at h
    split at h
    · cases h
    · next hkva => cases h; exact .readInput hkva
  | bucketing reply rest handles =>
    cases rest with
    | nil => cases h
    | cons kv kvs =>
      simp only [advance] at h
      split at h
      · cases h
      · split at h
        · next hb => cases h; exact .openBucket hb
        · next hb => cases h; exact .encode hb
  | reading reply rest kva =>
    cases rest with
    | nil => cases h; exact .openOutput
    | cons name names => cases h; exact .readBucket
  | writing reply lines offset =>
    cases lines with
    | nil => cases h
    | cons line lines => cases h; exact .writeLine

theorem FileStep.task_eq (h : FileStep job d phase phase' d') : phase'.task = phase.task := by
  cases h <;> rfl

end

/-! ## Executions that are left alone -/

variable (job : Job)

/-- One iteration of the bucket loop is one step, or two where it opens the bucket. -/
theorem alone_bucketIteration {reply : MapReply} (hpos : reply.nReduce ≠ 0) (i : ℕ) (kv : KeyValue)
    (kvs : List KeyValue) (st : BucketState) :
    let st' := bucketIteration .none reply.maptaskId reply.nReduce i kv st
    Alone job (.bucketing reply (kv :: kvs) st.handles, st.dir)
      (.bucketing reply kvs st'.handles, st'.dir) := by
  obtain ⟨d, handles⟩ := st
  cases hb : handles (bucket reply.nReduce kv.key) with
  | some h => exact .single (by simp [bucketIteration, advance, hpos, hb, Faults.none])
  | none =>
    have hopen : advance job d (.bucketing reply (kv :: kvs) handles) = .ok
        (.bucketing reply (kv :: kvs)
          (openBucket reply.maptaskId (bucket reply.nReduce kv.key) ⟨d, handles⟩).handles,
          (openBucket reply.maptaskId (bucket reply.nReduce kv.key) ⟨d, handles⟩).dir) := by
      simp [advance, hpos, hb]
    refine .head hopen (.single ?_)
    simp [bucketIteration, advance, hpos, hb, MapReduce.openBucket, Faults.none]

theorem alone_bucketLoop {reply : MapReply} {kva : List KeyValue}
    (hpos : kva ≠ [] → reply.nReduce ≠ 0) (i : ℕ) (st : BucketState) :
    let st' := bucketLoop .none reply.maptaskId reply.nReduce i kva st
    Alone job (.bucketing reply kva st.handles, st.dir)
      (.bucketing reply [] st'.handles, st'.dir) := by
  induction kva generalizing i st with
  | nil => exact .refl
  | cons kv kvs ih =>
    have hne := hpos (List.cons_ne_nil kv kvs)
    exact (alone_bucketIteration job hne i kv kvs st).trans (ih (fun _ ↦ hne) (i + 1) _)

/-- A map execution that is left alone leaves the directory of the uninterrupted one. -/
theorem alone_mapExec {job : Job} {i : ℕ} {filename : GoString}
    (hfile : job.filenames[i]? = some filename) {d d' : Dir} (h : job.mapExec i d = some d') :
    ∃ handles, Alone job (.ofMap ⟨job.nReduce, filename, i⟩, d)
      (.bucketing ⟨job.nReduce, filename, i⟩ [] handles, d') := by
  simp only [Job.mapExec, hfile, Option.bind_eq_bind, Option.bind_some] at h
  obtain ⟨kva, hkva, hd'⟩ := Option.bind_eq_some_iff.mp h
  split_ifs at hd' with hzero
  cases hd'
  have hpos : kva ≠ [] → (MapReply.mk job.nReduce filename i).nReduce ≠ 0 :=
    fun hne heq ↦ hzero ⟨hne, heq⟩
  refine ⟨_, .head ?_ (alone_bucketLoop job hpos 0 ⟨d, fun _ ↦ none⟩)⟩
  simp [ofMap, advance, hkva]

theorem alone_reading (reply : ReduceReply) (d : Dir) (i : ℕ) (names : List GoString)
    (kva : List KeyValue) :
    Alone job (.reading reply names kva, d)
      (.reading reply [] (kva ++ readLoop (fun _ ↦ false) d i names), d) := by
  induction names generalizing i kva with
  | nil => rw [readLoop, List.append_nil]; exact .refl
  | cons name names ih =>
    have hrest := ih (i + 1) (kva ++ ((d name).map decodeAll).getD [])
    rw [List.append_assoc] at hrest
    exact .head (by rfl) hrest

theorem alone_writing (reply : ReduceReply) (d : Dir) (lines : List GoString) (offset : ℕ) :
    ∃ offset', Alone job (.writing reply lines offset, d)
      (.writing reply [] offset', writeChunks d (outName reply.reducetaskId) offset lines) := by
  induction lines generalizing offset d with
  | nil => exact ⟨offset, .refl⟩
  | cons line lines ih =>
    obtain ⟨offset', hrest⟩ := ih (writeAt d (outName reply.reducetaskId) offset line)
      (offset + line.length)
    exact ⟨offset', .head (by rfl) hrest⟩

/-- A reduce execution that is left alone leaves the directory of the uninterrupted one. -/
theorem alone_reduceExec (r : ℕ) (d : Dir) :
    ∃ offset, Alone job (.ofReduce ⟨r, reduceFiles job.filenames.length r⟩, d)
      (.writing ⟨r, reduceFiles job.filenames.length r⟩ [] offset, job.reduceExec r d) := by
  have hread := alone_reading job ⟨r, reduceFiles job.filenames.length r⟩ d 0
    (reduceFiles job.filenames.length r) []
  obtain ⟨offset, hwrite⟩ := alone_writing job ⟨r, reduceFiles job.filenames.length r⟩
    (create d (outName r)) (reduceLines job.reducef (job.intermediates r d)) 0
  exact ⟨offset, hread.trans (.head (by rfl) hwrite)⟩

end Phase

end DistKvRaft.MapReduce
