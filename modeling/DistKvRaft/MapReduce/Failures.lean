import DistKvRaft.Foundation.Sink
import DistKvRaft.Go.JsonGrammar
import DistKvRaft.MapReduce.Coordinator
import DistKvRaft.MapReduce.Pipeline

/-!
# Tasks that fail without notice

`map_exec` and `reduce_exec` report their task whatever happened to its files.  A map task skips the
pairs of a bucket until its file can be opened and drops those behind a failed `Encode`; a reduce
task takes a file that cannot be opened, and the first malformed record of a file, for its end.

For every pattern of failures and every content of the files the theorems say what the task leaves
or reads, and when that is everything.
-/

namespace DistKvRaft.MapReduce

open Go FileStore

/-- `map_exec`: the directory it leaves and the task whose `CheckLastMapDone` it sends; `none` where
the worker ends in `log.Fatalf` or in a division by zero. -/
def mapExec (faults : Faults) (mapf : GoString → GoString → List KeyValue) (reply : MapReply)
    (d : Dir) : Option (Dir × Task) := do
  let kva ← performMap mapf reply.filename d
  if kva ≠ [] ∧ reply.nReduce = 0 then none
  else pure (bucketByIntermediateKey faults kva reply.maptaskId reply.nReduce d,
    .map reply.maptaskId)

/-- `reduce_exec`: the directory it leaves and the task whose `CheckLastReduceDone` it sends. -/
def reduceExec (sorting : ByKeySort) (openFails : ℕ → Bool)
    (reducef : GoString → List GoString → GoString) (reply : ReduceReply) (d : Dir) : Dir × Task :=
  (performReduce reducef (readIntermediates sorting openFails reply.reducefiles d)
    (outName reply.reducetaskId) d, .reduce reply.reducetaskId)

/-- Without failures this is the execution of a map task of a job. -/
theorem mapExec_none (job : Job) {i : ℕ} {filename : GoString}
    (hi : job.filenames[i]? = some filename) (d : Dir) :
    (mapExec .none job.mapf ⟨job.nReduce, filename, i⟩ d).map Prod.fst = job.mapExec i d := by
  unfold mapExec Job.mapExec
  rw [hi]
  cases hmap : performMap job.mapf filename d with
  | none => simp [hmap]
  | some kva =>
    by_cases hzero : kva ≠ [] ∧ job.nReduce = 0 <;> simp [hmap, hzero]

theorem reduceExec_none (job : Job) (r : ℕ) (d : Dir) :
    (reduceExec job.sorting (fun _ ↦ false) job.reducef
      ⟨r, reduceFiles job.filenames.length r⟩ d).1 = job.reduceExec r d := rfl

/-! ## What the bucket loop leaves -/

section BucketLoop

variable (faults : Faults) (taskId nReduce : ℕ)

/-- The operations of the loop on one bucket: the pairs of the bucket with their faults. -/
def attempts (b i : ℕ) (kva : List KeyValue) : List (Sink.Attempt Byte) :=
  ((kva.zipIdx i).filter fun pair ↦ bucket nReduce pair.1.key = b).map fun pair ↦
    ⟨faults.openFails pair.2, encodeKeyValue pair.1, faults.encodeFails pair.2⟩

/-- If the bucket is open, its handle stands at the end of its file. -/
def BucketState.AtEnd (st : BucketState) (b : ℕ) : Prop :=
  ∀ h, st.handles b = some h →
    ∃ content, st.dir (intermediateName taskId b) = some content ∧ content.length = h.offset

/-- The content of the file of a bucket once the pairs `kva` are processed from state `st` on. -/
def contentAfter (b i : ℕ) (kva : List KeyValue) (st : BucketState) : Option GoString :=
  match st.handles b with
  | some h => (st.dir (intermediateName taskId b)).map fun content ↦
    content ++ if h.failed then [] else Sink.written (attempts faults nReduce b i kva)
  | none => (Sink.stored (attempts faults nReduce b i kva)).or (st.dir (intermediateName taskId b))

variable {faults taskId nReduce} {st : BucketState}

theorem attempts_cons (b i : ℕ) (kv : KeyValue) (kva : List KeyValue) :
    attempts faults nReduce b i (kv :: kva) =
      if bucket nReduce kv.key = b then
        ⟨faults.openFails i, encodeKeyValue kv, faults.encodeFails i⟩ ::
          attempts faults nReduce b (i + 1) kva
      else attempts faults nReduce b (i + 1) kva := by
  rw [attempts, List.zipIdx_cons, List.filter_cons]
  by_cases hb : bucket nReduce kv.key = b
  · simp [hb, attempts]
  · simp [hb, attempts]

theorem total_attempts (faults : Faults) (nReduce b i : ℕ) (kva : List KeyValue) :
    Sink.total (attempts faults nReduce b i kva) = bucketBytes nReduce b kva := by
  induction kva generalizing i with
  | nil => rfl
  | cons kv kva ih =>
    rw [attempts_cons, bucketBytes, bucketPairs_cons]
    split_ifs
    · rw [Sink.total_cons, ih, List.flatMap_cons]
      rfl
    · exact ih (i + 1)

theorem encodeKeyValue_ne_nil (kv : KeyValue) : encodeKeyValue kv ≠ [] := by
  simp [encodeKeyValue]

theorem bytes_ne_nil {b i : ℕ} {kva : List KeyValue} {attempt : Sink.Attempt Byte}
    (h : attempt ∈ attempts faults nReduce b i kva) : attempt.bytes ≠ [] := by
  obtain ⟨pair, -, rfl⟩ := List.mem_map.mp h
  exact encodeKeyValue_ne_nil pair.1

/-- What an attempt to write a record adds to the file. -/
def chunk (fault : Option ℕ) (kv : KeyValue) : GoString :=
  match fault with
  | none => encodeKeyValue kv
  | some count => (encodeKeyValue kv).take count

theorem written_cons (openFails : Bool) (fault : Option ℕ) (kv : KeyValue)
    (rest : List (Sink.Attempt Byte)) :
    Sink.written (⟨openFails, encodeKeyValue kv, fault⟩ :: rest) =
      chunk fault kv ++ if fault.isSome then [] else Sink.written rest := by
  cases fault with
  | none => rfl
  | some count => simp [Sink.written, chunk]

/-- A write through an intact handle at the end of its file. -/
theorem encodePair_eq {b : ℕ} {h : Handle} (hfailed : h.failed = false) {content : GoString}
    (hcontent : st.dir (intermediateName taskId b) = some content)
    (hlength : content.length = h.offset) (fault : Option ℕ) (kv : KeyValue) :
    (encodePair taskId b fault kv h st).dir (intermediateName taskId b) =
        some (content ++ chunk fault kv) ∧
      (encodePair taskId b fault kv h st).handles b =
        some ⟨(content ++ chunk fault kv).length, fault.isSome⟩ := by
  have hpair : encodePair taskId b fault kv h st =
      ⟨writeAt st.dir (intermediateName taskId b) h.offset (chunk fault kv),
        Function.update st.handles b
          (some ⟨h.offset + (chunk fault kv).length, fault.isSome⟩)⟩ := by
    unfold encodePair
    rw [if_neg (by simp [hfailed])]
    rfl
  rw [hpair, ← hlength, List.length_append]
  exact ⟨writeAt_end _ _ hcontent _, Function.update_self ..⟩

/-- An iteration leaves the other buckets alone. -/
theorem bucketIteration_of_ne (faults : Faults) (taskId : ℕ) (st : BucketState) (i : ℕ) {b : ℕ}
    {kv : KeyValue} (hb : b ≠ bucket nReduce kv.key) :
    (bucketIteration faults taskId nReduce i kv st).dir (intermediateName taskId b) =
        st.dir (intermediateName taskId b) ∧
      (bucketIteration faults taskId nReduce i kv st).handles b = st.handles b := by
  have hname : intermediateName taskId b ≠ intermediateName taskId (bucket nReduce kv.key) :=
    intermediateName_ne hb
  have hencode (h : Handle) (st : BucketState) :
      (encodePair taskId (bucket nReduce kv.key) (faults.encodeFails i) kv h st).dir
          (intermediateName taskId b) = st.dir (intermediateName taskId b) ∧
        (encodePair taskId (bucket nReduce kv.key) (faults.encodeFails i) kv h st).handles b =
          st.handles b := by
    unfold encodePair
    split_ifs
    · exact ⟨rfl, rfl⟩
    · exact ⟨writeAt_of_ne _ hname _ _, Function.update_of_ne hb _ _⟩
  unfold bucketIteration
  dsimp only
  cases st.handles (bucket nReduce kv.key) with
  | some h => exact hencode h st
  | none =>
    dsimp only
    split_ifs
    · exact ⟨rfl, rfl⟩
    · obtain ⟨hdir, hhandles⟩ := hencode ⟨0, false⟩ (openBucket taskId (bucket nReduce kv.key) st)
      rw [hdir, hhandles]
      exact ⟨create_of_ne _ hname, Function.update_of_ne hb _ _⟩

/-- An iteration that finds its bucket open. -/
theorem bucketIteration_of_some {i : ℕ} {kv : KeyValue} {h : Handle}
    (hb : st.handles (bucket nReduce kv.key) = some h) :
    bucketIteration faults taskId nReduce i kv st =
      encodePair taskId (bucket nReduce kv.key) (faults.encodeFails i) kv h st := by
  simp [bucketIteration, hb]

/-- An iteration that finds its bucket closed. -/
theorem bucketIteration_of_none {i : ℕ} {kv : KeyValue}
    (hb : st.handles (bucket nReduce kv.key) = none) :
    bucketIteration faults taskId nReduce i kv st =
      if faults.openFails i then st
      else encodePair taskId (bucket nReduce kv.key) (faults.encodeFails i) kv ⟨0, false⟩
        (openBucket taskId (bucket nReduce kv.key) st) := by
  simp [bucketIteration, hb]

theorem encodePair_of_failed {b : ℕ} {h : Handle} (hfailed : h.failed = true) (fault : Option ℕ)
    (kv : KeyValue) : encodePair taskId b fault kv h st = st := by
  simp [encodePair, hfailed]

/-- A state whose file of the bucket was just written to the end. -/
theorem atEnd_of_written {b : ℕ} {content : GoString} {failed : Bool}
    (hdir : st.dir (intermediateName taskId b) = some content)
    (hhandle : st.handles b = some ⟨content.length, failed⟩) : st.AtEnd taskId b := by
  intro h hh
  cases hhandle.symm.trans hh
  exact ⟨content, hdir, rfl⟩

/-- One iteration, seen from one bucket: it keeps the handle at the end of the file and does not
change what the file holds in the end. -/
theorem bucketIteration_contentAfter {b : ℕ} (hst : st.AtEnd taskId b) (i : ℕ) (kv : KeyValue)
    (kva : List KeyValue) :
    (bucketIteration faults taskId nReduce i kv st).AtEnd taskId b ∧
      contentAfter faults taskId nReduce b (i + 1) kva
          (bucketIteration faults taskId nReduce i kv st) =
        contentAfter faults taskId nReduce b i (kv :: kva) st := by
  by_cases hb : b = bucket nReduce kv.key
  · subst hb
    cases hhandle : st.handles (bucket nReduce kv.key) with
    | some h =>
      rw [bucketIteration_of_some hhandle]
      obtain ⟨content, hcontent, hlength⟩ := hst h hhandle
      cases hfailed : h.failed with
      | true =>
        rw [encodePair_of_failed hfailed]
        refine ⟨hst, ?_⟩
        simp only [contentAfter, hhandle, hfailed, if_true]
      | false =>
        obtain ⟨hdir, hnew⟩ := encodePair_eq hfailed hcontent hlength (faults.encodeFails i) kv
        refine ⟨atEnd_of_written hdir hnew, ?_⟩
        simp only [contentAfter, hnew, hdir, hhandle, hcontent, hfailed, Option.map_some,
          attempts_cons, if_true, written_cons, List.append_assoc, Bool.false_eq_true, if_false]
    | none =>
      rw [bucketIteration_of_none hhandle]
      cases hopen : faults.openFails i with
      | true =>
        refine ⟨hst, ?_⟩
        simp only [contentAfter, hhandle, attempts_cons, if_true, Sink.stored, hopen]
      | false =>
        have hcreated : (openBucket taskId (bucket nReduce kv.key) st).dir
            (intermediateName taskId (bucket nReduce kv.key)) = some [] := create_self _ _
        obtain ⟨hdir, hnew⟩ := encodePair_eq (h := ⟨0, false⟩) rfl hcreated rfl
          (faults.encodeFails i) kv
        refine ⟨atEnd_of_written hdir hnew, ?_⟩
        simp only [contentAfter, hnew, hdir, hhandle, Option.map_some, attempts_cons, if_true,
          Sink.stored, hopen, Bool.false_eq_true, if_false, Option.some_or, written_cons,
          List.nil_append]
  · obtain ⟨hdir, hhandles⟩ := bucketIteration_of_ne faults taskId st i hb
    refine ⟨fun h hh ↦ ?_, ?_⟩
    · rw [hhandles] at hh
      rw [hdir]
      exact hst h hh
    · simp only [contentAfter, hhandles, hdir, attempts_cons, Ne.symm hb, if_false]

/-- **Bucket files under failures.** -/
theorem bucketLoop_contentAfter {b : ℕ} (hst : st.AtEnd taskId b) (i : ℕ) (kva : List KeyValue) :
    (bucketLoop faults taskId nReduce i kva st).dir (intermediateName taskId b) =
      contentAfter faults taskId nReduce b i kva st := by
  induction kva generalizing i st with
  | nil =>
    unfold contentAfter bucketLoop
    cases hhandle : st.handles b with
    | none => rfl
    | some h =>
      obtain ⟨content, hcontent, -⟩ := hst h hhandle
      simp [hcontent, attempts, Sink.written]
  | cons kv kva ih =>
    obtain ⟨hnext, hcontent⟩ := bucketIteration_contentAfter hst i kv kva
    rw [bucketLoop, ih hnext, hcontent]

end BucketLoop

/-! ## Map tasks -/

section Map

variable {faults : Faults} {kva : List KeyValue} {taskId nReduce : ℕ} {d : Dir} {b : ℕ}

theorem bucketByIntermediateKey_eq_stored :
    bucketByIntermediateKey faults kva taskId nReduce d (intermediateName taskId b) =
      (Sink.stored (attempts faults nReduce b 0 kva)).or (d (intermediateName taskId b)) := by
  have hclosed : BucketState.AtEnd taskId ⟨d, fun _ ↦ none⟩ b := by
    intro h hh
    cases hh
  exact bucketLoop_contentAfter hclosed 0 kva

theorem attempts_ne_nil {kv : KeyValue} (hkv : kv ∈ kva) :
    attempts faults nReduce (bucket nReduce kv.key) 0 kva ≠ [] := by
  intro hnil
  have htotal := total_attempts faults nReduce (bucket nReduce kv.key) 0 kva
  have hmem : kv ∈ bucketPairs nReduce (bucket nReduce kv.key) kva :=
    List.mem_filter.mpr ⟨hkv, decide_eq_true rfl⟩
  rw [hnil, bucketBytes] at htotal
  exact encodeKeyValue_ne_nil kv (List.flatMap_eq_nil_iff.mp htotal.symm kv hmem)

/-- No pair of the bucket is lost: the file is opened at its first pair and no `Encode` fails before
the last byte of its last record; or it cannot be opened at all and held these records before. -/
def LosesNothing (faults : Faults) (kva : List KeyValue) (taskId nReduce : ℕ) (d : Dir) (b : ℕ) :
    Prop :=
  (∀ attempt ∈ (attempts faults nReduce b 0 kva).head?, attempt.openFails = false) ∧
      Sink.Intact (attempts faults nReduce b 0 kva) ∨
    (∀ attempt ∈ attempts faults nReduce b 0 kva, attempt.openFails = true) ∧
      d (intermediateName taskId b) = some (bucketBytes nReduce b kva)

theorem bucketByIntermediateKey_complete_iff
    (hsome : attempts faults nReduce b 0 kva ≠ []) :
    bucketByIntermediateKey faults kva taskId nReduce d (intermediateName taskId b) =
        some (bucketBytes nReduce b kva) ↔
      LosesNothing faults kva taskId nReduce d b := by
  have hstored := Sink.stored_eq_total_iff (fun _ ↦ bytes_ne_nil) hsome
  have hnone : Sink.stored (attempts faults nReduce b 0 kva) = none ↔
      ∀ attempt ∈ attempts faults nReduce b 0 kva, attempt.openFails = true :=
    Sink.stored_eq_none_iff
  rw [total_attempts] at hstored
  rw [bucketByIntermediateKey_eq_stored, LosesNothing, ← hstored, ← hnone]
  cases Sink.stored (attempts faults nReduce b 0 kva) with
  | none => simp
  | some content => simp

/-- **Reported map tasks.** For every pattern of failures `map_exec` sends `CheckLastMapDone`, and
the file of every bucket it emits to holds the records of all its pairs if and only if the failures
lose no pair of the bucket. -/
theorem mapExec_complete_iff (faults : Faults) (mapf : GoString → GoString → List KeyValue)
    {reply : MapReply} (hpos : 0 < reply.nReduce) {d : Dir} {kva : List KeyValue}
    (hmap : performMap mapf reply.filename d = some kva) :
    ∃ d', mapExec faults mapf reply d = some (d', .map reply.maptaskId) ∧
      ((∀ kv ∈ kva, d' (intermediateName reply.maptaskId (bucket reply.nReduce kv.key)) =
          some (bucketBytes reply.nReduce (bucket reply.nReduce kv.key) kva)) ↔
        ∀ kv ∈ kva, LosesNothing faults kva reply.maptaskId reply.nReduce d
          (bucket reply.nReduce kv.key)) := by
  refine ⟨bucketByIntermediateKey faults kva reply.maptaskId reply.nReduce d, ?_, ?_⟩
  · simp [mapExec, hmap, hpos.ne']
  · refine forall₂_congr fun kv hkv ↦ ?_
    exact bucketByIntermediateKey_complete_iff (attempts_ne_nil hkv)

/-- Two pairs of one key. -/
def twoPairs : GoString → GoString → List KeyValue :=
  fun _ _ ↦ [⟨ascii "a", ascii "1"⟩, ⟨ascii "a", ascii "2"⟩]

/-- The `Encode` of the second pair fails after four bytes: the task is reported and loses a pair of
the bucket. -/
theorem mapExec_complete_iff_twoPairs :
    ∃ faults d', faults.encodeFails 1 = some 4 ∧
      mapExec faults twoPairs ⟨1, ascii "in", 0⟩ Job.sampleDir = some (d', .map 0) ∧
      d' (intermediateName 0 0) = some (encodeKeyValue ⟨ascii "a", ascii "1"⟩ ++
        (encodeKeyValue ⟨ascii "a", ascii "2"⟩).take 4) ∧
      ¬ ∀ kv ∈ twoPairs [] [], LosesNothing faults (twoPairs [] []) 0 1 Job.sampleDir
        (bucket 1 kv.key) := by
  let faults : Faults := ⟨fun _ ↦ false, fun i ↦ if i = 1 then some 4 else none⟩
  have hmap : performMap twoPairs (ascii "in") Job.sampleDir = some (twoPairs [] []) := by decide
  obtain ⟨d', hexec, hcomplete⟩ :=
    @mapExec_complete_iff faults twoPairs ⟨1, ascii "in", 0⟩ (by decide) _ _ hmap
  have hfile : d' (intermediateName 0 0) = some (encodeKeyValue ⟨ascii "a", ascii "1"⟩ ++
      (encodeKeyValue ⟨ascii "a", ascii "2"⟩).take 4) := by
    cases hexec
    decide +kernel
  refine ⟨faults, d', rfl, hexec, hfile, fun hloses ↦ ?_⟩
  have hall := hcomplete.mpr hloses ⟨ascii "a", ascii "1"⟩ (by decide)
  have hbucket : bucket 1 (ascii "a") = 0 := by decide
  rw [hbucket, hfile] at hall
  exact absurd hall (by decide +kernel)

/-- The bucket cannot be opened at its first pair and is opened at the second one: the task is
reported, and its file holds the second pair only. -/
theorem mapExec_loses_pair :
    ∃ d', mapExec ⟨fun i ↦ i = 0, fun _ ↦ none⟩ twoPairs ⟨1, ascii "in", 0⟩ Job.sampleDir =
        some (d', .map 0) ∧
      d' (intermediateName 0 0) = some (encodeKeyValue ⟨ascii "a", ascii "2"⟩) ∧
      bucketBytes 1 0 (twoPairs [] []) =
        encodeKeyValue ⟨ascii "a", ascii "1"⟩ ++ encodeKeyValue ⟨ascii "a", ascii "2"⟩ :=
  ⟨_, rfl, by decide, by decide⟩

end Map

/-! ## Reading one file -/

/-- A well-formed record: a JSON value that fits a `KeyValue`. -/
def IsRecord (text : GoString) (kv : KeyValue) : Prop :=
  ∃ v, Json.Derives .value Json.maxNestingDepth text v ∧ readKeyValue v = some kv

/-- A file of well-formed records, with white space before them and after the last one. -/
inductive RecordStream : GoString → List KeyValue → Prop
  | nil {spaces : GoString} (hspaces : Json.IsSpaces spaces) : RecordStream spaces []
  | cons {spaces text rest : GoString} {kv : KeyValue} {kvs : List KeyValue}
      (hspaces : Json.IsSpaces spaces) (hrecord : IsRecord text kv)
      (hrest : RecordStream rest kvs) :
      RecordStream (spaces ++ (text ++ rest)) (kv :: kvs)

/-- Why `read_intermediates` goes on to the next file. -/
inductive Ending
  /-- `os.Open` fails -/
  | notOpened
  /-- `Decode` returns `io.EOF` -/
  | eof
  /-- `Decode` returns another error -/
  | malformed
  deriving DecidableEq

/-- The loop over `Decode` on one file: the records it appends, and how it ends. -/
inductive RecordLoop : GoString → List KeyValue → Ending → Prop
  | eof {s : GoString} : Json.decode readKeyValue s = .eof → RecordLoop s [] .eof
  | failure {s : GoString} : Json.decode readKeyValue s = .failure → RecordLoop s [] .malformed
  | next {s rest : GoString} {kv : KeyValue} {kvs : List KeyValue} {ending : Ending} :
      Json.decode readKeyValue s = .value kv rest → RecordLoop rest kvs ending →
      RecordLoop s (kv :: kvs) ending

/-- How the loop on a file ends, with enough rounds allowed. -/
def endingLoop : ℕ → GoString → Ending
  | 0, _ => .malformed
  | n + 1, s =>
    match Json.decode readKeyValue s with
    | .value _ rest => endingLoop n rest
    | .eof => .eof
    | .failure => .malformed

/-- How `read_intermediates` is done with one listed file. -/
def fileEnding (openFails : Bool) (file : Option GoString) : Ending :=
  if openFails then .notOpened
  else (file.map fun content ↦ endingLoop (content.length + 1) content).getD .notOpened

/-- What follows the next newline. -/
def nextLine (s : GoString) : GoString := (s.dropWhile fun b ↦ b ≠ 0x0A).tail

/-- The well-formed records of a file, found by taking up after a malformed one on the next line. -/
def salvageLoop : ℕ → GoString → List KeyValue
  | 0, _ => []
  | n + 1, s =>
    match Json.decode readKeyValue s with
    | .value kv rest => kv :: salvageLoop n rest
    | .eof => []
    | .failure => salvageLoop n (nextLine s)

def salvage (s : GoString) : List KeyValue := salvageLoop (s.length + 1) s

/-- The loop ends on every content, after the records that `decodeAll` computes. -/
theorem recordLoop_decodeLoop {n : ℕ} {s : GoString} (hn : s.length < n) :
    RecordLoop s (decodeLoop n s) (endingLoop n s) := by
  induction n generalizing s with
  | zero => omega
  | succ n ih =>
    rw [decodeLoop, endingLoop]
    cases hdecode : Json.decode readKeyValue s with
    | value kv rest =>
      have hlt := Json.length_decode hdecode
      exact .next hdecode (ih (by omega))
    | eof => exact .eof hdecode
    | failure => exact .failure hdecode

theorem RecordLoop.unique {s : GoString} {kvs kvs' : List KeyValue} {ending ending' : Ending}
    (h : RecordLoop s kvs ending) (h' : RecordLoop s kvs' ending') :
    kvs = kvs' ∧ ending = ending' := by
  induction h generalizing kvs' with
  | eof hdecode => cases h' <;> simp_all
  | failure hdecode => cases h' <;> simp_all
  | next hdecode _ ih =>
    cases h' with
    | eof hdecode' => simp [hdecode] at hdecode'
    | failure hdecode' => simp [hdecode] at hdecode'
    | next hdecode' hrest =>
      cases hdecode.symm.trans hdecode'
      obtain ⟨hkvs, hend⟩ := ih hrest
      exact ⟨by rw [hkvs], hend⟩

/-- A record does not continue a number. -/
theorem IsRecord.stops {text : GoString} {kv : KeyValue} (h : IsRecord text kv) (rest : GoString) :
    Json.Stops (text ++ rest) := by
  have hhead {b : Byte} (tail : GoString) (hdigit : Json.isDigit b = false)
      (hb : b ∉ [asciiByte '.', asciiByte 'e', asciiByte 'E']) : Json.Stops (b :: tail) := by
    intro c hc
    cases hc
    exact ⟨hdigit, hb⟩
  obtain ⟨v, hv, hread⟩ := h
  cases hv with
  | null => exact hhead (b := asciiByte 'n') (ascii "ull" ++ rest) (by decide) (by decide)
  | emptyObject | object => exact hhead _ (by decide) (by decide)
  | bool | number | string | emptyArray | array => cases hread

theorem RecordStream.stops {s : GoString} {kvs : List KeyValue} (h : RecordStream s kvs) :
    Json.Stops s := by
  cases h with
  | nil hspaces =>
    rw [← List.append_nil s]
    exact Json.stops_append hspaces fun b hb ↦ by cases hb
  | cons hspaces hrecord => exact Json.stops_append hspaces (hrecord.stops _)

/-- The loop reaches the end of a file exactly if the file is made of well-formed records, and then
these are what it appends. -/
theorem recordStream_iff {s : GoString} {kvs : List KeyValue} :
    RecordStream s kvs ↔ RecordLoop s kvs .eof := by
  constructor
  · intro h
    induction h with
    | nil hspaces => exact .eof (Json.decode_eq_eof_iff.mpr hspaces)
    | cons hspaces hrecord hrest ih =>
      obtain ⟨v, hv, hread⟩ := hrecord
      exact .next (Json.decode_eq_value hspaces hv hread hrest.stops) ih
  · intro h
    generalize hend : Ending.eof = ending at h
    induction h with
    | eof hdecode => exact .nil (Json.decode_eq_eof_iff.mp hdecode)
    | failure hdecode => cases hend
    | next hdecode _ ih =>
      obtain ⟨spaces, text, v, hspaces, hv, hread, rfl⟩ := Json.decode_sound hdecode
      exact .cons hspaces ⟨v, hv, hread⟩ (ih hend)

theorem exists_recordStream_iff {s : GoString} :
    (∃ kvs, RecordStream s kvs) ↔ endingLoop (s.length + 1) s = .eof := by
  have hloop := recordLoop_decodeLoop (Nat.lt_succ_self s.length)
  constructor
  · rintro ⟨kvs, hkvs⟩
    exact ((recordStream_iff.mp hkvs).unique hloop).2.symm
  · intro h
    rw [h] at hloop
    exact ⟨_, recordStream_iff.mpr hloop⟩

/-- In a file of well-formed records there is nothing to salvage beyond what the loop reads. -/
theorem RecordLoop.salvageLoop_eq {s : GoString} {kvs : List KeyValue}
    (h : RecordLoop s kvs .eof) {n : ℕ} (hn : s.length < n) : salvageLoop n s = kvs := by
  generalize hend : Ending.eof = ending at h
  induction h generalizing n with
  | @eof s hdecode =>
    obtain ⟨n, rfl⟩ := Nat.exists_eq_succ_of_ne_zero (by omega : n ≠ 0)
    rw [salvageLoop, hdecode]
  | failure hdecode => cases hend
  | next hdecode _ ih =>
    obtain ⟨n, rfl⟩ := Nat.exists_eq_succ_of_ne_zero (by omega : n ≠ 0)
    have hlt := Json.length_decode hdecode
    rw [salvageLoop, hdecode]
    dsimp only
    rw [ih (by omega) hend]

/-! ## Reduce tasks -/

/-- The file listed at position `i` exists and has this content. -/
def FileAt (filenames : List GoString) (d : Dir) (i : ℕ) (content : GoString) : Prop :=
  (filenames[i]?).bind d = some content

/-- Every listed file that exists was decoded up to its end, and the well-formed records of these
files are what is reduced. -/
structure ReadsEverything (sorting : ByKeySort) (openFails : ℕ → Bool) (filenames : List GoString)
    (d : Dir) : Prop where
  to_end : ∀ i content, FileAt filenames d i content →
    fileEnding (openFails i) (some content) = .eof
  records : (readIntermediates sorting openFails filenames d).Perm
    (filenames.flatMap fun name ↦ ((d name).map salvage).getD [])

/-- No listed file that exists fails to open, and each is a file of well-formed records. -/
structure Readable (openFails : ℕ → Bool) (filenames : List GoString) (d : Dir) : Prop where
  opened : ∀ i content, FileAt filenames d i content → openFails i = false
  stream : ∀ i content, FileAt filenames d i content → ∃ kvs, RecordStream content kvs

/-- Open failures on files that do not exist change nothing. -/
theorem readLoop_of_opened {openFails : ℕ → Bool} {d : Dir} {names : List GoString} (k : ℕ)
    (h : ∀ i content, FileAt names d i content → openFails (k + i) = false) :
    readLoop openFails d k names = readLoop (fun _ ↦ false) d k names := by
  induction names generalizing k with
  | nil => rfl
  | cons name names ih =>
    have hrest : readLoop openFails d (k + 1) names = readLoop (fun _ ↦ false) d (k + 1) names := by
      apply ih
      intro i content hfile
      rw [Nat.add_assoc, Nat.add_comm 1 i]
      exact h (i + 1) content hfile
    rw [readLoop, readLoop, hrest]
    cases hcontent : d name with
    | none => simp
    | some content =>
      have hopened : openFails k = false := h 0 content hcontent
      simp [hopened]

theorem Readable.readsEverything {openFails : ℕ → Bool} {filenames : List GoString} {d : Dir}
    (h : Readable openFails filenames d) (sorting : ByKeySort) :
    ReadsEverything sorting openFails filenames d where
  to_end i content hfile := by
    rw [fileEnding, h.opened i content hfile]
    exact exists_recordStream_iff.mp (h.stream i content hfile)
  records := by
    have hopened : readLoop openFails d 0 filenames = readLoop (fun _ ↦ false) d 0 filenames := by
      apply readLoop_of_opened
      intro i content hfile
      rw [Nat.zero_add]
      exact h.opened i content hfile
    refine (sorting.perm _).trans (List.Perm.of_eq ?_)
    rw [hopened, readLoop_eq_flatMap]
    refine List.flatMap_congr fun name hname ↦ ?_
    cases hcontent : d name with
    | none => rfl
    | some content =>
      obtain ⟨i, hi⟩ := List.getElem?_of_mem hname
      have hfile : FileAt filenames d i content := by rw [FileAt, hi, Option.bind_some, hcontent]
      obtain ⟨kvs, hkvs⟩ := h.stream i content hfile
      have hloop := recordStream_iff.mp hkvs
      have hread := recordLoop_decodeLoop (Nat.lt_succ_self content.length)
      rw [Option.map_some, Option.map_some, Option.getD_some, Option.getD_some, decodeAll, salvage,
        hloop.salvageLoop_eq (Nat.lt_succ_self _), (hloop.unique hread).1]

/-- **Reported reduce tasks.** For all contents of the files and every pattern of open failures
`reduce_exec` sends `CheckLastReduceDone`, and it has read everything if and only if no listed file
that exists fails to open and each of them is a file of well-formed records. -/
theorem reduceExec_readsEverything_iff (sorting : ByKeySort) (openFails : ℕ → Bool)
    (reducef : GoString → List GoString → GoString) (reply : ReduceReply) (d : Dir) :
    (reduceExec sorting openFails reducef reply d).2 = .reduce reply.reducetaskId ∧
      (ReadsEverything sorting openFails reply.reducefiles d ↔
        Readable openFails reply.reducefiles d) := by
  refine ⟨rfl, fun h ↦ ⟨fun i content hfile ↦ ?_, fun i content hfile ↦ ?_⟩,
    fun h ↦ h.readsEverything sorting⟩
  · have hend := h.to_end i content hfile
    cases hopen : openFails i with
    | false => rfl
    | true => simp [fileEnding, hopen] at hend
  · have hend := h.to_end i content hfile
    cases hopen : openFails i with
    | false => exact exists_recordStream_iff.mpr (by simpa [fileEnding, hopen] using hend)
    | true => simp [fileEnding, hopen] at hend

/-- A file whose first record is cut off, with a well-formed record on its second line. -/
def damagedDir : Dir :=
  Function.update (fun _ ↦ none) (intermediateName 0 0) (some
    ((encodeKeyValue ⟨ascii "a", ascii "1"⟩).take 14 ++ 0x0A ::
      encodeKeyValue ⟨ascii "b", ascii "2"⟩))

/-- The reduce task stops reading at the damaged record, reduces nothing and is reported. -/
theorem reduceExec_misses_record :
    (reduceExec .insertion (fun _ ↦ false) (fun _ values ↦ values.flatten)
        ⟨0, [intermediateName 0 0]⟩ damagedDir).2 = .reduce 0 ∧
      readIntermediates .insertion (fun _ ↦ false) [intermediateName 0 0] damagedDir = [] ∧
      ¬ ReadsEverything .insertion (fun _ ↦ false) [intermediateName 0 0] damagedDir := by
  have hread : readIntermediates .insertion (fun _ ↦ false) [intermediateName 0 0] damagedDir =
      [] := by decide +kernel
  refine ⟨rfl, hread, fun h ↦ ?_⟩
  have hlength := h.records.length_eq
  rw [hread] at hlength
  exact absurd hlength (by decide +kernel)

end DistKvRaft.MapReduce
