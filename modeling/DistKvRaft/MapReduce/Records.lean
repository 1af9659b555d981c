import DistKvRaft.Go.Json
import DistKvRaft.Foundation.FileStore

/-!
# Tasks, file names and intermediate records

The tasks of a job, `ihash` and the two file-name schemes shared by coordinator and worker, and
the stream of JSON records that a map task writes for one reduce task.  Reading such a stream back
gives the written pairs with the invalid bytes of their strings replaced, so it is exact on valid
UTF-8.
-/

namespace DistKvRaft.MapReduce

open Go Go.Utf8

/-- A pair emitted by a map function. -/
structure KeyValue where
  key : GoString
  value : GoString
  deriving DecidableEq

/-- The working directory. -/
abbrev Dir := FileStore.Dir GoString Byte

inductive Kind
  | map
  | reduce
  deriving DecidableEq

/-- A task is known by its kind and its number. -/
@[ext]
structure Task where
  kind : Kind
  id : ℕ
  deriving DecidableEq

@[match_pattern]
abbrev Task.map (i : ℕ) : Task := ⟨.map, i⟩

@[match_pattern]
abbrev Task.reduce (r : ℕ) : Task := ⟨.reduce, r⟩

/-! ## Hashing -/

/-- 32-bit FNV-1a, `fnv.New32a`. -/
def fnv32a (s : GoString) : UInt32 :=
  s.foldl (fun h b ↦ (h ^^^ UInt32.ofNat b.val) * 16777619) 2166136261

def ihash (key : GoString) : ℕ := (fnv32a key &&& 0x7fffffff).toNat

/-- The reduce task a key belongs to. -/
def bucket (nReduce : ℕ) (key : GoString) : ℕ := ihash key % nReduce

theorem bucket_lt {nReduce : ℕ} (h : 0 < nReduce) (key : GoString) :
    bucket nReduce key < nReduce :=
  Nat.mod_lt _ h

/-! ## File names -/

/-- `mr-i-j`: what map task `i` writes for reduce task `j`. -/
def intermediateName (i j : ℕ) : GoString := ascii "mr-" ++ (itoa i ++ asciiByte '-' :: itoa j)

/-- `mr-out-r`: the output of reduce task `r`. -/
def outName (r : ℕ) : GoString := ascii "mr-out-" ++ itoa r

/-- A name of the form `mr-*`. -/
def IsMrName (name : GoString) : Prop := name.take 3 = ascii "mr-"

instance (name : GoString) : Decidable (IsMrName name) :=
  inferInstanceAs (Decidable (_ = _))

/-- The files a reduce task reads, one for each of the first `count` map tasks. -/
def reduceFiles (count r : ℕ) : List GoString :=
  (List.range count).map fun i ↦ intermediateName i r

theorem ascii_mr : ascii "mr-" = [0x6D, 0x72, 0x2D] := by decide

theorem ascii_out : ascii "mr-out-" = ascii "mr-" ++ [0x6F, 0x75, 0x74, 0x2D] := by decide

theorem intermediateName_isMrName (i j : ℕ) : IsMrName (intermediateName i j) := by
  simp [IsMrName, intermediateName, ascii_mr]

theorem outName_isMrName (r : ℕ) : IsMrName (outName r) := by
  simp [IsMrName, outName, ascii_out, ascii_mr]

theorem intermediateName_inj {i j i' j' : ℕ}
    (h : intermediateName i j = intermediateName i' j') : i = i' ∧ j = j' := by
  have htail := List.append_cancel_left h
  obtain ⟨hi, hj⟩ := itoa_append_inj (by decide) htail
  exact ⟨hi, itoa_injective hj⟩

theorem outName_injective : Function.Injective outName := by
  intro r r' h
  exact itoa_injective (List.append_cancel_left h)

/-- An output file is never an intermediate file: a numeral does not start with a letter. -/
theorem outName_ne_intermediateName (r i j : ℕ) : outName r ≠ intermediateName i j := by
  intro h
  rw [outName, ascii_out, intermediateName, List.append_assoc] at h
  have htail := List.append_cancel_left h
  obtain ⟨digit, digits, hi⟩ := List.exists_cons_of_ne_nil (itoa_ne_nil i)
  rw [hi] at htail
  have hdigit := itoa_digit (n := i) (b := digit) (by simp [hi])
  have hhead : (0x6F : Byte) = digit := (List.cons.inj htail).1
  rw [← hhead] at hdigit
  exact absurd hdigit (by decide)

/-! ## The record stream -/

/-- What `Encode(&kv)` writes. -/
def encodeKeyValue (kv : KeyValue) : GoString :=
  Json.encodeObject [(ascii "Key", kv.key), (ascii "Value", kv.value)] ++ [0x0A]

/-- A member name in the form used to match struct fields without regard to case. -/
def foldName : GoString → GoString
  | 0xE2 :: 0x84 :: 0xAA :: rest => asciiByte 'k' :: foldName rest
  | b :: rest => (if 0x41 ≤ b.val ∧ b.val ≤ 0x5A then b + 0x20 else b) :: foldName rest
  | [] => []

/-- A value stored into a string field; `null` leaves the field alone. -/
def readString (old : GoString) : Json.Value → Option GoString
  | .string s => some s
  | .null => some old
  | _ => none

/-- One member stored into the struct; unknown members are ignored. -/
def readMember (kv : KeyValue) (member : GoString × Json.Value) : Option KeyValue :=
  if foldName member.1 = ascii "key" then
    (readString kv.key member.2).map fun s ↦ { kv with key := s }
  else if foldName member.1 = ascii "value" then
    (readString kv.value member.2).map fun s ↦ { kv with value := s }
  else some kv

/-- A value stored into a fresh `KeyValue`. -/
def readKeyValue : Json.Value → Option KeyValue
  | .null => some ⟨[], []⟩
  | .object members => members.foldlM readMember ⟨[], []⟩
  | _ => none

/-- Decode records until `Decode` reports an error, the end of the file included. -/
def decodeLoop : ℕ → GoString → List KeyValue
  | 0, _ => []
  | n + 1, s =>
    match Json.decode readKeyValue s with
    | .value kv rest => kv :: decodeLoop n rest
    | _ => []

/-- The records of a file. -/
def decodeAll (s : GoString) : List KeyValue := decodeLoop (s.length + 1) s

/-- Both strings with their invalid bytes replaced. -/
def KeyValue.toValid (kv : KeyValue) : KeyValue := ⟨Utf8.toValid kv.key, Utf8.toValid kv.value⟩

/-- Both strings are valid UTF-8. -/
def KeyValue.Valid (kv : KeyValue) : Prop := ValidString kv.key ∧ ValidString kv.value

instance (kv : KeyValue) : Decidable kv.Valid := inferInstanceAs (Decidable (_ ∧ _))

theorem KeyValue.toValid_eq_self_iff (kv : KeyValue) : kv.toValid = kv ↔ kv.Valid := by
  obtain ⟨key, value⟩ := kv
  simp only [KeyValue.toValid, KeyValue.Valid, KeyValue.mk.injEq, Utf8.toValid_eq_self_iff]

theorem KeyValue.valid_toValid (kv : KeyValue) : kv.toValid.Valid :=
  ⟨validString_toValid kv.key, validString_toValid kv.value⟩

theorem decode_encodeKeyValue (kv : KeyValue) {spaces : GoString}
    (hspaces : ∀ b ∈ spaces, Json.isSpace b = true) (rest : GoString) :
    Json.decode readKeyValue (spaces ++ (encodeKeyValue kv ++ rest)) =
      .value kv.toValid (0x0A :: rest) := by
  have hkey : Utf8.toValid (ascii "Key") = ascii "Key" := by decide
  have hvalue : Utf8.toValid (ascii "Value") = ascii "Value" := by decide
  have hfoldKey : foldName (ascii "Key") = ascii "key" := by decide
  have hfoldValue : foldName (ascii "Value") = ascii "value" := by decide
  have hne : ascii "value" ≠ ascii "key" := by decide
  rw [encodeKeyValue, List.append_assoc]
  refine Json.decode_encodeObject (by simp) ?_ hspaces _
  simp [readKeyValue, Json.readBack, readMember, readString, hkey, hvalue, hfoldKey, hfoldValue,
    hne, KeyValue.toValid]

theorem decodeLoop_flatMap (kvs : List KeyValue) {spaces : GoString}
    (hspaces : ∀ b ∈ spaces, Json.isSpace b = true) {n : ℕ} (hn : kvs.length < n) :
    decodeLoop n (spaces ++ kvs.flatMap encodeKeyValue) = kvs.map KeyValue.toValid := by
  induction kvs generalizing n spaces with
  | nil =>
    obtain ⟨n, rfl⟩ := Nat.exists_eq_succ_of_ne_zero (by omega : n ≠ 0)
    simp [decodeLoop, Json.decode_spaces readKeyValue hspaces]
  | cons kv kvs ih =>
    obtain ⟨n, rfl⟩ := Nat.exists_eq_succ_of_ne_zero (by omega : n ≠ 0)
    have hnewline : ∀ b ∈ ([0x0A] : GoString), Json.isSpace b = true := by
      intro b hb
      rw [List.mem_singleton.mp hb]
      decide
    have hrest := ih hnewline (n := n) (by simp only [List.length_cons] at hn; omega)
    rw [List.singleton_append] at hrest
    rw [List.flatMap_cons, decodeLoop, decode_encodeKeyValue kv hspaces]
    dsimp only
    rw [hrest, List.map_cons]

theorem length_le_flatMap_encodeKeyValue (kvs : List KeyValue) :
    kvs.length ≤ (kvs.flatMap encodeKeyValue).length := by
  induction kvs with
  | nil => simp
  | cons kv kvs ih =>
    simp only [List.flatMap_cons, List.length_append, List.length_cons, encodeKeyValue] at ih ⊢
    omega

/-- **Stream round trip.** The records of a written stream are the written pairs with their
invalid bytes replaced. -/
theorem decodeAll_flatMap (kvs : List KeyValue) :
    decodeAll (kvs.flatMap encodeKeyValue) = kvs.map KeyValue.toValid := by
  have hlength := length_le_flatMap_encodeKeyValue kvs
  have hspaces : ∀ b ∈ ([] : GoString), Json.isSpace b = true := by simp
  exact decodeLoop_flatMap kvs hspaces (by omega)

end DistKvRaft.MapReduce
