import Mathlib.Data.List.Basic
import Mathlib.Logic.Function.Basic
import Mathlib.Tactic.Common

/-!
# Files written at offsets

A directory gives every existing file its content.  Opening a file for writing with truncation
empties it, and a write goes to the writer's own offset, wherever the end of the file is by then:
a gap left by somebody else's truncation is filled with zero bytes.

Two facts carry the developments above this file.  A writer alone on its file appends.  And
whatever slices of one fixed byte sequence are written at their own positions, in any order, the
file never disagrees with that sequence on what it held of it.
-/

namespace DistKvRaft.FileStore

/-- The content of every file, and `none` for a name without a file. -/
abbrev Dir (Name Byte : Type*) := Name → Option (List Byte)

variable {Name Byte : Type*} [DecidableEq Name]

/-- `OpenFile` with `O_CREATE` and `O_TRUNC`: the file exists afterwards and is empty. -/
def create (d : Dir Name Byte) (name : Name) : Dir Name Byte := Function.update d name (some [])

/-- The content after writing at an offset, with zero bytes in a gap behind the old end. -/
def overwrite [Zero Byte] (content : List Byte) (offset : ℕ) (bytes : List Byte) : List Byte :=
  content.take offset ++ List.replicate (offset - content.length) 0 ++ bytes ++
    content.drop (offset + bytes.length)

/-- Write through an open handle.  Files are never removed, so the file still exists. -/
def writeAt [Zero Byte] (d : Dir Name Byte) (name : Name) (offset : ℕ) (bytes : List Byte) :
    Dir Name Byte :=
  Function.update d name ((d name).map fun content ↦ overwrite content offset bytes)

@[simp]
theorem create_self (d : Dir Name Byte) (name : Name) : create d name name = some [] := by
  simp [create]

theorem create_of_ne (d : Dir Name Byte) {name other : Name} (h : other ≠ name) :
    create d name other = d other := by
  simp [create, h]

section Write

variable [Zero Byte]

theorem writeAt_self (d : Dir Name Byte) (name : Name) (offset : ℕ) (bytes : List Byte) :
    writeAt d name offset bytes name =
      (d name).map fun content ↦ overwrite content offset bytes := by
  simp [writeAt]

theorem writeAt_of_ne (d : Dir Name Byte) {name other : Name} (h : other ≠ name) (offset : ℕ)
    (bytes : List Byte) : writeAt d name offset bytes other = d other := by
  simp [writeAt, h]

/-- Writing at the end of the file appends. -/
@[simp]
theorem overwrite_length (content bytes : List Byte) :
    overwrite content content.length bytes = content ++ bytes := by
  simp [overwrite, List.drop_eq_nil_of_le]

theorem writeAt_end (d : Dir Name Byte) (name : Name) {content : List Byte}
    (h : d name = some content) (bytes : List Byte) :
    writeAt d name content.length bytes name = some (content ++ bytes) := by
  simp [writeAt_self, h]

/-! ## Several writers of one sequence -/

theorem overwrite_append (front back bytes : List Byte) :
    overwrite (front ++ back) front.length bytes = front ++ bytes ++ back.drop bytes.length := by
  simp [overwrite, List.drop_append]

/-- A writer that has put the part `front` of `target` into the file adds the next chunk of `target`
behind it.  The file stays within the length of `target`, it keeps every part of `target` it had,
and it now has the new one. -/
theorem overwrite_chunk {target content front chunk : List Byte}
    (hlength : content.length ≤ target.length) (hfront : front <+: content)
    (hchunk : front ++ chunk <+: target) :
    (overwrite content front.length chunk).length ≤ target.length ∧
      front ++ chunk <+: overwrite content front.length chunk ∧
      ∀ part, part <+: target → part <+: content →
        part <+: overwrite content front.length chunk := by
  obtain ⟨back, rfl⟩ := hfront
  rw [overwrite_append]
  refine ⟨?_, List.prefix_append _ _, fun part htarget hcontent ↦ ?_⟩
  · have hle := hchunk.length_le
    simp only [List.length_append, List.length_drop] at hlength hle ⊢
    omega
  · rcases List.prefix_or_prefix_of_prefix htarget hchunk with hshort | hlong
    · exact hshort.trans (List.prefix_append _ _)
    · obtain ⟨more, rfl⟩ := hlong
      rw [List.append_assoc, List.prefix_append_right_inj] at hcontent
      obtain ⟨tail, rfl⟩ := hcontent
      rw [List.append_assoc chunk more tail, List.drop_left, ← List.append_assoc]
      exact List.prefix_append _ _

/-! ## One writer -/

/-- Several chunks through one handle, each where the last one ended. -/
def writeChunks (d : Dir Name Byte) (name : Name) : ℕ → List (List Byte) → Dir Name Byte
  | _, [] => d
  | offset, chunk :: chunks =>
    writeChunks (writeAt d name offset chunk) name (offset + chunk.length) chunks

theorem writeChunks_of_ne {chunks : List (List Byte)} (d : Dir Name Byte) {name other : Name}
    (h : other ≠ name) (offset : ℕ) : writeChunks d name offset chunks other = d other := by
  induction chunks generalizing d offset with
  | nil => rfl
  | cons chunk chunks ih => rw [writeChunks, ih, writeAt_of_ne d h]

theorem writeChunks_self {chunks : List (List Byte)} (d : Dir Name Byte) {name : Name}
    {content : List Byte} (h : d name = some content) :
    writeChunks d name content.length chunks name = some (content ++ chunks.flatten) := by
  induction chunks generalizing d content with
  | nil => simp [writeChunks, h]
  | cons chunk chunks ih =>
    rw [writeChunks, ← List.length_append, ih _ (writeAt_end d name h chunk)]
    simp

/-- A handle opened with truncation and used alone leaves exactly its chunks. -/
theorem writeChunks_create (d : Dir Name Byte) (name : Name) (chunks : List (List Byte)) :
    writeChunks (create d name) name 0 chunks name = some chunks.flatten := by
  simpa using writeChunks_self _ (create_self d name)

end Write

end DistKvRaft.FileStore
