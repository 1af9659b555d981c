import DistKvRaft.Foundation.Lists
import DistKvRaft.Foundation.Refinement
import DistKvRaft.Go.Strings

/-!
# Persisters

A persister keeps two byte slices.  `Save` and the two reads clone them, while `Copy` hands the
same slices to a second persister.  Slices are references: whoever holds one may write to its array
later. The memory model below has arrays, slices and the set of arrays that the rest of the program
holds; it refines a plain list of pairs of byte strings, so what is saved only ever changes by
`Save`.
-/

namespace DistKvRaft.Raft

open Go

/-! ## Saved state as plain values -/

/-- What a persister holds. -/
structure Saved where
  raftstate : GoString
  snapshot : GoString
  deriving DecidableEq

inductive DiskEvent
  | make
  | copy (p : ℕ)
  | save (p : ℕ) (content : Saved)

def diskStep (s : List Saved) : DiskEvent → Option (List Saved)
  | .make => some (s ++ [⟨[], []⟩])
  | .copy p => (s[p]?).map fun content ↦ s ++ [content]
  | .save p content => if p < s.length then some (s.set p content) else none

/-- Persisters as values. -/
def disks : Machine (List Saved) DiskEvent := ⟨[], diskStep⟩

/-! ## Persisters in memory -/

/-- A slice of an array. -/
structure Slice where
  array : ℕ
  offset : ℕ
  length : ℕ
  deriving DecidableEq

/-- `len` of a slice, which may be nil. -/
def len (s : Option Slice) : ℕ := (s.map Slice.length).getD 0

/-- A persister; `none` is a nil slice. -/
structure Persister where
  raftstate : Option Slice
  snapshot : Option Slice

/-- The arrays that were allocated, those of them that code outside `Persister` has a slice of, and
the persisters. -/
structure Memory where
  arrays : List GoString
  held : List ℕ
  persisters : List Persister

namespace Memory

variable (m : Memory)

/-- The bytes of a slice. -/
def bytes : Option Slice → GoString
  | none => []
  | some s => ((m.arrays[s.array]?.getD []).drop s.offset).take s.length

/-- Allocate an array with the bytes of a slice. -/
def clone (orig : Option Slice) : Memory × Option Slice :=
  ({ m with arrays := m.arrays ++ [m.bytes orig] },
    some ⟨m.arrays.length, 0, (m.bytes orig).length⟩)

/-- Code outside `Persister` gets hold of the array of a slice. -/
def hold (s : Option Slice) : Memory :=
  { m with held := (s.map Slice.array).toList ++ m.held }

def makePersister : Memory := { m with persisters := m.persisters ++ [⟨none, none⟩] }

def copy (p : ℕ) : Option Memory :=
  (m.persisters[p]?).map fun ps ↦ { m with persisters := m.persisters ++ [ps] }

def readRaftState (p : ℕ) : Option (Memory × Option Slice) :=
  (m.persisters[p]?).map fun ps ↦
    let (m', x) := m.clone ps.raftstate
    (m'.hold x, x)

def readSnapshot (p : ℕ) : Option (Memory × Option Slice) :=
  (m.persisters[p]?).map fun ps ↦
    let (m', x) := m.clone ps.snapshot
    (m'.hold x, x)

def raftStateSize (p : ℕ) : Option ℕ := (m.persisters[p]?).map fun ps ↦ len ps.raftstate

def snapshotSize (p : ℕ) : Option ℕ := (m.persisters[p]?).map fun ps ↦ len ps.snapshot

def save (p : ℕ) (raftstate snapshot : Option Slice) : Option Memory :=
  if p < m.persisters.length then
    let (m₁, x) := m.clone raftstate
    let (m₂, y) := m₁.clone snapshot
    some { m₂ with persisters := m₂.persisters.set p ⟨x, y⟩ }
  else none

/-- The rest of the program can have this slice: it has the array, and the slice lies in it. -/
def holds (s : Option Slice) : Bool := s.all fun s ↦
  s.array ∈ m.held ∧ s.offset + s.length ≤ (m.arrays[s.array]?.getD []).length

end Memory

/-- What happens to the memory: calls of persisters, and the rest of the program, which allocates
arrays and writes to those it holds. -/
inductive MemoryEvent
  | allocate (bytes : GoString)
  | write (array index : ℕ) (byte : Byte)
  | makePersister
  | copy (p : ℕ)
  | save (p : ℕ) (raftstate snapshot : Option Slice)
  | readRaftState (p : ℕ)
  | readSnapshot (p : ℕ)

def Memory.step (m : Memory) : MemoryEvent → Option Memory
  | .allocate bytes =>
    some { m with arrays := m.arrays ++ [bytes], held := m.arrays.length :: m.held }
  | .write array index byte =>
    if array ∈ m.held then some { m with arrays := m.arrays.modify array (·.set index byte) }
    else none
  | .makePersister => some m.makePersister
  | .copy p => m.copy p
  | .save p raftstate snapshot =>
    if m.holds raftstate ∧ m.holds snapshot then m.save p raftstate snapshot else none
  | .readRaftState p => (m.readRaftState p).map Prod.fst
  | .readSnapshot p => (m.readSnapshot p).map Prod.fst

def memory : Machine Memory MemoryEvent := ⟨⟨[], [], []⟩, Memory.step⟩

/-! ## The saved slices are out of reach -/

namespace Memory

/-- What a persister holds, by value. -/
def content (m : Memory) (ps : Persister) : Saved := ⟨m.bytes ps.raftstate, m.bytes ps.snapshot⟩

def contents (m : Memory) : List Saved := m.persisters.map m.content

/-- The slice was cloned: it has all its bytes, its array exists, and nobody outside has it. -/
structure Owned (m : Memory) (s : Option Slice) : Prop where
  length_bytes : (m.bytes s).length = len s
  array : ∀ x, s = some x → x.array < m.arrays.length ∧ x.array ∉ m.held

structure Isolated (m : Memory) : Prop where
  held_lt : ∀ a ∈ m.held, a < m.arrays.length
  owned : ∀ ps ∈ m.persisters, m.Owned ps.raftstate ∧ m.Owned ps.snapshot

/-- The change of memory leaves alone what nobody outside has. -/
structure Frames (m n : Memory) : Prop where
  length_le : m.arrays.length ≤ n.arrays.length
  held_lt : ∀ a ∈ n.held, a < n.arrays.length
  array : ∀ a, a < m.arrays.length → a ∉ m.held → n.arrays[a]? = m.arrays[a]? ∧ a ∉ n.held

variable {m n : Memory}

theorem Frames.bytes_eq (h : Frames m n) {s : Option Slice} (hs : m.Owned s) :
    n.bytes s = m.bytes s := by
  cases s with
  | none => rfl
  | some s =>
    obtain ⟨hlt, hheld⟩ := hs.array s rfl
    simp only [bytes, (h.array s.array hlt hheld).1]

theorem Frames.owned (h : Frames m n) {s : Option Slice} (hs : m.Owned s) : n.Owned s := by
  refine ⟨by rw [h.bytes_eq hs, hs.length_bytes], fun x hx ↦ ?_⟩
  obtain ⟨hlt, hheld⟩ := hs.array x hx
  exact ⟨hlt.trans_le h.length_le, (h.array x.array hlt hheld).2⟩

theorem Frames.owned_persisters (h : Frames m n) (hm : m.Isolated) :
    ∀ ps ∈ m.persisters, n.Owned ps.raftstate ∧ n.Owned ps.snapshot := by
  intro ps hps
  obtain ⟨hraftstate, hsnapshot⟩ := hm.owned ps hps
  exact ⟨h.owned hraftstate, h.owned hsnapshot⟩

theorem Frames.map_content (h : Frames m n) (hm : m.Isolated) :
    m.persisters.map n.content = m.contents := by
  apply List.map_congr_left
  intro ps hps
  obtain ⟨hraftstate, hsnapshot⟩ := hm.owned ps hps
  rw [content, content, h.bytes_eq hraftstate, h.bytes_eq hsnapshot]

/-- A change that keeps the persisters keeps what they hold. -/
theorem Frames.isolated (h : Frames m n) (hm : m.Isolated) (hps : n.persisters = m.persisters) :
    n.Isolated ∧ n.contents = m.contents := by
  refine ⟨⟨h.held_lt, ?_⟩, ?_⟩
  · rw [hps]
    exact h.owned_persisters hm
  · rw [contents, hps]
    exact h.map_content hm

/-! ## One lemma for each change -/

/-- Allocation, of an array that code outside has or has not. -/
theorem frames_append (hm : m.Isolated) (new : List GoString) {held : List ℕ}
    (hheld : ∀ a ∈ held, a ∈ m.held ∨ m.arrays.length ≤ a ∧ a < m.arrays.length + new.length)
    (persisters : List Persister) : Frames m ⟨m.arrays ++ new, held, persisters⟩ := by
  refine ⟨by simp, fun a ha ↦ ?_, fun a hlt hnot ↦ ⟨List.getElem?_append_left hlt, fun ha ↦ ?_⟩⟩
  · rw [List.length_append]
    rcases hheld a ha with ha | ha
    · exact (hm.held_lt a ha).trans_le (Nat.le_add_right _ _)
    · exact ha.2
  · rcases hheld a ha with ha | ha
    · exact hnot ha
    · omega

theorem frames_write (hm : m.Isolated) {array : ℕ} (harray : array ∈ m.held)
    (f : GoString → GoString) : Frames m { m with arrays := m.arrays.modify array f } := by
  refine ⟨by simp, fun a ha ↦ by simpa using hm.held_lt a ha, fun a _ hnot ↦ ⟨?_, hnot⟩⟩
  have hne : array ≠ a := fun heq ↦ hnot (heq ▸ harray)
  exact List.getElem?_modify_ne _ _ hne

theorem frames_read (hm : m.Isolated) (s : Option Slice) :
    Frames m ((m.clone s).1.hold (m.clone s).2) := by
  apply frames_append hm [m.bytes s]
  intro a ha
  simp only [clone, Option.map_some, Option.toList_some, List.singleton_append,
    List.mem_cons] at ha
  rcases ha with rfl | ha
  · exact Or.inr ⟨Nat.le_refl _, by simp⟩
  · exact Or.inl ha

theorem bytes_append_of_holds (hm : m.Isolated) {s : Option Slice} (hs : m.holds s = true)
    (new : List GoString) :
    ({ m with arrays := m.arrays ++ new } : Memory).bytes s = m.bytes s := by
  cases s with
  | none => rfl
  | some s =>
    have hheld : s.array ∈ m.held := by
      simp only [holds, Option.all_some, decide_eq_true_eq] at hs
      exact hs.1
    simp only [bytes, List.getElem?_append_left (hm.held_lt s.array hheld)]

theorem isolated_save (hm : m.Isolated) {p : ℕ} {raftstate snapshot : Option Slice}
    (hsnapshot : m.holds snapshot = true) (h : m.save p raftstate snapshot = some n) :
    n.Isolated ∧ p < m.persisters.length ∧
      n.contents = m.contents.set p ⟨m.bytes raftstate, m.bytes snapshot⟩ := by
  unfold save at h
  split_ifs at h with hp
  have hbytes : (m.clone raftstate).1.bytes snapshot = m.bytes snapshot :=
    bytes_append_of_holds hm hsnapshot _
  have hn : n = ⟨m.arrays ++ [m.bytes raftstate, m.bytes snapshot], m.held,
      m.persisters.set p ⟨some ⟨m.arrays.length, 0, (m.bytes raftstate).length⟩,
        some ⟨m.arrays.length + 1, 0, (m.bytes snapshot).length⟩⟩⟩ := by
    simp only [Option.some.injEq] at h
    rw [← h]
    simp only [clone] at hbytes ⊢
    simp [hbytes]
  have hframes : Frames m n := by
    rw [hn]
    exact frames_append hm _ (fun a ha ↦ Or.inl ha) _
  refine ⟨⟨hframes.held_lt, fun ps hps ↦ ?_⟩, hp, ?_⟩
  · rw [hn] at hps
    rcases List.mem_or_eq_of_mem_set hps with hps | rfl
    · exact hframes.owned_persisters hm ps hps
    · have hfresh : ∀ a, m.arrays.length ≤ a → a ∉ n.held := by
        intro a ha hheld
        rw [hn] at hheld
        exact absurd (hm.held_lt a hheld) (Nat.not_lt.mpr ha)
      refine ⟨⟨by simp [hn, bytes, len], fun x hx ↦ ?_⟩, ⟨by simp [hn, bytes, len], fun x hx ↦ ?_⟩⟩
      · cases hx
        exact ⟨by simp [hn], hfresh _ (Nat.le_refl _)⟩
      · cases hx
        exact ⟨by simp [hn], hfresh _ (Nat.le_succ _)⟩
  · have hnew : n.content ⟨some ⟨m.arrays.length, 0, (m.bytes raftstate).length⟩,
        some ⟨m.arrays.length + 1, 0, (m.bytes snapshot).length⟩⟩ =
          ⟨m.bytes raftstate, m.bytes snapshot⟩ := by
      simp [hn, content, bytes]
    calc
      n.contents = (m.persisters.set p ⟨some ⟨m.arrays.length, 0, (m.bytes raftstate).length⟩,
          some ⟨m.arrays.length + 1, 0, (m.bytes snapshot).length⟩⟩).map n.content := by
        rw [contents, hn]
      _ = m.contents.set p ⟨m.bytes raftstate, m.bytes snapshot⟩ := by
        rw [List.map_set, hnew, hframes.map_content hm]

/-- The call on persisters by value that an event of the memory amounts to: each call of `Save`
saves the bytes that its arguments have at that moment.  Reads and the rest of the program change
nothing. -/
def events (m : Memory) : MemoryEvent → List DiskEvent
  | .makePersister => [.make]
  | .copy p => [.copy p]
  | .save p raftstate snapshot => [.save p ⟨m.bytes raftstate, m.bytes snapshot⟩]
  | _ => []

theorem isolated_concat (hm : m.Isolated) {ps : Persister}
    (hps : m.Owned ps.raftstate ∧ m.Owned ps.snapshot) :
    Isolated { m with persisters := m.persisters ++ [ps] } := by
  have hframes : Frames m { m with persisters := m.persisters ++ [ps] } :=
    ⟨Nat.le_refl _, hm.held_lt, fun _ _ hnot ↦ ⟨rfl, hnot⟩⟩
  refine ⟨hm.held_lt, fun x hx ↦ ?_⟩
  rcases List.mem_append.mp hx with hx | hx
  · exact hframes.owned_persisters hm x hx
  · rw [List.mem_singleton.mp hx]
    exact ⟨hframes.owned hps.1, hframes.owned hps.2⟩

theorem contents_concat (m : Memory) (ps : Persister) :
    contents { m with persisters := m.persisters ++ [ps] } = m.contents ++ [m.content ps] :=
  List.map_append

/-- Every step keeps the saved slices out of reach, and does to the saved values what its call does
to persisters by value. -/
theorem isolated_step (hm : m.Isolated) {e : MemoryEvent} (h : m.step e = some n) :
    n.Isolated ∧ disks.run m.contents (m.events e) = some n.contents := by
  have hsame {n : Memory} (hn : n.Isolated ∧ n.contents = m.contents) :
      n.Isolated ∧ disks.run m.contents [] = some n.contents :=
    ⟨hn.1, congrArg some hn.2.symm⟩
  have hcall {n : Memory} {e : DiskEvent} (hn : diskStep m.contents e = some n.contents) :
      disks.run m.contents [e] = some n.contents := by
    rw [Machine.run_cons]
    exact Option.bind_eq_some_iff.mpr ⟨_, hn, rfl⟩
  cases e with
  | allocate bytes =>
    cases h
    have hframes : Frames m ⟨m.arrays ++ [bytes], m.arrays.length :: m.held, m.persisters⟩ := by
      apply frames_append hm
      intro a ha
      rcases List.mem_cons.mp ha with rfl | ha
      · exact Or.inr ⟨Nat.le_refl _, by simp⟩
      · exact Or.inl ha
    exact hsame (hframes.isolated hm rfl)
  | write array index byte =>
    simp only [step] at h
    split_ifs at h with harray
    cases h
    exact hsame ((frames_write hm harray (·.set index byte)).isolated hm rfl)
  | makePersister =>
    cases h
    refine ⟨isolated_concat hm ⟨⟨rfl, fun x hx ↦ ?_⟩, ⟨rfl, fun x hx ↦ ?_⟩⟩, hcall ?_⟩
    · cases hx
    · cases hx
    · exact congrArg some (contents_concat m ⟨none, none⟩).symm
  | copy p =>
    obtain ⟨ps, hps, rfl⟩ := Option.map_eq_some_iff.mp h
    refine ⟨isolated_concat hm (hm.owned ps (List.mem_of_getElem? hps)), hcall ?_⟩
    rw [diskStep, contents_concat]
    simp [contents, hps]
  | save p raftstate snapshot =>
    simp only [step] at h
    split_ifs at h with hholds
    obtain ⟨hn, hp, hcontents⟩ := isolated_save hm hholds.2 h
    refine ⟨hn, hcall ?_⟩
    rw [diskStep, if_pos (by simpa [contents] using hp), hcontents]
  | readRaftState p =>
    obtain ⟨⟨n', x⟩, hread, rfl⟩ := Option.map_eq_some_iff.mp h
    obtain ⟨ps, -, heq⟩ := Option.map_eq_some_iff.mp hread
    cases heq
    exact hsame ((frames_read hm ps.raftstate).isolated hm rfl)
  | readSnapshot p =>
    obtain ⟨⟨n', x⟩, hread, rfl⟩ := Option.map_eq_some_iff.mp h
    obtain ⟨ps, -, heq⟩ := Option.map_eq_some_iff.mp hread
    cases heq
    exact hsame ((frames_read hm ps.snapshot).isolated hm rfl)

/-- The memory refines persisters as values. -/
def refinement : Refinement memory disks where
  abs := contents
  label := events
  inv := Isolated
  abs_init := rfl
  inv_init := ⟨fun _ ha ↦ absurd ha List.not_mem_nil, fun _ hps ↦ absurd hps List.not_mem_nil⟩
  inv_step := fun _ _ _ hm h ↦ (isolated_step hm h).1
  abs_step := fun _ _ _ hm h ↦ (isolated_step hm h).2

end Memory

/-- The event saves to persister `p`. -/
def MemoryEvent.savesTo (p : ℕ) : MemoryEvent → Bool
  | .save q _ _ => q = p
  | _ => false

theorem diskStep_getElem? {s t : List Saved} {e : DiskEvent} {p : ℕ} {content : Saved}
    (h : diskStep s e = some t) (hp : s[p]? = some content) (he : ∀ content, e ≠ .save p content) :
    t[p]? = some content := by
  cases e with
  | make =>
    cases h
    exact Lists.getElem?_concat_eq_some.mpr (Or.inl hp)
  | copy q =>
    obtain ⟨x, -, rfl⟩ := Option.map_eq_some_iff.mp h
    exact Lists.getElem?_concat_eq_some.mpr (Or.inl hp)
  | save q x =>
    simp only [diskStep] at h
    split_ifs at h with hq
    cases h
    have hne : q ≠ p := by
      rintro rfl
      exact he x rfl
    rw [List.getElem?_set_ne hne]
    exact hp

namespace Memory

variable {m n : Memory}

/-- Steps that do not save to a persister leave what it holds. -/
theorem contents_step (hm : m.Isolated) {e : MemoryEvent} {p : ℕ} {saved : Saved}
    (hp : m.contents[p]? = some saved) (he : e.savesTo p = false) (h : m.step e = some n) :
    n.contents[p]? = some saved := by
  have hrun := (isolated_step hm h).2
  have hsame (hrun : disks.run m.contents [] = some n.contents) : n.contents[p]? = some saved := by
    rw [← Option.some.inj hrun]
    exact hp
  have hcall {e : DiskEvent} (hrun : disks.run m.contents [e] = some n.contents)
      (he : ∀ content, e ≠ .save p content) : n.contents[p]? = some saved := by
    obtain ⟨s, hs, ht⟩ := Machine.run_cons_eq_some hrun
    rw [← Option.some.inj ht]
    exact diskStep_getElem? hs hp he
  cases e with
  | allocate | write | readRaftState | readSnapshot => exact hsame hrun
  | makePersister | copy => exact hcall hrun (by simp)
  | save q raftstate snapshot =>
    apply hcall hrun
    rintro content heq
    cases heq
    simp [MemoryEvent.savesTo] at he

theorem bytes_hold_clone (m : Memory) (s : Option Slice) :
    ((m.clone s).1.hold (m.clone s).2).bytes (m.clone s).2 = m.bytes s := by
  simp [clone, hold, bytes]

/-- What the reads and the sizes return. -/
structure Shows (m : Memory) (p : ℕ) (saved : Saved) : Prop where
  readRaftState : ∃ n x, m.readRaftState p = some (n, x) ∧ n.bytes x = saved.raftstate
  readSnapshot : ∃ n x, m.readSnapshot p = some (n, x) ∧ n.bytes x = saved.snapshot
  raftStateSize : m.raftStateSize p = some saved.raftstate.length
  snapshotSize : m.snapshotSize p = some saved.snapshot.length

theorem Isolated.shows (hm : m.Isolated) {p : ℕ} {saved : Saved}
    (hp : m.contents[p]? = some saved) : m.Shows p saved := by
  obtain ⟨ps, hps, rfl⟩ : ∃ ps, m.persisters[p]? = some ps ∧ m.content ps = saved := by
    simpa [contents] using hp
  obtain ⟨hraftstate, hsnapshot⟩ := hm.owned ps (List.mem_of_getElem? hps)
  constructor
  · exact ⟨_, _, by rw [readRaftState, hps]; rfl, bytes_hold_clone m ps.raftstate⟩
  · exact ⟨_, _, by rw [readSnapshot, hps]; rfl, bytes_hold_clone m ps.snapshot⟩
  · rw [raftStateSize, hps, Option.map_some, ← hraftstate.length_bytes]
    rfl
  · rw [snapshotSize, hps, Option.map_some, ← hsnapshot.length_bytes]
    rfl

/-- `Save` to a persister that exists is carried out. -/
theorem save_isSome {p : ℕ} {saved : Saved} (hp : m.contents[p]? = some saved)
    {raftstate snapshot : Option Slice} (hraftstate : m.holds raftstate = true)
    (hsnapshot : m.holds snapshot = true) :
    (m.step (.save p raftstate snapshot)).isSome = true := by
  have hlt : p < m.persisters.length := by
    simpa [contents] using (List.getElem?_eq_some_iff.mp hp).1
  simp only [step, save, hraftstate, hsnapshot, hlt]
  rfl

/-- **Saved state is isolated.** In every reachable memory each call does to what the persisters
hold what it does to persisters by value, and `Save` to an existing persister is carried out; the
reads and the sizes return what a persister holds.  Whatever the rest of the program does with the
slices it passed to `Save` or got from the reads, and whatever is saved to other persisters, copies
included, a persister keeps what it holds until it is saved to again. -/
theorem saved_isolated (h : memory.Reachable m) :
    (∀ e n, m.step e = some n → disks.run m.contents (m.events e) = some n.contents) ∧
    ∀ p saved, m.contents[p]? = some saved →
      m.Shows p saved ∧
      (∀ raftstate snapshot, m.holds raftstate = true → m.holds snapshot = true →
        (m.step (.save p raftstate snapshot)).isSome = true) ∧
      ∀ n, memory.ReachableFrom (fun _ e ↦ e.savesTo p = false) m n →
        n.contents[p]? = some saved ∧ n.Shows p saved := by
  have hm : m.Isolated := refinement.inv_of_reachable h
  refine ⟨fun e n hstep ↦ refinement.run_label h hstep, fun p saved hp ↦
    ⟨hm.shows hp, fun _ _ ↦ save_isSome hp, fun n hn ↦ ?_⟩⟩
  have hinv : n.Isolated ∧ n.contents[p]? = some saved := by
    apply hn.invariant (I := fun n ↦ n.Isolated ∧ n.contents[p]? = some saved)
    · exact ⟨hm, hp⟩
    · intro m e n hm he hstep
      exact ⟨(isolated_step hm.1 hstep).1, contents_step hm.1 hm.2 he hstep⟩
  exact ⟨hinv.2, hinv.1.shows hinv.2⟩

/-- The array that was saved is overwritten, and a copy is saved to; the persister keeps its bytes.
-/
theorem saved_isolated_sample :
    ∃ m, memory.Reachable m ∧ ∃ n, memory.ReachableFrom (fun _ e ↦ e.savesTo 0 = false) m n ∧
      n.arrays[0]? = some [9] ∧ n.Shows 0 ⟨[1], [2]⟩ := by
  let more : List MemoryEvent := [.write 0 0 9, .copy 0, .save 1 (some ⟨0, 0, 1⟩) none]
  have hrun : ∃ m, memory.Reachable m ∧ m.contents[0]? = some ⟨[1], [2]⟩ ∧
      (memory.runWhen (fun _ e ↦ e.savesTo 0 = false) m more).any
        (fun n ↦ n.arrays[0]? = some [9]) = true :=
    Machine.exists_reachable [.allocate [1], .allocate [2], .makePersister,
      .save 0 (some ⟨0, 0, 1⟩) (some ⟨1, 0, 1⟩)] (by decide)
  obtain ⟨m, hm, hcontents, hmore⟩ := hrun
  obtain ⟨n, hn, harray⟩ := (Option.any_eq_true _ _).mp hmore
  have hreach := Machine.ReachableFrom.of_runWhen hn
  have hshows := (((saved_isolated hm).2 0 _ hcontents).2.2 n hreach).2
  exact ⟨m, hm, n, hreach, of_decide_eq_true harray, hshows⟩

end Memory

end DistKvRaft.Raft
