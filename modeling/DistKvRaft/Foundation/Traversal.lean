import DistKvRaft.Foundation.Lists
import DistKvRaft.Foundation.Machine
import Mathlib.Data.Fintype.Card

/-!
# Concurrent traversal of a graph

Workers traverse a graph together.  Each has a stack of work: nodes to visit, and outputs to emit.
To visit a node that nobody has visited marks it and puts the work of the node on the stack; other
nodes are skipped.  Test and mark are one step, and all steps of all workers interleave.  The graph
may have cycles, and workers may start at any time.

When no work is left, the marked nodes are those reachable from where the workers started, and every
output of a marked node has been emitted exactly once.  With finitely many nodes the work ends.
-/

namespace DistKvRaft.Traversal

open scoped List

/-- A piece of work. -/
inductive Work (α β : Type*)
  | visit (a : α)
  | emit (b : β)

/-- The marked nodes, the work that is done in order, the work that workers were started with, and
their workers. -/
structure State (α β : Type*) where
  seen : List α
  done : List (Work α β)
  started : List (Work α β)
  workers : List (List (Work α β))

inductive Event (α β : Type*)
  | start (work : List (Work α β))
  | work (k : ℕ)

section Model

variable {α β : Type*} [DecidableEq α] (expand : α → List (Work α β))

/-- Worker `k` takes the next piece of work. -/
def State.work (s : State α β) (k : ℕ) : Option (State α β) :=
  match s.workers[k]? with
  | some (.visit a :: rest) =>
    if a ∈ s.seen then
      some { s with done := s.done ++ [.visit a], workers := s.workers.set k rest }
    else
      some { s with
        seen := s.seen ++ [a]
        done := s.done ++ [.visit a]
        workers := s.workers.set k (expand a ++ rest) }
  | some (.emit b :: rest) =>
    some { s with done := s.done ++ [.emit b], workers := s.workers.set k rest }
  | _ => none

def State.step (s : State α β) : Event α β → Option (State α β)
  | .start work => some { s with started := s.started ++ work, workers := s.workers ++ [work] }
  | .work k => s.work expand k

/-- Traversal of the graph in which a node has the work `expand`. -/
def traversal : Machine (State α β) (Event α β) := ⟨⟨[], [], [], []⟩, State.step expand⟩

end Model

section Results

variable {α β : Type*} {expand : α → List (Work α β)} {s t : State α β} {k : ℕ}

/-- Nodes that can be reached from some work. -/
inductive Reach (expand : α → List (Work α β)) (started : List (Work α β)) : α → Prop
  | root {a : α} (h : .visit a ∈ started) : Reach expand started a
  | child {a b : α} (ha : Reach expand started a) (h : .visit b ∈ expand a) :
      Reach expand started b

theorem Reach.mono {started more : List (Work α β)} {a : α} (h : Reach expand started a) :
    Reach expand (started ++ more) a := by
  induction h with
  | root h => exact .root (List.mem_append_left _ h)
  | child _ h ih => exact .child ih h

/-- The output of a piece of work. -/
def Work.output : Work α β → Option β
  | .emit b => some b
  | .visit _ => none

@[simp]
theorem Work.output_visit (a : α) : (Work.visit a : Work α β).output = none := rfl

@[simp]
theorem Work.output_emit (b : β) : (Work.emit b : Work α β).output = some b := rfl

/-- The work that is left. -/
def State.pending (s : State α β) : List (Work α β) := s.workers.flatten

/-- The steps of a worker, one case for each outcome. -/
inductive Worked (expand : α → List (Work α β)) (s : State α β) (k : ℕ) : State α β → Prop
  | skip {a : α} {rest : List (Work α β)} (hk : s.workers[k]? = some (.visit a :: rest))
      (h : a ∈ s.seen) :
      Worked expand s k { s with done := s.done ++ [.visit a], workers := s.workers.set k rest }
  | mark {a : α} {rest : List (Work α β)} (hk : s.workers[k]? = some (.visit a :: rest))
      (h : a ∉ s.seen) :
      Worked expand s k { s with
        seen := s.seen ++ [a]
        done := s.done ++ [.visit a]
        workers := s.workers.set k (expand a ++ rest) }
  | emit {b : β} {rest : List (Work α β)} (hk : s.workers[k]? = some (.emit b :: rest)) :
      Worked expand s k { s with done := s.done ++ [.emit b], workers := s.workers.set k rest }

theorem worked_of_work [DecidableEq α] (h : s.work expand k = some t) : Worked expand s k t := by
  unfold State.work at h
  split at h
  · next hk =>
    split_ifs at h with hseen
    · cases h
      exact .skip hk hseen
    · cases h
      exact .mark hk hseen
  · next hk =>
    cases h
    exact .emit hk
  · cases h

theorem started_eq_of_worked (h : Worked expand s k t) : t.started = s.started := by
  cases h with
  | skip | mark | emit => rfl

/-- Every piece of work comes from a start or from a marked node and is either done or left. -/
structure State.Balanced (expand : α → List (Work α β)) (s : State α β) : Prop where
  nodup : s.seen.Nodup
  perm : (s.done ++ s.pending).Perm (s.started ++ s.seen.flatMap expand)
  visited : ∀ a, .visit a ∈ s.done ↔ a ∈ s.seen
  reach : ∀ a ∈ s.seen, Reach expand s.started a

/-- Work on top of a stack was taken and other work put there instead. -/
theorem pending_set_perm {w : Work α β} {rest : List (Work α β)}
    (hk : s.workers[k]? = some (w :: rest)) (new : List (Work α β)) :
    (w :: (s.workers.set k (new ++ rest)).flatten).Perm (s.pending ++ new) := by
  have hset := Lists.flatten_set_perm hk (new ++ rest)
  have hmiddle : ((s.workers.set k (new ++ rest)).flatten ++ w :: rest).Perm
      (w :: (s.workers.set k (new ++ rest)).flatten ++ rest) := List.perm_middle
  have hboth := hmiddle.symm.trans hset
  rw [← List.append_assoc] at hboth
  exact (List.perm_append_right_iff rest).mp hboth

theorem State.Balanced.reach_pending (hs : s.Balanced expand) {a : α} (h : .visit a ∈ s.pending) :
    Reach expand s.started a := by
  have hmem := hs.perm.mem_iff.mp (List.mem_append_right s.done h)
  rcases List.mem_append.mp hmem with hroot | hchild
  · exact .root hroot
  · obtain ⟨b, hb, hvisit⟩ := List.mem_flatMap.mp hchild
    exact .child (hs.reach b hb) hvisit

/-- What holds after a piece of work that put new work on the stack. -/
theorem State.Balanced.perm_work (hs : s.Balanced expand) {w : Work α β} {rest : List (Work α β)}
    (hk : s.workers[k]? = some (w :: rest)) (new : List (Work α β)) :
    (s.done ++ [w] ++ (s.workers.set k (new ++ rest)).flatten).Perm
      (s.started ++ s.seen.flatMap expand ++ new) := by
  calc
    s.done ++ [w] ++ (s.workers.set k (new ++ rest)).flatten
    _ = s.done ++ (w :: (s.workers.set k (new ++ rest)).flatten) := by simp
    _ ~ s.done ++ (s.pending ++ new) := (pending_set_perm hk new).append_left _
    _ = s.done ++ s.pending ++ new := (List.append_assoc ..).symm
    _ ~ s.started ++ s.seen.flatMap expand ++ new := hs.perm.append_right new

theorem State.Balanced.work (hs : s.Balanced expand) (h : Worked expand s k t) :
    t.Balanced expand := by
  cases h with
  | @skip a rest hk hseen =>
    have hperm := hs.perm_work hk []
    rw [List.append_nil, List.nil_append] at hperm
    refine ⟨hs.nodup, hperm, fun b ↦ ?_, hs.reach⟩
    simp only [List.mem_append, hs.visited b, List.mem_singleton, Work.visit.injEq]
    constructor
    · rintro (hb | rfl)
      · exact hb
      · exact hseen
    · exact Or.inl
  | @mark a rest hk hseen =>
    have hperm := hs.perm_work hk (expand a)
    refine ⟨?_, ?_, fun b ↦ ?_, fun b hb ↦ ?_⟩
    · rw [← List.concat_eq_append]
      exact hs.nodup.concat hseen
    · simpa [State.pending, List.append_assoc] using hperm
    · simp [hs.visited b]
    · rcases List.mem_append.mp hb with hb | hb
      · exact hs.reach b hb
      · rw [List.mem_singleton.mp hb]
        apply hs.reach_pending
        exact List.mem_flatten.mpr ⟨_, List.mem_of_getElem? hk, List.mem_cons_self ..⟩
  | @emit b rest hk =>
    have hperm := hs.perm_work hk []
    rw [List.append_nil, List.nil_append] at hperm
    refine ⟨hs.nodup, hperm, fun a ↦ ?_, hs.reach⟩
    simp [hs.visited a]

theorem State.Balanced.start (hs : s.Balanced expand) (work : List (Work α β)) :
    State.Balanced expand
      { s with started := s.started ++ work, workers := s.workers ++ [work] } := by
  refine ⟨hs.nodup, ?_, hs.visited, fun a ha ↦ (hs.reach a ha).mono⟩
  simp only [State.pending, List.flatten_append, List.flatten_singleton]
  calc
    s.done ++ (s.workers.flatten ++ work)
    _ = s.done ++ s.workers.flatten ++ work := (List.append_assoc ..).symm
    _ ~ s.started ++ s.seen.flatMap expand ++ work := hs.perm.append_right work
    _ = s.started ++ (s.seen.flatMap expand ++ work) := List.append_assoc ..
    _ ~ s.started ++ (work ++ s.seen.flatMap expand) := List.perm_append_comm.append_left _
    _ = s.started ++ work ++ s.seen.flatMap expand := (List.append_assoc ..).symm

theorem balanced_of_reachable [DecidableEq α] (h : (traversal expand).Reachable s) :
    s.Balanced expand := by
  apply h.invariant
  · exact ⟨List.nodup_nil, .refl _, by simp [traversal], by simp [traversal]⟩
  · intro s e t hs hstep
    cases e with
    | start work =>
      cases hstep
      exact hs.start work
    | work k => exact hs.work (worked_of_work hstep)

/-! ## When no work is left -/

/-- The marked nodes are those that can be reached. -/
theorem State.Balanced.mem_seen_iff (hs : s.Balanced expand) (hquiet : s.pending = []) (a : α) :
    a ∈ s.seen ↔ Reach expand s.started a := by
  refine ⟨hs.reach a, fun h ↦ ?_⟩
  have hperm := hs.perm
  rw [hquiet, List.append_nil] at hperm
  induction h with
  | root h => exact (hs.visited _).mp (hperm.mem_iff.mpr (List.mem_append_left _ h))
  | child _ h ih =>
    apply (hs.visited _).mp
    exact hperm.mem_iff.mpr (List.mem_append_right _ (List.mem_flatMap.mpr ⟨_, ih, h⟩))

/-- The outputs are those of the marked nodes and of the starts, each once. -/
theorem State.Balanced.outputs_perm (hs : s.Balanced expand) (hquiet : s.pending = []) :
    (s.done.filterMap Work.output).Perm
      (s.started.filterMap Work.output ++
        s.seen.flatMap fun a ↦ (expand a).filterMap Work.output) := by
  have hperm := hs.perm.filterMap Work.output
  rw [hquiet, List.append_nil, List.filterMap_append, List.filterMap_flatMap] at hperm
  exact hperm

/-! ## Work ends -/

/-- A bound for the steps of the workers, if a node has at most `width` pieces of work. -/
def State.remaining [Fintype α] (width : ℕ) (s : State α β) : ℕ :=
  (Fintype.card α - s.seen.length) * (width + 1) + s.pending.length

/-- Every step of a worker brings the work nearer to its end. -/
theorem remaining_lt [Fintype α] {width : ℕ} (hwidth : ∀ a, (expand a).length ≤ width)
    (hs : s.Balanced expand) (h : Worked expand s k t) : t.remaining width < s.remaining width := by
  cases h with
  | @skip a rest hk _ =>
    have hlength := (pending_set_perm hk []).length_eq
    simp only [State.remaining, State.pending, List.nil_append, List.append_nil,
      List.length_cons] at hlength ⊢
    omega
  | @mark a rest hk hseen =>
    have hlength := (pending_set_perm hk (expand a)).length_eq
    have hnew : s.seen.length < Fintype.card α := by
      have hnodup : (s.seen ++ [a]).Nodup := by
        rw [← List.concat_eq_append]
        exact hs.nodup.concat hseen
      have hcard := hnodup.length_le_card
      rwa [List.length_append, List.length_singleton] at hcard
    have hle := hwidth a
    simp only [State.remaining, State.pending, List.length_append, List.length_cons,
      List.length_nil] at hlength ⊢
    have hsub : Fintype.card α - s.seen.length =
        Fintype.card α - (s.seen.length + (0 + 1)) + 1 := by omega
    rw [hsub, Nat.add_mul]
    omega
  | @emit b rest hk =>
    have hlength := (pending_set_perm hk []).length_eq
    simp only [State.remaining, State.pending, List.nil_append, List.append_nil,
      List.length_cons] at hlength ⊢
    omega

/-- A worker with work can take a step. -/
theorem exists_worked [DecidableEq α] (expand : α → List (Work α β)) {w : Work α β}
    {rest : List (Work α β)} (hk : s.workers[k]? = some (w :: rest)) :
    ∃ t, s.work expand k = some t := by
  unfold State.work
  rw [hk]
  cases w with
  | emit b => exact ⟨_, rfl⟩
  | visit a =>
    dsimp only
    split_ifs
    · exact ⟨_, rfl⟩
    · exact ⟨_, rfl⟩

end Results

end DistKvRaft.Traversal
