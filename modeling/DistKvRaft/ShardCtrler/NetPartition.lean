import DistKvRaft.Labrpc.Ends
import Mathlib.Data.List.ReduceOption

/-!
# Partitions of the controller's servers

The test configuration of the controller can cut the servers into two groups, with the leader in the
smaller one, and let servers talk only within their group.
-/

namespace DistKvRaft.ShardCtrler

open Labrpc

/-! ## Changes of ends -/

section Model

variable {End : Type} (n : ℕ) (endnames : ℕ → Option (List End))

/-- The changes that `connectUnlocked` makes; `none` where it panics. -/
def connectUnlocked (i : ℕ) (dests : List ℕ) : Option (List (EndChange End ℕ)) :=
  (dests.mapM fun j ↦ endname endnames i j).bind fun outgoing ↦
    (dests.mapM fun j ↦ endname endnames j i).map fun incoming ↦
      (outgoing ++ incoming).map (.enable · true)

/-- `endnames[i][j]` under the test that `endnames[k]` is not nil. -/
def guardedEndname (k i j : ℕ) : Option (Option End) :=
  if n ≤ k then none
  else if (endnames k).isSome then (endname endnames i j).map some
  else some none

/-- The changes that `disconnectUnlocked` makes; `none` where it panics.  The second loop looks
whether `endnames[j]` is nil, for the position `j` in the list, before it takes
`endnames[from[j]]`. -/
def disconnectUnlocked (i : ℕ) (sources : List ℕ) : Option (List (EndChange End ℕ)) :=
  (sources.mapM fun j ↦ guardedEndname n endnames i i j).bind fun outgoing ↦
    (sources.zipIdx.mapM fun p ↦ guardedEndname n endnames p.2 p.1 i).map fun incoming ↦
      (outgoing ++ incoming).reduceOption.map (.enable · false)

/-- One of the two loops of `partition`. -/
def partitionLoop (p q : List ℕ) : Option (List (EndChange End ℕ)) :=
  (p.mapM fun i ↦ (disconnectUnlocked n endnames i q).bind fun off ↦
    (connectUnlocked endnames i p).map fun on ↦ off ++ on).map List.flatten

def partition (p1 p2 : List ℕ) : Option (List (EndChange End ℕ)) :=
  (partitionLoop n endnames p1 p2).bind fun first ↦
    (partitionLoop n endnames p2 p1).map fun second ↦ first ++ second

end Model

/-- The loop of `make_partition`; `none` where it panics. -/
def makePartitionLoop (l : ℕ) : List ℕ → List ℕ → List ℕ → ℕ → Option (List ℕ × List ℕ)
  | [], p1, p2, _ => some (p1, p2)
  | i :: rest, p1, p2, j =>
    if i ≠ l then
      if j < p1.length then makePartitionLoop l rest (p1.set j i) p2 (j + 1)
      else if j - p1.length < p2.length then
        makePartitionLoop l rest p1 (p2.set (j - p1.length) i) (j + 1)
      else none
    else makePartitionLoop l rest p1 p2 j

/-- `make_partition` of `n` servers when `Leader` has returned `l`. -/
def makePartition (n l : ℕ) : Option (List ℕ × List ℕ) :=
  (makePartitionLoop l (List.range n) (List.replicate (n / 2 + 1) 0) (List.replicate (n / 2) 0)
    0).bind fun p ↦
      if p.2 = [] then none else some (p.1, p.2.set (p.2.length - 1) l)

/-! ## make_partition -/

/-- The two slices are filled as if they were one. -/
theorem makePartitionLoop_eq {l : ℕ} {is p1 p2 : List ℕ} {j : ℕ}
    (hroom : j + (is.filter (· ≠ l)).length ≤ (p1 ++ p2).length) :
    ∃ q1 q2, makePartitionLoop l is p1 p2 j = some (q1, q2) ∧ q1.length = p1.length ∧
      q2.length = p2.length ∧
      q1 ++ q2 = (p1 ++ p2).take j ++ is.filter (· ≠ l) ++
        (p1 ++ p2).drop (j + (is.filter (· ≠ l)).length) := by
  induction is generalizing p1 p2 j with
  | nil => exact ⟨p1, p2, rfl, rfl, rfl, by simp⟩
  | cons i is ih =>
    by_cases hil : i = l
    · have hfilter : (i :: is).filter (· ≠ l) = is.filter (· ≠ l) := by simp [hil]
      rw [hfilter] at hroom ⊢
      rw [makePartitionLoop, if_neg (not_not.mpr hil)]
      exact ih hroom
    · have hfilter : (i :: is).filter (· ≠ l) = i :: is.filter (· ≠ l) := by simp [hil]
      rw [hfilter, List.length_cons] at hroom
      rw [hfilter, makePartitionLoop, if_pos hil]
      have hj : j < (p1 ++ p2).length := by omega
      have htake : ((p1 ++ p2).set j i).take (j + 1) = (p1 ++ p2).take j ++ [i] := by
        rw [List.take_add_one, List.take_set_of_le (Nat.le_refl j), List.getElem?_set_self hj]
        rfl
      have hdrop : ((p1 ++ p2).set j i).drop (j + 1 + (is.filter (· ≠ l)).length) =
          (p1 ++ p2).drop (j + ((is.filter (· ≠ l)).length + 1)) := by
        rw [List.drop_set_of_lt (by omega)]
        congr 1
        omega
      -- either slice is written at the place that the one slice would be written at
      have hnext : ∀ r1 r2, r1 ++ r2 = (p1 ++ p2).set j i → r1.length = p1.length →
          r2.length = p2.length → ∃ q1 q2, makePartitionLoop l is r1 r2 (j + 1) = some (q1, q2) ∧
            q1.length = p1.length ∧ q2.length = p2.length ∧
            q1 ++ q2 = (p1 ++ p2).take j ++ i :: is.filter (· ≠ l) ++
              (p1 ++ p2).drop (j + (i :: is.filter (· ≠ l)).length) := by
        intro r1 r2 hr h1 h2
        have hroom' : j + 1 + (is.filter (· ≠ l)).length ≤ (r1 ++ r2).length := by
          rw [hr, List.length_set]
          omega
        obtain ⟨q1, q2, hq, hq1, hq2, heq⟩ := ih hroom'
        refine ⟨q1, q2, hq, hq1.trans h1, hq2.trans h2, ?_⟩
        rw [heq, hr, htake, hdrop, List.length_cons]
        simp
      have happend := List.set_append (i := j) (x := i) (s := p1) (t := p2)
      by_cases hj1 : j < p1.length
      · rw [if_pos hj1] at happend ⊢
        exact hnext _ _ happend.symm (List.length_set ..) rfl
      · rw [List.length_append] at hj
        rw [if_neg hj1] at happend ⊢
        rw [if_pos (by omega)]
        exact hnext _ _ happend.symm rfl (List.length_set ..)

theorem others_perm {n l : ℕ} (hl : l < n) :
    ((List.range n).filter (· ≠ l) ++ [l]).Perm (List.range n) := by
  have herase : (List.range n).erase l = (List.range n).filter (· ≠ l) := by
    rw [List.nodup_range.erase_eq_filter]
    apply List.filter_congr
    intro x _
    exact (decide_not ..).symm
  rw [← herase]
  exact List.perm_append_comm.trans (List.perm_cons_erase (List.mem_range.mpr hl)).symm

/-- The leader is written last, over the last place of the second slice. -/
theorem makePartition_eq {n l : ℕ} (hn : 2 ≤ n) (hl : l < n) :
    ∃ p1 p2, makePartition n l = some (p1, p2) ∧ l ∈ p2 ∧ p1.length = n / 2 + 1 ∧
      p2.length = n / 2 ∧
      (n % 2 = 1 → p1 ++ p2 = (List.range n).filter (· ≠ l) ++ [l]) := by
  have hothers : ((List.range n).filter (· ≠ l)).length + 1 = n := by
    have hlength := (others_perm hl).length_eq
    rwa [List.length_append, List.length_singleton, List.length_range] at hlength
  have hroom : 0 + ((List.range n).filter (· ≠ l)).length ≤
      (List.replicate (n / 2 + 1) 0 ++ List.replicate (n / 2) 0).length := by
    simp only [List.length_append, List.length_replicate]
    omega
  obtain ⟨q1, q2, hq, hq1, hq2, heq⟩ := makePartitionLoop_eq hroom
  rw [List.length_replicate] at hq1 hq2
  have hne : q2 ≠ [] := List.ne_nil_of_length_pos (by omega)
  refine ⟨q1, q2.set (q2.length - 1) l, ?_, List.mem_set (by omega) l, hq1, ?_, fun hodd ↦ ?_⟩
  · rw [makePartition, hq]
    exact if_neg hne
  · rw [List.length_set, hq2]
  · obtain ⟨r, x, rfl⟩ := (List.eq_nil_or_concat q2).resolve_left hne
    have hlast : (r ++ [x]).set ((r ++ [x]).length - 1) l = r ++ [l] := by simp
    have hzeros : (List.replicate (n / 2 + 1) 0 ++ List.replicate (n / 2) 0).drop
        (0 + ((List.range n).filter (· ≠ l)).length) = [0] := by
      rw [← List.replicate_add, List.drop_replicate]
      have hone : n / 2 + 1 + n / 2 - (0 + ((List.range n).filter (· ≠ l)).length) = 1 := by omega
      rw [hone]
      rfl
    rw [hzeros, List.take_zero, List.nil_append, List.concat_eq_append,
      ← List.append_assoc] at heq
    rw [List.concat_eq_append, hlast, ← List.append_assoc, (List.append_inj' heq rfl).1]

/-- **The partition is one for odd numbers of servers only.** `make_partition` puts the leader into
the second of two slices, which is the smaller one.  If the number of servers is odd, the slices
have every server once.  If it is even, they do not: they have one place too many, and the zero that
is left in it stands for a server that has another place. -/
theorem makePartition_perm_iff {n l : ℕ} (hn : 2 ≤ n) (hl : l < n) :
    ∃ p1 p2, makePartition n l = some (p1, p2) ∧ l ∈ p2 ∧ p2.length < p1.length ∧
      ((p1 ++ p2).Perm (List.range n) ↔ n % 2 = 1) := by
  obtain ⟨p1, p2, hpartition, hmem, h1, h2, hodd⟩ := makePartition_eq hn hl
  refine ⟨p1, p2, hpartition, hmem, by omega, fun hperm ↦ ?_, fun h ↦ ?_⟩
  · have hlength := hperm.length_eq
    rw [List.length_append, List.length_range] at hlength
    omega
  · rw [hodd h]
    exact others_perm hl

theorem makePartition_perm_iff_of_four :
    ∃ p1 p2, makePartition 4 3 = some (p1, p2) ∧ 3 ∈ p2 ∧ p2.length < p1.length ∧
      ((p1 ++ p2).Perm (List.range 4) ↔ 4 % 2 = 1) :=
  makePartition_perm_iff (by decide) (by decide)

/-! ## partition -/

section Partition

variable {End : Type} {n : ℕ} {endnames : ℕ → Option (List End)}

/-- Every server has its own end to every server. -/
structure Table (n : ℕ) (endnames : ℕ → Option (List End)) : Prop where
  full : ∀ i j, i < n → j < n → ∃ e, endname endnames i j = some e
  distinct : ∀ i j i' j' e, endname endnames i j = some e → endname endnames i' j' = some e →
    i = i' ∧ j = j'

/-- The changes switch the ends between server `i` and the servers `js`, in both directions. -/
def Switched (endnames : ℕ → Option (List End)) (i : ℕ) (js : List ℕ) (enabled : Bool)
    (changes : List (EndChange End ℕ)) : Prop :=
  ∀ change, change ∈ changes ↔ ∃ j ∈ js, ∃ e,
    (endname endnames i j = some e ∨ endname endnames j i = some e) ∧ change = .enable e enabled

theorem switched_of_mem {i : ℕ} {js : List ℕ} {outgoing incoming : List End} (enabled : Bool)
    (hout : ∀ e, e ∈ outgoing ↔ ∃ j ∈ js, endname endnames i j = some e)
    (hin : ∀ e, e ∈ incoming ↔ ∃ j ∈ js, endname endnames j i = some e) :
    Switched endnames i js enabled ((outgoing ++ incoming).map (.enable · enabled)) := by
  intro change
  simp only [List.mem_map, List.mem_append, hout, hin]
  constructor
  · rintro ⟨e, ⟨j, hj, he⟩ | ⟨j, hj, he⟩, rfl⟩
    · exact ⟨j, hj, e, Or.inl he, rfl⟩
    · exact ⟨j, hj, e, Or.inr he, rfl⟩
  · rintro ⟨j, hj, e, he | he, rfl⟩
    · exact ⟨e, Or.inl ⟨j, hj, he⟩, rfl⟩
    · exact ⟨e, Or.inr ⟨j, hj, he⟩, rfl⟩

namespace Table

variable (ht : Table n endnames)

include ht

theorem guardedEndname_eq {k i j : ℕ} (hk : k < n) :
    guardedEndname n endnames k i j = (endname endnames i j).map some := by
  obtain ⟨e, he⟩ := ht.full k k hk hk
  obtain ⟨names, hnames, -⟩ := Option.bind_eq_some_iff.mp he
  rw [guardedEndname, if_neg hk.not_ge, hnames]
  rfl

theorem exists_connectUnlocked {i : ℕ} {dests : List ℕ} (hi : i < n)
    (hdests : ∀ j ∈ dests, j < n) :
    ∃ changes, connectUnlocked endnames i dests = some changes ∧
      Switched endnames i dests true changes := by
  obtain ⟨outgoing, hout, hmemOut⟩ :=
    Lists.exists_mapM fun j hj ↦ ht.full i j hi (hdests j hj)
  obtain ⟨incoming, hin, hmemIn⟩ :=
    Lists.exists_mapM fun j hj ↦ ht.full j i (hdests j hj) hi
  refine ⟨_, ?_, switched_of_mem true hmemOut hmemIn⟩
  rw [connectUnlocked, hout, Option.bind_some, hin, Option.map_some]

/-- The test of the wrong place in the second loop does no harm when all servers have their ends. -/
theorem exists_disconnectUnlocked {i : ℕ} {sources : List ℕ} (hi : i < n)
    (hsources : ∀ j ∈ sources, j < n) (hlength : sources.length ≤ n) :
    ∃ changes, disconnectUnlocked n endnames i sources = some changes ∧
      Switched endnames i sources false changes := by
  have hplace : ∀ p ∈ sources.zipIdx, p.1 ∈ sources ∧ p.2 < n := by
    intro p hp
    have hget := List.mem_zipIdx_iff_getElem?.mp hp
    exact ⟨List.mem_of_getElem? hget, (List.getElem?_eq_some_iff.mp hget).1.trans_le hlength⟩
  obtain ⟨outgoing, hout, hmemOut⟩ : ∃ r, _ ∧ _ :=
    Lists.exists_mapM (l := sources) (f := fun j ↦ guardedEndname n endnames i i j) fun j hj ↦ by
      obtain ⟨e, he⟩ := ht.full i j hi (hsources j hj)
      exact ⟨some e, by rw [ht.guardedEndname_eq hi, he]; rfl⟩
  obtain ⟨incoming, hin, hmemIn⟩ : ∃ r, _ ∧ _ :=
    Lists.exists_mapM (l := sources.zipIdx) (f := fun p ↦ guardedEndname n endnames p.2 p.1 i)
      fun p hp ↦ by
        obtain ⟨e, he⟩ := ht.full p.1 i (hsources p.1 (hplace p hp).1) hi
        exact ⟨some e, by rw [ht.guardedEndname_eq (hplace p hp).2, he]; rfl⟩
  refine ⟨((outgoing ++ incoming).reduceOption).map (.enable · false), ?_, ?_⟩
  · rw [disconnectUnlocked, hout, Option.bind_some, hin, Option.map_some]
  · rw [List.reduceOption_append]
    refine switched_of_mem false (fun e ↦ ?_) fun e ↦ ?_
    · rw [List.reduceOption_mem_iff, hmemOut]
      simp [ht.guardedEndname_eq hi]
    · rw [List.reduceOption_mem_iff, hmemIn]
      constructor
      · rintro ⟨p, hp, he⟩
        rw [ht.guardedEndname_eq (hplace p hp).2] at he
        exact ⟨p.1, (hplace p hp).1, by simpa using he⟩
      · rintro ⟨j, hj, he⟩
        obtain ⟨k, hk⟩ := List.getElem?_of_mem hj
        have hp : (j, k) ∈ sources.zipIdx := List.mem_zipIdx_iff_getElem?.mpr hk
        refine ⟨(j, k), hp, ?_⟩
        rw [ht.guardedEndname_eq (hplace _ hp).2, he]
        rfl

/-- The ends that one loop of `partition` switches, and how. -/
theorem exists_partitionLoop {p q : List ℕ} (hp : ∀ i ∈ p, i < n) (hq : ∀ i ∈ q, i < n)
    (hlength : q.length ≤ n) :
    ∃ changes, partitionLoop n endnames p q = some changes ∧ ∀ change, change ∈ changes ↔
      ∃ i ∈ p, ∃ j e, (endname endnames i j = some e ∨ endname endnames j i = some e) ∧
        (j ∈ q ∧ change = .enable e false ∨ j ∈ p ∧ change = .enable e true) := by
  have hbody : ∀ i ∈ p, ∃ changes, ((disconnectUnlocked n endnames i q).bind fun off ↦
      (connectUnlocked endnames i p).map fun on ↦ off ++ on) = some changes ∧
      ∀ change, change ∈ changes ↔
        ∃ j e, (endname endnames i j = some e ∨ endname endnames j i = some e) ∧
          (j ∈ q ∧ change = .enable e false ∨ j ∈ p ∧ change = .enable e true) := by
    intro i hi
    obtain ⟨off, hoff, hmemOff⟩ := ht.exists_disconnectUnlocked (hp i hi) hq hlength
    obtain ⟨on, hon, hmemOn⟩ := ht.exists_connectUnlocked (hp i hi) hp
    refine ⟨off ++ on, by rw [hoff, Option.bind_some, hon, Option.map_some], fun change ↦ ?_⟩
    rw [List.mem_append, hmemOff, hmemOn]
    constructor
    · rintro (⟨j, hj, e, he, hchange⟩ | ⟨j, hj, e, he, hchange⟩)
      · exact ⟨j, e, he, Or.inl ⟨hj, hchange⟩⟩
      · exact ⟨j, e, he, Or.inr ⟨hj, hchange⟩⟩
    · rintro ⟨j, e, he, ⟨hj, hchange⟩ | ⟨hj, hchange⟩⟩
      · exact Or.inl ⟨j, hj, e, he, hchange⟩
      · exact Or.inr ⟨j, hj, e, he, hchange⟩
  obtain ⟨parts, hparts, hmem⟩ :=
    Lists.exists_mapM fun i hi ↦ (hbody i hi).imp fun _ h ↦ h.1
  refine ⟨parts.flatten, by rw [partitionLoop, hparts, Option.map_some], fun change ↦ ?_⟩
  rw [List.mem_flatten]
  constructor
  · rintro ⟨part, hpart, hchange⟩
    obtain ⟨i, hi, hsome⟩ := (hmem part).mp hpart
    obtain ⟨changes, hchanges, hiff⟩ := hbody i hi
    rw [hsome] at hchanges
    cases hchanges
    exact ⟨i, hi, (hiff change).mp hchange⟩
  · rintro ⟨i, hi, hchange⟩
    obtain ⟨changes, hchanges, hiff⟩ := hbody i hi
    exact ⟨changes, (hmem changes).mpr ⟨i, hi, hchanges⟩, (hiff change).mpr hchange⟩

/-- `partition` switches the ends within a group on and those between the groups off. -/
theorem exists_partition {p1 p2 : List ℕ} (hperm : (p1 ++ p2).Perm (List.range n)) :
    ∃ changes, partition n endnames p1 p2 = some changes ∧ ∀ change, change ∈ changes ↔
      ∃ i < n, ∃ j < n, ∃ e, endname endnames i j = some e ∧
        change = .enable e (decide (i ∈ p1 ↔ j ∈ p1)) := by
  have hside : ∀ i, i ∈ p1 ∨ i ∈ p2 ↔ i < n := fun i ↦ by
    rw [← List.mem_append, hperm.mem_iff, List.mem_range]
  have hapart : ∀ i ∈ p2, i ∉ p1 := by
    have hnodup : (p1 ++ p2).Nodup := hperm.nodup_iff.mpr List.nodup_range
    exact fun i h2 h1 ↦ (List.nodup_append.mp hnodup).2.2 i h1 i h2 rfl
  have hlength : p1.length + p2.length = n := by
    rw [← List.length_append, hperm.length_eq, List.length_range]
  have h1 : ∀ i ∈ p1, i < n := fun i hi ↦ (hside i).mp (Or.inl hi)
  have h2 : ∀ i ∈ p2, i < n := fun i hi ↦ (hside i).mp (Or.inr hi)
  obtain ⟨first, hfirst, hmemFirst⟩ := ht.exists_partitionLoop h1 h2 (by omega)
  obtain ⟨second, hsecond, hmemSecond⟩ := ht.exists_partitionLoop h2 h1 (by omega)
  refine ⟨first ++ second, by rw [partition, hfirst, Option.bind_some, hsecond, Option.map_some],
    fun change ↦ ?_⟩
  rw [List.mem_append, hmemFirst, hmemSecond]
  have hpair : ∀ i j e enabled, i < n → j < n →
      (endname endnames i j = some e ∨ endname endnames j i = some e) →
      enabled = decide (i ∈ p1 ↔ j ∈ p1) → ∃ i < n, ∃ j < n, ∃ e', endname endnames i j = some e' ∧
        (.enable e enabled : EndChange End ℕ) = .enable e' (decide (i ∈ p1 ↔ j ∈ p1)) := by
    rintro i j e _ hi hj (he | he) rfl
    · exact ⟨i, hi, j, hj, e, he, rfl⟩
    · exact ⟨j, hj, i, hi, e, he, congrArg _ (decide_eq_decide.mpr Iff.comm)⟩
  constructor
  · rintro (⟨i, hi, j, e, he, ⟨hj, rfl⟩ | ⟨hj, rfl⟩⟩ | ⟨i, hi, j, e, he, ⟨hj, rfl⟩ | ⟨hj, rfl⟩⟩)
    · exact hpair i j e _ (h1 i hi) (h2 j hj) he (by simp [hi, hapart j hj])
    · exact hpair i j e _ (h1 i hi) (h1 j hj) he (by simp [hi, hj])
    · exact hpair i j e _ (h2 i hi) (h1 j hj) he (by simp [hapart i hi, hj])
    · exact hpair i j e _ (h2 i hi) (h2 j hj) he (by simp [hapart i hi, hapart j hj])
  · rintro ⟨i, hi, j, hj, e, he, rfl⟩
    rcases (hside i).mpr hi with hi | hi
    · rcases (hside j).mpr hj with hj | hj
      · exact Or.inl ⟨i, hi, j, e, Or.inl he, Or.inr ⟨hj, by simp [hi, hj]⟩⟩
      · exact Or.inl ⟨i, hi, j, e, Or.inl he, Or.inl ⟨hj, by simp [hi, hapart j hj]⟩⟩
    · rcases (hside j).mpr hj with hj | hj
      · exact Or.inr ⟨i, hi, j, e, Or.inl he, Or.inl ⟨hj, by simp [hapart i hi, hj]⟩⟩
      · exact Or.inr ⟨i, hi, j, e, Or.inl he, Or.inr ⟨hj, by simp [hapart i hi, hapart j hj]⟩⟩

/-- Whatever else happens on the network while the changes are made. -/
theorem enabled_of_partition [DecidableEq End] {p1 p2 : List ℕ}
    {changes : List (EndChange End ℕ)} {events : List (Event End ℕ)} {s t : Traffic End ℕ}
    (hperm : (p1 ++ p2).Perm (List.range n)) (hchanges : partition n endnames p1 p2 = some changes)
    (hevents : events.filter (!·.leavesEnds) = changes.map (.change ·.toChange))
    (hrun : (labrpc End ℕ).run s events = some t) {i j : ℕ} {e : End} (hi : i < n) (hj : j < n)
    (he : endname endnames i j = some e) : t.net.enabled e = decide (i ∈ p1 ↔ j ∈ p1) := by
  classical
  obtain ⟨changes', hsome, hmem⟩ := ht.exists_partition hperm
  rw [hchanges] at hsome
  cases hsome
  -- an end belongs to one pair of servers, so it is always switched the same way
  let enabled (e : End) : Bool :=
    decide (∃ i j, endname endnames i j = some e ∧ (i ∈ p1 ↔ j ∈ p1))
  have henabled : ∀ i j e, endname endnames i j = some e →
      enabled e = decide (i ∈ p1 ↔ j ∈ p1) := by
    intro i j e he
    refine decide_eq_decide.mpr ⟨?_, fun hside ↦ ⟨i, j, he, hside⟩⟩
    rintro ⟨i', j', he', hside⟩
    obtain ⟨rfl, rfl⟩ := ht.distinct i j i' j' e he he'
    exact hside
  have hswitches : ∀ change ∈ changes, ∃ e, .enable e (enabled e) = change := by
    intro change hchange
    obtain ⟨i, -, j, -, e, he, rfl⟩ := (hmem change).mp hchange
    exact ⟨e, by rw [henabled i j e he]⟩
  obtain ⟨w, hw, hset⟩ := s.net.wires.exists_applyAll_of_switches hswitches
  have hwires := wires_of_run hrun hevents hw
  calc t.net.enabled e = w.enabled e := congrArg (Wires.enabled · e) hwires
    _ = enabled e := hset e ((hmem _).mpr ⟨i, hi, j, hj, e, he, by rw [henabled i j e he]⟩)
    _ = decide (i ∈ p1 ↔ j ∈ p1) := henabled i j e he

end Table

/-- **A partition leaves the leader in a minority.** For an odd number of servers with all their
ends made, `make_partition` and `partition` run to the end, and when the changes are done, whatever
was called and answered meanwhile, an end is enabled exactly when it leads from a server to one of
the same group.  The leader's group has fewer than half of the servers. -/
theorem leader_in_minority [DecidableEq End] {l : ℕ} (hn : 2 ≤ n) (hodd : n % 2 = 1) (hl : l < n)
    (ht : Table n endnames) :
    ∃ p1 p2 changes, makePartition n l = some (p1, p2) ∧
      partition n endnames p1 p2 = some changes ∧ l ∈ p2 ∧ 2 * p2.length < n ∧
      ∀ (s t : Traffic End ℕ) (events : List (Event End ℕ)),
        events.filter (!·.leavesEnds) = changes.map (.change ·.toChange) →
        (labrpc End ℕ).run s events = some t →
        ∀ i < n, ∀ j < n, ∀ e, endname endnames i j = some e →
          (t.net.enabled e = true ↔ (i ∈ p1 ↔ j ∈ p1)) := by
  obtain ⟨p1, p2, hmake, hmem, -, hlength, hall⟩ := makePartition_eq hn hl
  have hperm : (p1 ++ p2).Perm (List.range n) := by
    rw [hall hodd]
    exact others_perm hl
  obtain ⟨changes, hchanges, -⟩ := ht.exists_partition hperm
  refine ⟨p1, p2, changes, hmake, hchanges, hmem, by omega, ?_⟩
  intro s t events hevents hrun i hi j hj e he
  rw [ht.enabled_of_partition hperm hchanges hevents hrun hi hj he, decide_eq_true_iff]

/-- Ends named by their two servers. -/
def pairNames (n i : ℕ) : Option (List (ℕ × ℕ)) :=
  if i < n then some ((List.range n).map fun j ↦ (i, j)) else none

theorem pairNames_table (n : ℕ) : Table n (pairNames n) := by
  have hname : ∀ i j e, endname (pairNames n) i j = some e ↔ (i < n ∧ j < n) ∧ (i, j) = e := by
    intro i j e
    by_cases hi : i < n
    · by_cases hj : j < n
      · simp [endname, pairNames, hi, hj]
      · simp [endname, pairNames, hi, hj]
    · simp [endname, pairNames, hi]
  refine ⟨fun i j hi hj ↦ ⟨(i, j), (hname i j _).mpr ⟨⟨hi, hj⟩, rfl⟩⟩, ?_⟩
  intro i j i' j' e he he'
  have heq := ((hname i j e).mp he).2.trans ((hname i' j' e).mp he').2.symm
  exact ⟨congrArg Prod.fst heq, congrArg Prod.snd heq⟩

theorem leader_in_minority_of_three :
    ∃ p1 p2 changes, makePartition 3 0 = some (p1, p2) ∧
      partition 3 (pairNames 3) p1 p2 = some changes ∧ 0 ∈ p2 ∧ 2 * p2.length < 3 ∧
      ∀ (s t : Traffic (ℕ × ℕ) ℕ) (events : List (Event (ℕ × ℕ) ℕ)),
        events.filter (!·.leavesEnds) = changes.map (.change ·.toChange) →
        (labrpc (ℕ × ℕ) ℕ).run s events = some t →
        ∀ i < 3, ∀ j < 3, ∀ e, endname (pairNames 3) i j = some e →
          (t.net.enabled e = true ↔ (i ∈ p1 ↔ j ∈ p1)) :=
  leader_in_minority (by decide) (by decide) (by decide) (pairNames_table 3)

end Partition

end DistKvRaft.ShardCtrler
