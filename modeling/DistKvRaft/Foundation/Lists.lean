import Mathlib.Algebra.Order.BigOperators.Group.List
import Mathlib.Algebra.Order.Ring.Nat
import Mathlib.Data.List.Basic
import Mathlib.Data.List.Chain
import Mathlib.Data.List.Dedup
import Mathlib.Tactic.Common

/-!
# Lists of parties

A machine with several parties keeps their states in a list: a new party is appended, and a step of
party `k` replaces entry `k`.  The lemmas say what an entry of such a list is after one step, how
the number of entries with a property and what is collected from them change, and when two families
of lists that are bounded by each other have the same lengths.
-/

namespace DistKvRaft.Lists

open scoped List

variable {α β : Type*} {l : List α} {a b : α} {i k : ℕ}

/-- The entries after one more was appended. -/
theorem getElem?_concat_eq_some :
    (l ++ [a])[i]? = some b ↔ l[i]? = some b ∨ i = l.length ∧ a = b := by
  rw [List.getElem?_append]
  split_ifs with hi
  · simp [hi.ne]
  · rcases Nat.lt_or_eq_of_le (Nat.le_of_not_lt hi) with hlt | heq
    · simp [hlt.ne', hlt.le, Nat.sub_ne_zero_of_lt hlt]
    · simp [← heq]

/-- The entries after entry `k` was replaced. -/
theorem getElem?_set_eq_some (hk : k < l.length) :
    (l.set k a)[i]? = some b ↔ (i = k ∧ b = a) ∨ (i ≠ k ∧ l[i]? = some b) := by
  by_cases hi : k = i
  · subst hi
    rw [List.getElem?_set_self hk]
    simp [eq_comm]
  · rw [List.getElem?_set_ne hi]
    simp [Ne.symm hi]

/-- The number of entries with a property after entry `k` was replaced. -/
theorem countP_set_add {p : α → Bool} (h : l[k]? = some a) (b : α) :
    (l.set k b).countP p + (if p a then 1 else 0) = l.countP p + if p b then 1 else 0 := by
  obtain ⟨hlt, rfl⟩ := List.getElem?_eq_some_iff.mp h
  rw [List.countP_set hlt]
  by_cases hp : p l[k] = true
  · have hpos : 0 < l.countP p := List.countP_pos_iff.mpr ⟨_, List.getElem_mem hlt, hp⟩
    simp only [hp, if_true]
    omega
  · simp [hp]

/-- The elements of all lists after list `k` was replaced. -/
theorem flatten_set_perm {ls : List (List α)} {xs : List α} (h : ls[k]? = some xs)
    (ys : List α) : ((ls.set k ys).flatten ++ xs).Perm (ls.flatten ++ ys) := by
  induction ls generalizing k with
  | nil => cases h
  | cons zs ls ih =>
    cases k with
    | zero =>
      cases h
      simp only [List.set_cons_zero, List.flatten_cons, List.append_assoc]
      calc
        ys ++ (ls.flatten ++ xs)
        _ ~ ls.flatten ++ xs ++ ys := List.perm_append_comm
        _ ~ xs ++ ls.flatten ++ ys := List.perm_append_comm.append_right ys
        _ = xs ++ (ls.flatten ++ ys) := List.append_assoc ..
    | succ k =>
      simp only [List.set_cons_succ, List.flatten_cons, List.append_assoc]
      exact (ih h).append_left zs

/-- A sum over the entries after entry `k` was replaced. -/
theorem sum_map_set_add {f : α → ℕ} (h : l[k]? = some a) (b : α) :
    ((l.set k b).map f).sum + f a = (l.map f).sum + f b := by
  induction l generalizing k with
  | nil => cases h
  | cons c l ih =>
    cases k with
    | zero =>
      cases h
      simp only [List.set_cons_zero, List.map_cons, List.sum_cons]
      omega
    | succ k =>
      have hrest := ih h
      simp only [List.set_cons_succ, List.map_cons, List.sum_cons]
      omega

theorem sum_map_set_lt {f : α → ℕ} (h : l[k]? = some a) (hlt : f b < f a) :
    ((l.set k b).map f).sum < (l.map f).sum := by
  have hadd := sum_map_set_add (f := f) h b
  omega

/-- An entry that starts to count is one more among those that do. -/
theorem filterMap_set_perm {f : α → Option β} {x : β} (h : l[k]? = some a) (ha : f a = none)
    (hb : f b = some x) : ((l.set k b).filterMap f).Perm (x :: l.filterMap f) := by
  induction l generalizing k with
  | nil => cases h
  | cons c l ih =>
    cases k with
    | zero =>
      cases h
      simp [ha, hb]
    | succ k =>
      have hrest := ih h
      rw [List.set_cons_succ, List.filterMap_cons, List.filterMap_cons]
      cases f c with
      | none => exact hrest
      | some y => exact (hrest.cons y).trans (List.Perm.swap x y _)

/-- An entry that counts neither before nor after does not change those that do. -/
theorem filterMap_set_eq {f : α → Option β} (h : l[k]? = some a) (ha : f a = none)
    (hb : f b = none) : (l.set k b).filterMap f = l.filterMap f := by
  induction l generalizing k with
  | nil => cases h
  | cons c l ih =>
    cases k with
    | zero =>
      cases h
      simp [ha, hb]
    | succ k => rw [List.set_cons_succ, List.filterMap_cons, List.filterMap_cons, ih h]

/-- In a list without repeated keys every entry is the only one with its key. -/
theorem filter_key_eq_singleton [DecidableEq β] {f : α → β} (hl : (l.map f).Nodup) (ha : a ∈ l) :
    (l.filter fun b ↦ f b = f a) = [a] := by
  induction l with
  | nil => cases ha
  | cons c l ih =>
    rw [List.map_cons, List.nodup_cons] at hl
    rcases List.mem_cons.mp ha with rfl | ha
    · have hnone : l.filter (fun b ↦ f b = f a) = [] := by
        rw [List.filter_eq_nil_iff]
        intro b hb hkey
        exact hl.1 (of_decide_eq_true hkey ▸ List.mem_map_of_mem hb)
      simp [hnone]
    · have hne : f c ≠ f a := fun heq ↦ hl.1 (heq ▸ List.mem_map_of_mem ha)
      rw [List.filter_cons_of_neg (by simpa using hne), ih hl.2 ha]

/-- Lists without repetitions, taken from disjoint parts, make up a list without repetitions. -/
theorem nodup_flatMap_of_part {f : α → List β} (part : β → α) (hl : l.Nodup)
    (hf : ∀ x ∈ l, (f x).Nodup) (hpart : ∀ x ∈ l, ∀ y ∈ f x, part y = x) :
    (l.flatMap f).Nodup := by
  rw [List.nodup_flatMap]
  refine ⟨hf, hl.pairwise_of_forall_ne fun x hx x' hx' hne y hy hy' ↦ hne ?_⟩
  exact (hpart x hx y hy).symm.trans (hpart x' hx' y hy')

/-- A list of the images of `l` without repetitions is as long as `l` without repetitions, if no two
elements have the same image. -/
theorem length_eq_length_dedup [DecidableEq α] {f : α → β} {images : List β}
    (hnodup : images.Nodup) (hinj : ∀ x ∈ l, ∀ y ∈ l, f x = f y → x = y)
    (hmem : ∀ y, y ∈ images ↔ ∃ x ∈ l, f x = y) : images.length = l.dedup.length := by
  have hdedup : (l.dedup.map f).Nodup := by
    apply (List.nodup_dedup l).map_on
    intro x hx y hy
    exact hinj x (List.mem_dedup.mp hx) y (List.mem_dedup.mp hy)
  have hperm : images.Perm (l.dedup.map f) := by
    rw [List.perm_ext_iff_of_nodup hnodup hdedup]
    intro y
    simp [hmem]
  rw [hperm.length_eq, List.length_map]

/-- Lists that are pointwise no shorter and no longer in total are pointwise as long. -/
theorem length_eq_of_flatMap {f g : α → List β} {xs : List α}
    (hle : ∀ x ∈ xs, (f x).length ≤ (g x).length)
    (htotal : (xs.flatMap g).length ≤ (xs.flatMap f).length) :
    ∀ x ∈ xs, (g x).length = (f x).length := by
  induction xs with
  | nil => simp
  | cons y ys ih =>
    have hy := hle y (List.mem_cons_self ..)
    have hys : ∀ x ∈ ys, (f x).length ≤ (g x).length :=
      fun x hx ↦ hle x (List.mem_cons_of_mem _ hx)
    have hsum : (ys.flatMap f).length ≤ (ys.flatMap g).length := by
      rw [List.length_flatMap, List.length_flatMap]
      exact List.sum_le_sum hys
    rw [List.flatMap_cons, List.flatMap_cons, List.length_append, List.length_append] at htotal
    intro x hx
    rcases List.mem_cons.mp hx with rfl | hx
    · omega
    · exact ih hys (by omega) x hx

/-- In a chain only the last element has no successor. -/
theorem exists_rel_of_isChain_concat {R : α → α → Prop} {last a : α}
    (h : (l ++ [last]).IsChain R) (ha : a ∈ l) : ∃ b, R a b := by
  obtain ⟨before, after, rfl⟩ := List.append_of_mem ha
  cases after with
  | nil =>
    rw [List.append_assoc] at h
    exact ⟨last, (List.isChain_append_cons_cons.mp h).2.1⟩
  | cons b after =>
    rw [List.append_assoc] at h
    exact ⟨b, (List.isChain_append_cons_cons.mp h).2.1⟩

theorem map_eq_of_mapM {f : α → Option β} {r : List β} (h : l.mapM f = some r) :
    l.map f = r.map some := by
  induction l generalizing r with
  | nil =>
    cases h
    rfl
  | cons a l ih =>
    rw [List.mapM_cons] at h
    obtain ⟨b, hb, hrest⟩ := Option.bind_eq_some_iff.mp h
    obtain ⟨bs, hbs, heq⟩ := Option.bind_eq_some_iff.mp hrest
    cases heq
    rw [List.map_cons, List.map_cons, hb, ih hbs]

theorem mem_iff_of_mapM {f : α → Option β} {r : List β} (h : l.mapM f = some r) {x : β} :
    x ∈ r ↔ ∃ y ∈ l, f y = some x := by
  rw [← List.mem_map, map_eq_of_mapM h]
  simp

theorem exists_mapM {f : α → Option β} (h : ∀ a ∈ l, ∃ b, f a = some b) :
    ∃ r, l.mapM f = some r ∧ ∀ x, x ∈ r ↔ ∃ y ∈ l, f y = some x := by
  suffices hsome : ∃ r, l.mapM f = some r by
    obtain ⟨r, hr⟩ := hsome
    exact ⟨r, hr, fun _ ↦ mem_iff_of_mapM hr⟩
  induction l with
  | nil => exact ⟨[], rfl⟩
  | cons a l ih =>
    obtain ⟨b, hb⟩ := h a (List.mem_cons_self ..)
    obtain ⟨r, hr⟩ := ih fun a ha ↦ h a (List.mem_cons_of_mem _ ha)
    refine ⟨b :: r, ?_⟩
    rw [List.mapM_cons, hb, hr]
    rfl

/-- A text of terminated pieces is split into them, with nothing after the last terminator. -/
theorem splitOn_flatMap_concat [BEq α] [LawfulBEq α] {ls : List (List α)} (h : ∀ l ∈ ls, a ∉ l) :
    (ls.flatMap (· ++ [a])).splitOn a = ls ++ [[]] := by
  induction ls with
  | nil => exact List.splitOn_eq_singleton List.not_mem_nil
  | cons l ls ih =>
    have hl : ∀ x ∈ l, (x == a) = false := by
      intro x hx
      exact beq_eq_false_iff_ne.mpr fun heq ↦ h l (List.mem_cons_self ..) (heq ▸ hx)
    rw [List.flatMap_cons, List.append_assoc, List.singleton_append, List.splitOn,
      List.splitOnP_append_cons_of_forall_mem hl a (beq_self_eq_true a)]
    exact congrArg (l :: ·) (ih fun l' hl' ↦ h l' (List.mem_cons_of_mem _ hl'))

/-- A loop whose body does not fail and keeps an invariant. -/
theorem exists_foldlM {σ : Type*} {I : σ → Prop} {f : σ → α → Option σ}
    (hf : ∀ s a, I s → ∃ t, f s a = some t ∧ I t) (l : List α) {s : σ} (hs : I s) :
    ∃ t, l.foldlM f s = some t ∧ I t := by
  induction l generalizing s with
  | nil => exact ⟨s, rfl, hs⟩
  | cons a l ih =>
    obtain ⟨t, ht, hI⟩ := hf s a hs
    obtain ⟨u, hu, hI⟩ := ih hI
    refine ⟨u, ?_, hI⟩
    rw [List.foldlM_cons, ht]
    exact hu

end DistKvRaft.Lists
