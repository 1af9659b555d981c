import Mathlib.Data.List.Basic
import Mathlib.Logic.Function.Basic
import Mathlib.Order.Bounds.Basic
import Mathlib.Tactic.Common

/-!
# Watermarks

A duplicate filter that keeps one mark per key: an entry passes when its key has no mark yet or
its value lies strictly above the mark, and a passing entry becomes the new mark.  The history it
has seen is a list of key–value pairs.  After any history the mark of a key is the greatest value
seen for it, so an entry passes exactly when it lies above every earlier value of its key, whether
those values passed themselves or not.  What happens to the entries of one key does not depend on
the others.
-/

namespace DistKvRaft.Watermark

variable {κ τ : Type*} [LinearOrder τ]

/-- The mark kept for each key. -/
abbrev Marks (κ τ : Type*) := κ → Option τ

/-- Whether the filter lets the value `t` of key `k` pass. -/
def accepts (m : Marks κ τ) (k : κ) (t : τ) : Bool :=
  match m k with
  | none => true
  | some last => decide (last < t)

/-- The marks after the filter has seen the value `t` of key `k`. -/
def observe [DecidableEq κ] (m : Marks κ τ) (k : κ) (t : τ) : Marks κ τ :=
  if accepts m k t then Function.update m k (some t) else m

/-- The value `t` lies above every value of key `k` in the history. -/
def Fresh (past : List (κ × τ)) (k : κ) (t : τ) : Prop :=
  ∀ e ∈ past, e.1 = k → e.2 < t

instance [DecidableEq κ] (past : List (κ × τ)) (k : κ) (t : τ) : Decidable (Fresh past k t) :=
  inferInstanceAs (Decidable (∀ e ∈ past, e.1 = k → e.2 < t))

/-- The marks summarise the history: no mark for an unseen key, and the greatest value for every
other one. -/
def Tracks (m : Marks κ τ) (past : List (κ × τ)) : Prop :=
  ∀ k, (m k = none ∧ ∀ t, (k, t) ∉ past) ∨
    ∃ last, m k = some last ∧ IsGreatest {t | (k, t) ∈ past} last

variable {m : Marks κ τ} {past : List (κ × τ)} {k : κ} {t : τ}

theorem tracks_empty : Tracks (fun _ ↦ none : Marks κ τ) [] := by
  intro k
  exact Or.inl ⟨rfl, fun t ↦ List.not_mem_nil⟩

/-- The filter compares with one mark, the history with every earlier value; both agree. -/
theorem Tracks.accepts_iff (h : Tracks m past) (k : κ) (t : τ) :
    accepts m k t = true ↔ Fresh past k t := by
  unfold accepts Fresh
  rcases h k with ⟨hnone, hunseen⟩ | ⟨last, hsome, hmem, hbound⟩
  · rw [hnone]
    refine iff_of_true rfl ?_
    rintro ⟨k', t'⟩ he rfl
    exact absurd he (hunseen t')
  · rw [hsome]
    dsimp only
    rw [decide_eq_true_iff]
    constructor
    · rintro hlast ⟨k', t'⟩ he rfl
      exact (hbound he).trans_lt hlast
    · intro hfresh
      exact hfresh (k, last) hmem rfl

variable [DecidableEq κ]

theorem observe_of_ne {k' : κ} (hne : k' ≠ k) : observe m k t k' = m k' := by
  unfold observe
  split_ifs
  · exact Function.update_of_ne hne _ _
  · rfl

/-- The step of the filter: marks that summarise a history summarise it after one more entry. -/
theorem Tracks.observe (h : Tracks m past) (k : κ) (t : τ) :
    Tracks (observe m k t) (past ++ [(k, t)]) := by
  intro k'
  by_cases hk : k' = k
  · subst hk
    right
    by_cases hacc : accepts m k' t = true
    · have hfresh := (h.accepts_iff k' t).mp hacc
      refine ⟨t, by simp [Watermark.observe, hacc], by simp, ?_⟩
      intro t' ht'
      rcases List.mem_append.mp ht' with hold | hnew
      · exact (hfresh _ hold rfl).le
      · simp only [List.mem_singleton, Prod.mk.injEq] at hnew
        exact hnew.2.le
    · -- A rejected entry has a mark above it, and that mark stays the greatest value.
      have hmark : Watermark.observe m k' t = m := if_neg hacc
      rcases h k' with ⟨hnone, -⟩ | ⟨last, hsome, hmem, hbound⟩
      · simp [accepts, hnone] at hacc
      · have hle : t ≤ last := by simpa [accepts, hsome] using hacc
        refine ⟨last, by rw [hmark, hsome], List.mem_append_left _ hmem, ?_⟩
        intro t' ht'
        rcases List.mem_append.mp ht' with hold | hnew
        · exact hbound hold
        · simp only [List.mem_singleton, Prod.mk.injEq] at hnew
          exact hnew.2.trans_le hle
  · have hseen : ∀ t', (k', t') ∈ past ++ [(k, t)] ↔ (k', t') ∈ past := by
      intro t'
      simp [hk]
    rw [Watermark.observe_of_ne hk]
    simpa only [hseen] using h k'

/-! ## Runs of the filter -/

section Run

variable {ε : Type*} (key : ε → κ) (value : ε → τ)

/-- The entries of a history with the verdicts of the filter on them. -/
def verdicts : Marks κ τ → List ε → List (ε × Bool)
  | _, [] => []
  | m, e :: es => (e, accepts m (key e) (value e)) :: verdicts (observe m (key e) (value e)) es

omit [DecidableEq κ] in
theorem accepts_congr {m' : Marks κ τ} (h : m k = m' k) (t : τ) :
    accepts m k t = accepts m' k t := by
  simp only [accepts, h]

theorem observe_congr {m' : Marks κ τ} (h : m k = m' k) (t : τ) :
    observe m k t k = observe m' k t k := by
  unfold observe
  rw [accepts_congr h]
  split_ifs
  · rw [Function.update_self, Function.update_self]
  · exact h

/-- The verdicts on the entries of one key are those of a run on these entries alone. -/
theorem filter_verdicts {m' : Marks κ τ} (h : m k = m' k) (es : List ε) :
    ((verdicts key value m es).filter fun verdict ↦ key verdict.1 = k) =
      verdicts key value m' (es.filter fun e ↦ key e = k) := by
  induction es generalizing m m' with
  | nil => rfl
  | cons e es ih =>
    by_cases hkey : key e = k
    · subst hkey
      rw [verdicts, List.filter_cons_of_pos (by simp), List.filter_cons_of_pos (by simp), verdicts,
        accepts_congr h, ih (observe_congr h (value e))]
    · have hother : observe m (key e) (value e) k = m' k := by
        rw [observe_of_ne (Ne.symm hkey), h]
      rw [verdicts, List.filter_cons_of_neg (by simpa using hkey),
        List.filter_cons_of_neg (by simpa using hkey), ih hother]

end Run

end DistKvRaft.Watermark
