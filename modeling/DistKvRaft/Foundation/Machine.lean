import Mathlib.Data.List.Basic
import Mathlib.Tactic.Common

/-!
# Machines driven by events

A machine has one initial state and a partial step function.  All nondeterminism (the scheduler,
the network, the clock, crashes) sits in the event, so a run is a list of events and an
interleaving of several parties is just an order of their events.  An event without a successor
is not enabled in that state.

Reachability carries a side condition on every step taken.  The unconditional form is the special
case of the trivial condition; the conditional form states what holds along every run that stays
inside some discipline.
-/

namespace DistKvRaft

/-- A state machine whose nondeterminism is resolved by the event. -/
structure Machine (State Event : Type*) where
  init : State
  step : State → Event → Option State

namespace Machine

variable {State Event : Type*} (m : Machine State Event)

/-- Take the events of a list in order; the run fails at the first event that is not enabled. -/
def run : State → List Event → Option State
  | s, [] => some s
  | s, e :: es => (m.step s e).bind fun t ↦ run t es

/-- A run that also fails at the first event its state does not allow. -/
def runWhen (ok : State → Event → Prop) [∀ s e, Decidable (ok s e)] :
    State → List Event → Option State
  | s, [] => some s
  | s, e :: es => if ok s e then (m.step s e).bind fun t ↦ runWhen ok t es else none

/-- Every step of the run from `s` along the events is taken in a state that allows it. -/
def Permits (ok : State → Event → Prop) : State → List Event → Prop
  | _, [] => True
  | s, e :: es => ok s e ∧ ∀ t, m.step s e = some t → Permits ok t es

/-- How many steps of the run from `s` along the events are marked by `mark`. -/
def countAlong (mark : State → Event → Bool) : State → List Event → ℕ
  | _, [] => 0
  | s, e :: es => (if mark s e then 1 else 0) +
      match m.step s e with
      | some t => countAlong mark t es
      | none => 0

/-- States reached from `s₀` by steps that all satisfy `ok` in the state they are taken from. -/
inductive ReachableFrom (ok : State → Event → Prop) (s₀ : State) : State → Prop
  | refl : ReachableFrom ok s₀ s₀
  | step {s t : State} {e : Event} :
      ReachableFrom ok s₀ s → ok s e → m.step s e = some t → ReachableFrom ok s₀ t

/-- States reached from the initial state by steps that all satisfy `ok`. -/
def ReachableWhen (ok : State → Event → Prop) (s : State) : Prop := m.ReachableFrom ok m.init s

/-- States reached from the initial state by any steps. -/
def Reachable (s : State) : Prop := m.ReachableWhen (fun _ _ ↦ True) s

variable {m} {ok : State → Event → Prop} {s t u : State} {e : Event} {es fs : List Event}

theorem run_cons : m.run s (e :: es) = (m.step s e).bind fun t ↦ m.run t es := rfl

theorem run_append : m.run s (es ++ fs) = (m.run s es).bind fun t ↦ m.run t fs := by
  induction es generalizing s with
  | nil => rfl
  | cons e es ih =>
    rw [List.cons_append, run_cons, run_cons]
    cases m.step s e with
    | none => rfl
    | some t => exact ih

/-- The first step of a run that succeeds is itself enabled. -/
theorem run_cons_eq_some (h : m.run s (e :: es) = some u) :
    ∃ t, m.step s e = some t ∧ m.run t es = some u := by
  rw [run_cons] at h
  exact Option.bind_eq_some_iff.mp h

/-! ## Invariants -/

/-- The invariant rule: what holds at the start and is kept by every allowed step holds in every
reached state. -/
theorem ReachableFrom.invariant {I : State → Prop} (h : m.ReachableFrom ok s t) (hinit : I s)
    (hstep : ∀ s e t, I s → ok s e → m.step s e = some t → I t) : I t := by
  induction h with
  | refl => exact hinit
  | step _ hok hs ih => exact hstep _ _ _ ih hok hs

/-- The invariant rule with the step condition trivial. -/
theorem Reachable.invariant {I : State → Prop} (h : m.Reachable s) (hinit : I m.init)
    (hstep : ∀ s e t, I s → m.step s e = some t → I t) : I s :=
  ReachableFrom.invariant h hinit fun s e t hs _ ↦ hstep s e t hs

theorem ReachableFrom.mono {ok' : State → Event → Prop} (h : m.ReachableFrom ok s t)
    (himp : ∀ s e, ok s e → ok' s e) : m.ReachableFrom ok' s t := by
  induction h with
  | refl => exact .refl
  | step _ hok hs ih => exact .step ih (himp _ _ hok) hs

theorem ReachableFrom.single (hok : ok s e) (h : m.step s e = some t) : m.ReachableFrom ok s t :=
  .step .refl hok h

theorem ReachableFrom.trans (h : m.ReachableFrom ok s t) (k : m.ReachableFrom ok t u) :
    m.ReachableFrom ok s u := by
  induction k with
  | refl => exact h
  | step _ hok hs ih => exact .step ih hok hs

theorem ReachableWhen.reachable (h : m.ReachableWhen ok s) : m.Reachable s :=
  ReachableFrom.mono h fun _ _ _ ↦ trivial

/-- A successful run whose steps are all allowed reaches its last state. -/
theorem ReachableFrom.of_run (hok : m.Permits ok s es) (h : m.run s es = some t) :
    m.ReachableFrom ok s t := by
  induction es generalizing s with
  | nil => cases h; exact .refl
  | cons e es ih =>
    obtain ⟨mid, hs, hrun⟩ := run_cons_eq_some h
    have hfirst : m.ReachableFrom ok s mid := .step .refl hok.1 hs
    exact hfirst.trans (ih (hok.2 mid hs) hrun)

theorem permits_true : m.Permits (fun _ _ ↦ True) s es := by
  induction es generalizing s with
  | nil => trivial
  | cons e es ih => exact ⟨trivial, fun _ _ ↦ ih⟩

theorem Reachable.of_run (h : m.run m.init es = some t) : m.Reachable t :=
  ReachableFrom.of_run permits_true h

theorem ReachableFrom.of_runWhen [∀ s e, Decidable (ok s e)] (h : m.runWhen ok s es = some t) :
    m.ReachableFrom ok s t := by
  induction es generalizing s with
  | nil => cases h; exact .refl
  | cons e es ih =>
    rw [runWhen] at h
    split_ifs at h with hok
    obtain ⟨mid, hs, hrun⟩ := Option.bind_eq_some_iff.mp h
    have hfirst : m.ReachableFrom ok s mid := .step .refl hok hs
    exact hfirst.trans (ih hrun)

/-- A run that ends in a state with a property shows that such a state is reachable. -/
theorem exists_reachableWhen [∀ s e, Decidable (ok s e)] (es : List Event) {p : State → Prop}
    [DecidablePred p] (h : (m.runWhen ok m.init es).any (fun s ↦ decide (p s)) = true) :
    ∃ s, m.ReachableWhen ok s ∧ p s := by
  cases hrun : m.runWhen ok m.init es with
  | none => simp [hrun] at h
  | some s => exact ⟨s, .of_runWhen hrun, by simpa [hrun] using h⟩

theorem exists_reachable (es : List Event) {p : State → Prop} [DecidablePred p]
    (h : (m.runWhen (fun _ _ ↦ True) m.init es).any (fun s ↦ decide (p s)) = true) :
    ∃ s, m.Reachable s ∧ p s :=
  exists_reachableWhen es h

/-! ## Counting marked steps -/

theorem countAlong_cons {mark : State → Event → Bool} (h : m.step s e = some t) :
    m.countAlong mark s (e :: es) = (if mark s e then 1 else 0) + m.countAlong mark t es := by
  simp only [countAlong, h]

/-- A run has no marked step exactly when each of its steps avoids the mark. -/
theorem countAlong_eq_zero_iff {mark : State → Event → Bool} (h : m.run s es = some t) :
    m.countAlong mark s es = 0 ↔ m.Permits (fun s e ↦ mark s e = false) s es := by
  induction es generalizing s with
  | nil => simp [countAlong, Permits]
  | cons e es ih =>
    obtain ⟨mid, hs, hrun⟩ := run_cons_eq_some h
    rw [countAlong_cons hs, Nat.add_eq_zero_iff, ih hrun]
    cases hmark : mark s e <;> simp [Permits, hmark, hs]

/-! ## Steps that use up a budget -/

/-- What no step decreases is not decreased by a run. -/
theorem le_of_run {f : State → ℕ} (hstep : ∀ s e t, m.step s e = some t → f s ≤ f t)
    (h : m.run s es = some t) : f s ≤ f t := by
  induction es generalizing s with
  | nil =>
    cases h
    exact Nat.le_refl _
  | cons e es ih =>
    obtain ⟨mid, hs, hrun⟩ := run_cons_eq_some h
    exact Nat.le_trans (hstep s e mid hs) (ih hrun)

/-- The budget rule: if `f` grows by one at the marked steps and stays the same at the others, then
it is within the limit at the end of a run exactly when each marked step was taken below it. -/
theorem permits_lt_iff {mark : State → Event → Bool} {f : State → ℕ} {limit : ℕ}
    (hstep : ∀ s e t, m.step s e = some t → f t = f s + if mark s e then 1 else 0)
    (hs : f s ≤ limit) (h : m.run s es = some t) :
    m.Permits (fun s e ↦ mark s e = true → f s < limit) s es ↔ f t ≤ limit := by
  induction es generalizing s with
  | nil =>
    cases h
    simpa [Permits] using hs
  | cons e es ih =>
    obtain ⟨mid, hmid, hrun⟩ := run_cons_eq_some h
    have hgrow := hstep s e mid hmid
    have hmono : f mid ≤ f t := by
      apply le_of_run _ hrun
      intro s e t hst
      rw [hstep s e t hst]
      exact Nat.le_add_right _ _
    have hpermits : m.Permits (fun s e ↦ mark s e = true → f s < limit) s (e :: es) ↔
        (mark s e = true → f s < limit) ∧
          m.Permits (fun s e ↦ mark s e = true → f s < limit) mid es := by
      simp [Permits, hmid]
    rw [hpermits]
    by_cases hmark : mark s e = true
    · rw [if_pos hmark] at hgrow
      constructor
      · intro hok
        have hlt := hok.1 hmark
        exact (ih (by omega) hrun).mp hok.2
      · intro hle
        have hlt : f s < limit := by omega
        exact ⟨fun _ ↦ hlt, (ih (by omega) hrun).mpr hle⟩
    · rw [if_neg hmark, Nat.add_zero] at hgrow
      rw [← ih (hgrow ▸ hs) hrun]
      simp [hmark]

/-! ## Monitors -/

/-- What the state remembers of the past is kept along a run. -/
theorem remembers_of_run {R : List Event → State → Prop} {past : List Event}
    (hnext : ∀ past s e t, R past s → m.step s e = some t → R (past ++ [e]) t) (hs : R past s)
    (h : m.run s es = some t) : R (past ++ es) t := by
  induction es generalizing s past with
  | nil =>
    cases h
    rwa [List.append_nil]
  | cons e es ih =>
    obtain ⟨mid, hmid, hrun⟩ := run_cons_eq_some h
    rw [List.append_cons]
    exact ih (hnext past s e mid hs hmid) hrun

/-- The monitor rule: a machine that takes an event exactly when it is legal after what happened so
far accepts exactly the sequences in which every event is legal after those before it. -/
theorem run_isSome_iff {R : List Event → State → Prop} {legal : List Event → Event → Prop}
    {past : List Event}
    (hstep : ∀ past s e, R past s → ((m.step s e).isSome = true ↔ legal past e))
    (hnext : ∀ past s e t, R past s → m.step s e = some t → R (past ++ [e]) t) (hs : R past s) :
    (m.run s es).isSome = true ↔
      ∀ before e after, es = before ++ e :: after → legal (past ++ before) e := by
  induction es generalizing s past with
  | nil => simp [run]
  | cons e es ih =>
    rw [run_cons]
    constructor
    · intro h before e' after hsplit
      cases hmid : m.step s e with
      | none => simp [hmid] at h
      | some mid =>
        rw [hmid, Option.bind_some] at h
        cases before with
        | nil =>
          cases hsplit
          rw [List.append_nil]
          exact (hstep past s e hs).mp (by rw [hmid]; rfl)
        | cons b before =>
          cases hsplit
          have hrest := (ih (hnext past s e mid hs hmid)).mp h before e' after rfl
          rwa [List.append_assoc] at hrest
    · intro h
      have hfirst := (hstep past s e hs).mpr (by simpa using h [] e es rfl)
      obtain ⟨mid, hmid⟩ := Option.isSome_iff_exists.mp hfirst
      rw [hmid, Option.bind_some]
      apply (ih (hnext past s e mid hs hmid)).mpr
      intro before e' after hsplit
      have hrest := h (e :: before) e' after (by rw [hsplit, List.cons_append])
      rwa [List.append_assoc]

/-! ## Work that can always be finished -/

/-- What every step of a kind decreases bounds the length of the runs of such steps. -/
theorem length_add_le_of_run {I : State → Prop} {p : Event → Prop} {f : State → ℕ}
    (hstep : ∀ s e t, I s → p e → m.step s e = some t → I t ∧ f t < f s) (hs : I s)
    (hes : ∀ e ∈ es, p e) (h : m.run s es = some t) : I t ∧ es.length + f t ≤ f s := by
  induction es generalizing s with
  | nil =>
    cases h
    exact ⟨hs, by simp⟩
  | cons e es ih =>
    obtain ⟨mid, hmid, hrun⟩ := run_cons_eq_some h
    rw [List.forall_mem_cons] at hes
    obtain ⟨hmidI, hlt⟩ := hstep s e mid hs hes.1 hmid
    obtain ⟨ht, hle⟩ := ih hmidI hes.2 hrun
    refine ⟨ht, ?_⟩
    rw [List.length_cons]
    omega

end Machine

end DistKvRaft
