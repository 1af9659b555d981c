import DistKvRaft.Foundation.Machine

/-!
# Refinement between machines

A machine refines another one if its states can be read as states of the other and its events as
events of the other, such that every step does to what is read what those events do.  An event may
be read as none, when the step is not seen from above, or as several.  The reading only has to work
in states that satisfy an invariant of the refining machine.  Every reachable state then reads as a
reachable state, so what holds in all states of the abstract machine holds, as read, in all states
of the concrete one.
-/

namespace DistKvRaft

/-- How the states and events of `m` are read as those of `a`, with the invariant under which this
works. -/
structure Refinement {State Event AState AEvent : Type*} (m : Machine State Event)
    (a : Machine AState AEvent) where
  abs : State → AState
  label : State → Event → List AEvent
  inv : State → Prop
  abs_init : abs m.init = a.init
  inv_init : inv m.init
  inv_step : ∀ s e t, inv s → m.step s e = some t → inv t
  abs_step : ∀ s e t, inv s → m.step s e = some t → a.run (abs s) (label s e) = some (abs t)

namespace Refinement

variable {State Event AState AEvent : Type*} {m : Machine State Event} {a : Machine AState AEvent}
  {s t : State} {e : Event}

theorem inv_of_reachable (r : Refinement m a) (h : m.Reachable s) : r.inv s :=
  h.invariant r.inv_init r.inv_step

/-- From a reachable state every step does to what is read what its events do. -/
theorem run_label (r : Refinement m a) (h : m.Reachable s) (hstep : m.step s e = some t) :
    a.run (r.abs s) (r.label s e) = some (r.abs t) :=
  r.abs_step s e t (r.inv_of_reachable h) hstep

/-- Reachable states read as reachable states. -/
theorem reachable (r : Refinement m a) (h : m.Reachable s) : a.Reachable (r.abs s) := by
  have hboth : r.inv s ∧ a.Reachable (r.abs s) := by
    apply h.invariant (I := fun s ↦ r.inv s ∧ a.Reachable (r.abs s))
    · refine ⟨r.inv_init, ?_⟩
      rw [r.abs_init]
      exact .refl
    · intro s e t hs hstep
      refine ⟨r.inv_step s e t hs.1 hstep, ?_⟩
      have hrun := r.abs_step s e t hs.1 hstep
      exact hs.2.trans (Machine.ReachableFrom.of_run Machine.permits_true hrun)
  exact hboth.2

end Refinement

end DistKvRaft
