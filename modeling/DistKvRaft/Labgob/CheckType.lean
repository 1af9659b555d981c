import DistKvRaft.Labgob.Check

/-!
# The recursion of checkType

`checkType` calls itself for the parts of a type.  Here it is as the recursive function of the
source, on the map of checked types, the complaints so far and their number, with fuel in place of
the call stack.  A goroutine that runs alone does what the function says.  The map stops the
recursion on types that contain themselves: one level of fuel for each type that is not checked yet,
and one more, is enough.
-/

namespace DistKvRaft.Labgob

open Go Traversal

/-- The types that are checked, the complaints so far, and the number of those counted. -/
structure Checked (T : Type) where
  checked : List T
  complaints : List Complaint
  errorCount : ℕ

section Model

variable {T : Type} (types : Types T)

/-- A field is looked at: complain if it is not capitalized. -/
def checkField (t : T) (field : GoString) (s : Checked T) : Checked T :=
  if types.isLowerCase field then
    { s with
      complaints := s.complaints ++ [.lowerCase field (types.name t)]
      errorCount := s.errorCount + 1 }
  else s

def checkType [DecidableEq T] : ℕ → T → Checked T → Option (Checked T)
  | 0, _, _ => none
  | fuel + 1, t, s =>
    if t ∈ s.checked then some s
    else
      let s := { s with checked := s.checked ++ [t] }
      match types.kind t with
      | .struct fields =>
        fields.foldlM (fun s f ↦ checkType fuel f.2 (checkField types t f.1 s)) s
      | .elem elem => checkType fuel elem s
      | .map elem key => (checkType fuel elem s).bind fun s ↦ checkType fuel key s
      | .other => some s

end Model

section Simulation

variable {T : Type} [DecidableEq T] {types : Types T}

/-- Worker `k` is the only one with work, namely `stack`, and finds the shared variables as in `s`.
-/
structure At (s : Checked T) (k : ℕ) (stack : List (Work T Action))
    (u : State T Action) : Prop where
  seen : u.seen = s.checked
  printed : (u.done.filterMap Work.output).filterMap Action.lowerCase = s.complaints
  counted : (u.done.filterMap Work.output).countP Action.counts = s.errorCount
  stack : u.workers[k]? = some stack
  alone : ∀ (j : ℕ) other, j ≠ k → u.workers[j]? = some other → other = []

/-- Worker `k` alone gets from `u` to a state with `stack` left and the shared variables of `s`. -/
def Gets (types : Types T) (k : ℕ) (u : State T Action) (s : Checked T)
    (stack : List (Work T Action)) : Prop :=
  ∃ v, (traversal types.expand).ReachableFrom (fun _ e ↦ e = .work k) u v ∧ At s k stack v

variable {s s' : Checked T} {k : ℕ} {t : T} {rest : List (Work T Action)}
  {u v : State T Action}

omit [DecidableEq T] in
theorem At.pending_eq_nil (hu : At s k [] u) : u.pending = [] := by
  apply List.flatten_eq_nil_iff.mpr
  intro stack hstack
  obtain ⟨j, hj⟩ := List.mem_iff_getElem?.mp hstack
  by_cases hjk : j = k
  · rw [hjk, hu.stack] at hj
    exact (Option.some.inj hj).symm
  · exact hu.alone j stack hjk hj

theorem Gets.trans {stack : List (Work T Action)} (h : Gets types k u s stack)
    (hnext : ∀ v, At s k stack v → Gets types k v s' rest) : Gets types k u s' rest := by
  obtain ⟨v, huv, hv⟩ := h
  obtain ⟨w, hvw, hw⟩ := hnext v hv
  exact ⟨w, huv.trans hvw, hw⟩

/-- One step of a worker that is alone. -/
theorem At.step {w : Work T Action} {left : List (Work T Action)}
    (hu : At s k (w :: rest) u) (hwork : u.work types.expand k = some v)
    (hseen : v.seen = s'.checked)
    (hprinted : (v.done.filterMap Work.output).filterMap Action.lowerCase = s'.complaints)
    (hcounted : (v.done.filterMap Work.output).countP Action.counts = s'.errorCount)
    (hworkers : v.workers = u.workers.set k left) : Gets types k u s' left := by
  refine ⟨v, .single rfl hwork, hseen, hprinted, hcounted, ?_, fun j other hj hother ↦ ?_⟩
  · rw [hworkers]
    exact List.getElem?_set_self (List.getElem?_eq_some_iff.mp hu.stack).1
  · rw [hworkers, List.getElem?_set_ne (Ne.symm hj)] at hother
    exact hu.alone j other hj hother

theorem At.skip (hu : At s k (.visit t :: rest) u) (ht : t ∈ s.checked) :
    Gets types k u s rest := by
  have hwork : u.work types.expand k =
      some { u with done := u.done ++ [.visit t], workers := u.workers.set k rest } := by
    simp only [State.work, hu.stack]
    rw [if_pos (hu.seen ▸ ht)]
  refine hu.step hwork hu.seen ?_ ?_ rfl
  · simpa [List.filterMap_cons] using hu.printed
  · simpa [List.filterMap_cons] using hu.counted

theorem At.mark (hu : At s k (.visit t :: rest) u) (ht : t ∉ s.checked) :
    Gets types k u { s with checked := s.checked ++ [t] } (types.expand t ++ rest) := by
  have hwork : u.work types.expand k = some { u with
      seen := u.seen ++ [t]
      done := u.done ++ [.visit t]
      workers := u.workers.set k (types.expand t ++ rest) } := by
    simp only [State.work, hu.stack]
    rw [if_neg (hu.seen ▸ ht)]
  refine hu.step hwork ?_ ?_ ?_ rfl
  · rw [← hu.seen]
  · simpa [List.filterMap_cons] using hu.printed
  · simpa [List.filterMap_cons] using hu.counted

theorem At.emit {action : Action} (hu : At s k (.emit action :: rest) u) :
    Gets types k u { s with
      complaints := s.complaints ++ action.lowerCase.toList
      errorCount := s.errorCount + [action].countP Action.counts } rest := by
  have hwork : u.work types.expand k =
      some { u with done := u.done ++ [.emit action], workers := u.workers.set k rest } := by
    simp only [State.work, hu.stack]
  refine hu.step hwork hu.seen ?_ ?_ rfl
  · rw [List.filterMap_append, List.filterMap_append, hu.printed]
    cases action <;> rfl
  · rw [List.filterMap_append, List.countP_append, hu.counted]
    rfl

theorem At.field {f : GoString × T} (hu : At s k (types.fieldWork t f ++ rest) u) :
    Gets types k u (checkField types t f.1 s) (.visit f.2 :: rest) := by
  unfold Types.fieldWork at hu
  unfold checkField
  split_ifs at hu ⊢
  · apply (At.emit hu).trans
    intro v hv
    simpa [Action.lowerCase, Action.counts] using At.emit hv
  · exact ⟨u, .refl, hu⟩

/-- The loop over the fields of a struct, for a recursive call that a goroutine follows. -/
theorem gets_of_fields {call : T → Checked T → Option (Checked T)}
    (hcall : ∀ {t s s' rest u}, call t s = some s' → At s k (.visit t :: rest) u →
      Gets types k u s' rest)
    {fields : List (GoString × T)}
    (h : fields.foldlM (fun s f ↦ call f.2 (checkField types t f.1 s)) s = some s')
    (hu : At s k (fields.flatMap (types.fieldWork t) ++ rest) u) : Gets types k u s' rest := by
  induction fields generalizing s u with
  | nil =>
    cases h
    exact ⟨u, .refl, hu⟩
  | cons f fields ih =>
    obtain ⟨mid, hmid, hfields⟩ := Option.bind_eq_some_iff.mp h
    rw [List.flatMap_cons, List.append_assoc] at hu
    exact (hu.field.trans fun v hv ↦ hcall hmid hv).trans fun w hw ↦ ih hfields hw

/-- A goroutine that runs alone does what `checkType` says. -/
theorem gets_of_checkType {fuel : ℕ} (h : checkType types fuel t s = some s')
    (hu : At s k (.visit t :: rest) u) : Gets types k u s' rest := by
  induction fuel generalizing t s s' rest u with
  | zero => cases h
  | succ fuel ih =>
    rw [checkType] at h
    split_ifs at h with ht
    · cases h
      exact hu.skip ht
    · apply (hu.mark ht).trans
      intro v hv
      rw [Types.expand] at hv
      cases hkind : types.kind t with
      | struct fields =>
        rw [hkind] at h hv
        exact gets_of_fields (fun hcall hv ↦ ih hcall hv) h hv
      | elem elem =>
        rw [hkind] at h hv
        exact ih h hv
      | map elem key =>
        rw [hkind] at h hv
        obtain ⟨mid, hmid, hkey⟩ := Option.bind_eq_some_iff.mp h
        exact (ih hmid hv).trans fun w hw ↦ ih hkey hw
      | other =>
        rw [hkind] at h hv
        cases h
        exact ⟨v, .refl, hv⟩

end Simulation

section Total

variable {T : Type} [Fintype T] {types : Types T} {s : Checked T} {t : T} {fuel : ℕ}

/-- There is fuel for every type that is not checked yet. -/
structure Checked.Affords (s : Checked T) (fuel : ℕ) : Prop where
  nodup : s.checked.Nodup
  enough : Fintype.card T < s.checked.length + fuel

theorem Checked.Affords.succ (hs : s.Affords fuel) : s.Affords (fuel + 1) :=
  ⟨hs.nodup, by have := hs.enough; omega⟩

theorem Checked.Affords.mark (hs : s.Affords (fuel + 1)) (ht : t ∉ s.checked) :
    Checked.Affords { s with checked := s.checked ++ [t] } fuel := by
  constructor
  · rw [← List.concat_eq_append]
    exact hs.nodup.concat ht
  · have henough := hs.enough
    rw [List.length_append, List.length_singleton]
    omega

theorem Checked.Affords.field (hs : s.Affords fuel) (field : GoString) :
    (checkField types t field s).Affords fuel := by
  unfold checkField
  split_ifs
  · exact ⟨hs.nodup, hs.enough⟩
  · exact hs

variable [DecidableEq T]

/-- The recursion ends. -/
theorem exists_checkType (types : Types T) (t : T) (hs : s.Affords fuel) :
    ∃ s', checkType types fuel t s = some s' ∧ s'.Affords fuel := by
  induction fuel generalizing t s with
  | zero =>
    -- more types would be checked than there are
    have hcard := hs.nodup.length_le_card
    have henough := hs.enough
    omega
  | succ fuel ih =>
    rw [checkType]
    split_ifs with ht
    · exact ⟨s, rfl, hs⟩
    · have hmark := hs.mark ht
      refine Exists.imp (fun (s' : Checked T) (h : _ ∧ s'.Affords fuel) ↦ ⟨h.1, h.2.succ⟩) ?_
      cases types.kind t with
      | struct fields =>
        exact Lists.exists_foldlM (fun s f hs ↦ ih f.2 (hs.field f.1)) fields hmark
      | elem elem => exact ih elem hmark
      | map elem key =>
        obtain ⟨mid, hmid, hafford⟩ := ih elem hmark
        obtain ⟨s', hs', hafford'⟩ := ih key hafford
        exact ⟨s', Option.bind_eq_some_iff.mpr ⟨mid, hmid, hs'⟩, hafford'⟩
      | other => exact ⟨_, rfl, hmark⟩

/-- `checkType`, called before any type was checked, returns on every type, also on one that
contains itself.  It has then checked the types that occur in it, each once, and complained about
each of their fields that is not capitalized once, and counted these complaints. -/
theorem checkType_spec (types : Types T) (t : T) (n : ℕ) :
    ∃ s, checkType types (Fintype.card T + 1 + n) t ⟨[], [], 0⟩ = some s ∧ s.checked.Nodup ∧
      (∀ u, u ∈ s.checked ↔ types.Occurs [t] u) ∧
      s.complaints.Perm (s.checked.flatMap types.lowerCaseFields) ∧
      s.errorCount = s.complaints.length := by
  have hafford : Checked.Affords (⟨[], [], 0⟩ : Checked T) (Fintype.card T + 1 + n) :=
    ⟨List.nodup_nil, by simp only [List.length_nil]; omega⟩
  obtain ⟨s, hs, hs'⟩ := exists_checkType types t hafford
  have hstart : At (⟨[], [], 0⟩ : Checked T) 0 [.visit t] ⟨[], [], [.visit t], [[.visit t]]⟩ := by
    refine ⟨rfl, rfl, rfl, rfl, fun j other hj hother ↦ ?_⟩
    cases j with
    | zero => exact absurd rfl hj
    | succ j => cases hother
  obtain ⟨u, hu, hat⟩ := gets_of_checkType hs hstart
  have hstarted : u.started = [.visit t] := by
    apply hu.invariant (I := fun v ↦ v.started = [.visit t]) rfl
    intro v e w hv hwork hstep
    subst hwork
    exact (started_eq_of_worked (worked_of_work hstep)).trans hv
  have hfirst : (traversal types.expand).run (traversal types.expand).init [.start [.visit t]] =
      some ⟨[], [], [.visit t], [[.visit t]]⟩ := rfl
  have hreachable : (traversal types.expand).Reachable u :=
    (Machine.Reachable.of_run hfirst).trans (hu.mono fun _ _ _ ↦ trivial)
  have hbalanced := balanced_of_reachable hreachable
  have hseen := hbalanced.mem_seen_iff hat.pending_eq_nil
  have houtputs := hbalanced.outputs_perm hat.pending_eq_nil
  rw [hat.seen, hstarted] at hseen
  have hperm : (u.done.filterMap Work.output).Perm (s.checked.flatMap types.fieldActions) := by
    rw [hat.seen, hstarted] at houtputs
    exact houtputs
  have hprinted := hperm.filterMap Action.lowerCase
  rw [hat.printed, List.filterMap_flatMap] at hprinted
  simp only [types.filterMap_fieldActions] at hprinted
  refine ⟨s, hs, hs'.nodup, fun u ↦ (hseen u).trans (types.reach_iff (by simp) u), hprinted, ?_⟩
  rw [← hat.counted, hperm.countP_eq, hprinted.length_eq, List.countP_flatMap, List.length_flatMap]
  simp only [Function.comp_def, types.countP_fieldActions]

end Total

end DistKvRaft.Labgob
