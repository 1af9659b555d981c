import DistKvRaft.Labrpc.Network
import Mathlib.Data.Set.List

/-!
# Ends and how they are wired

The tests make ends, connect them to servers and enable and disable them, many at a time.  Here is
what a sequence of such changes does, apart from everything else on the network, and what a call is
worth on an end that is disabled.
-/

namespace DistKvRaft.Labrpc

open Go

/-- The part of the network that belongs to its ends. -/
structure Wires (End Name : Type) where
  ends : End → Bool
  enabled : End → Bool
  connections : End → Option Name

inductive EndChange (End Name : Type)
  | makeEnd (endname : End)
  | connect (endname : End) (name : Name)
  | enable (endname : End) (enabled : Bool)

section Model

variable {End Name : Type}

def EndChange.toChange : EndChange End Name → Change End Name
  | .makeEnd endname => .makeEnd endname
  | .connect endname name => .connect endname name
  | .enable endname enabled => .enable endname enabled

def Network.wires (net : Network End Name) : Wires End Name :=
  ⟨net.ends, net.enabled, net.connections⟩

/-- The event is none of the changes of ends. -/
def Event.leavesEnds : Event End Name → Bool
  | .change (.makeEnd _) | .change (.deleteEnd _) | .change (.connect _ _)
  | .change (.enable _ _) => false
  | _ => true

namespace Wires

variable [DecidableEq End]

def apply (w : Wires End Name) : EndChange End Name → Option (Wires End Name)
  | .makeEnd endname =>
    if w.ends endname then none
    else some
      ⟨Function.update w.ends endname true, Function.update w.enabled endname false,
        Function.update w.connections endname none⟩
  | .connect endname name =>
    some { w with connections := Function.update w.connections endname (some name) }
  | .enable endname enabled =>
    some { w with enabled := Function.update w.enabled endname enabled }

/-- Changes one after the other; `none` where the process ends. -/
def applyAll (w : Wires End Name) (changes : List (EndChange End Name)) :
    Option (Wires End Name) := changes.foldlM apply w

end Wires

/-- `endnames[i][j]`, the end of server `i` that leads to server `j`; `none` where the lookup
panics, and for a server that has no names yet. -/
def endname (endnames : ℕ → Option (List End)) (i j : ℕ) : Option End :=
  (endnames i).bind fun names ↦ names[j]?

/-- Make ends and connect them. -/
def makeEnds (pairs : List (End × Name)) : List (EndChange End Name) :=
  pairs.flatMap fun p ↦ [.makeEnd p.1, .connect p.1 p.2]

end Model

section Changes

variable {End Name : Type} [DecidableEq End] {w : Wires End Name}

theorem wires_apply [DecidableEq Name] (net : Network End Name) (change : EndChange End Name) :
    (net.apply change.toChange).map Network.wires = net.wires.apply change := by
  cases change with
  | makeEnd endname =>
    by_cases hends : net.ends endname = true
    · simp [EndChange.toChange, Network.apply, Wires.apply, Network.wires, hends]
    · simp [EndChange.toChange, Network.apply, Wires.apply, Network.wires, hends]
  | connect | enable => rfl

namespace Wires

theorem applyAll_cons (w : Wires End Name) (x : EndChange End Name)
    (xs : List (EndChange End Name)) :
    w.applyAll (x :: xs) = (w.apply x).bind fun w ↦ w.applyAll xs :=
  List.foldlM_cons

theorem applyAll_append (w : Wires End Name) (xs ys : List (EndChange End Name)) :
    w.applyAll (xs ++ ys) = (w.applyAll xs).bind fun w ↦ w.applyAll ys :=
  List.foldlM_append

/-- Switching ends on and off, each end always the same way. -/
theorem applyAll_switch (w : Wires End Name) (enabled : End → Bool) (es : List End) :
    w.applyAll (es.map fun e ↦ .enable e (enabled e)) =
      some { w with enabled := fun e ↦ if e ∈ es then enabled e else w.enabled e } := by
  induction es generalizing w with
  | nil => simp [applyAll]
  | cons e es ih =>
    rw [List.map_cons, applyAll_cons, apply, Option.bind_some, ih]
    congr 2
    funext x
    by_cases hx : x ∈ es
    · simp [hx]
    · by_cases hxe : x = e
      · simp [hxe]
      · simp [hx, hxe]

theorem applyAll_enable (w : Wires End Name) (enabled : Bool) (es : List End) :
    w.applyAll (es.map (.enable · enabled)) =
      some { w with enabled := fun e ↦ if e ∈ es then enabled else w.enabled e } :=
  w.applyAll_switch (fun _ ↦ enabled) es

/-- The same, for changes that are not given as a list of ends. -/
theorem exists_applyAll_of_switches (w : Wires End Name) {enabled : End → Bool}
    {changes : List (EndChange End Name)}
    (h : ∀ change ∈ changes, ∃ e, .enable e (enabled e) = change) :
    ∃ w', w.applyAll changes = some w' ∧
      ∀ e, .enable e (enabled e) ∈ changes → w'.enabled e = enabled e := by
  obtain ⟨es, rfl⟩ : changes ∈ Set.range (List.map fun e ↦ .enable e (enabled e)) := by
    rw [Set.range_list_map]
    exact h
  refine ⟨_, w.applyAll_switch enabled es, fun e he ↦ ?_⟩
  obtain ⟨e', he', heq⟩ := List.mem_map.mp he
  cases heq
  exact if_pos he'

/-- What it means that ends were made and connected. -/
structure Made (w : Wires End Name) (pairs : List (End × Name)) (w' : Wires End Name) : Prop where
  nodup : (pairs.map Prod.fst).Nodup
  fresh : ∀ e ∈ pairs.map Prod.fst, w.ends e = false
  ends : ∀ e, w'.ends e = true ↔ w.ends e = true ∨ e ∈ pairs.map Prod.fst
  enabled : ∀ e, w'.enabled e = true ↔ w.enabled e = true ∧ e ∉ pairs.map Prod.fst
  connected : ∀ p ∈ pairs, w'.connections p.1 = some p.2
  connections : ∀ e ∉ pairs.map Prod.fst, w'.connections e = w.connections e

theorem made_of_applyAll {pairs : List (End × Name)} {w w' : Wires End Name}
    (h : w.applyAll (makeEnds pairs) = some w') : w.Made pairs w' := by
  induction pairs generalizing w with
  | nil =>
    cases h
    exact ⟨List.nodup_nil, by simp, by simp, by simp, by simp, by simp⟩
  | cons p pairs ih =>
    have hfirst : w.applyAll (makeEnds (p :: pairs)) =
        (w.apply (.makeEnd p.1)).bind fun w ↦ (w.apply (.connect p.1 p.2)).bind fun w ↦
          w.applyAll (makeEnds pairs) := rfl
    rw [hfirst] at h
    obtain ⟨w₁, hw₁, hrest⟩ := Option.bind_eq_some_iff.mp h
    rw [apply, Option.ite_none_left_eq_some] at hw₁
    obtain ⟨hnew, hw₁⟩ := hw₁
    cases hw₁
    have hmade := ih hrest
    have hp : p.1 ∉ pairs.map Prod.fst := by
      intro hmem
      have hfresh := hmade.fresh p.1 hmem
      simp at hfresh
    refine ⟨List.nodup_cons.mpr ⟨hp, hmade.nodup⟩, fun e he ↦ ?_, fun e ↦ ?_, fun e ↦ ?_,
      fun q hq ↦ ?_, fun e he ↦ ?_⟩
    · rcases List.mem_cons.mp he with rfl | he
      · exact Bool.eq_false_iff.mpr hnew
      · have hfresh := hmade.fresh e he
        have hne : e ≠ p.1 := fun heq ↦ hp (heq ▸ he)
        simpa [hne] using hfresh
    · rw [hmade.ends, List.map_cons, List.mem_cons]
      by_cases hep : e = p.1
      · simp [hep]
      · simp [hep]
    · rw [hmade.enabled, List.map_cons, List.mem_cons]
      by_cases hep : e = p.1
      · simp [hep]
      · simp [hep]
    · rcases List.mem_cons.mp hq with rfl | hq
      · rw [hmade.connections q.1 hp]
        exact Function.update_self ..
      · exact hmade.connected q hq
    · rw [List.map_cons, List.mem_cons, not_or] at he
      rw [hmade.connections e he.2]
      simp [he.1]

end Wires

end Changes

/-! ## Calls on a disabled end -/

section Unserved

variable {End Name : Type}

/-- The call has not reached a server. -/
structure Call.Unserved (c : Call End Name) : Prop where
  dispatch : c.dispatch = .none
  stage : c.stage ∈ [.calling, .received, .counted, .accepted, .unreachable, .returned none]

theorem Call.Unserved.step {net net' : Network End Name} {c c' : Call End Name} {event : CallEvent}
    (hc : c.Unserved) (hdisabled : net.enabled c.request.endname = false)
    (h : c.Step net event net' c') : c'.Unserved := by
  have hstage := hc.stage
  cases h with
  | accept | countCall | countArgs | abort | unreachable | expire =>
    exact ⟨hc.dispatch, by simp⟩
  | goOn => exact hc
  | read _ hlink =>
    have henabled := (Network.connections_of_readEndnameInfo hlink).1
    rw [hdisabled] at henabled
    cases henabled
  | dispatch h | enter h | reply h =>
    rw [hc.dispatch] at h
    cases h
  | drain _ h =>
    rw [hc.dispatch] at h
    cases h
  | drop h | launch h | takeReply h | giveUp h | pass h | fail h | dropReply h | delayReply h
  | forward h | deliver h | expireReply h =>
    rw [h] at hstage
    simp at hstage

variable [DecidableEq End] [DecidableEq Name]

namespace Traffic

/-- The calls that an end has made since the first `n` calls have not reached a server. -/
def UnservedSince (endname : End) (n : ℕ) (s : Traffic End Name) : Prop :=
  ∀ k c, n ≤ k → s.calls[k]? = some c → c.request.endname = endname → c.Unserved

theorem UnservedSince.step {s t : Traffic End Name} {endname : End} {n : ℕ}
    {event : Event End Name} (hs : s.UnservedSince endname n)
    (hdisabled : s.net.enabled endname = false) (h : s.step event = some t) :
    t.UnservedSince endname n := by
  cases transition_of_step h with
  | change | exit | stop => exact hs
  | call request =>
    intro k c hk hc hend
    rcases Lists.getElem?_concat_eq_some.mp hc with hc | ⟨-, rfl⟩
    · exact hs k c hk hc hend
    · exact ⟨rfl, List.mem_cons_self⟩
  | @advance j _ c₀ _ _ hj _ hstep =>
    intro k c hk hc hend
    have hlt := (List.getElem?_eq_some_iff.mp hj).1
    rcases (Lists.getElem?_set_eq_some hlt).mp hc with ⟨rfl, rfl⟩ | ⟨-, hc⟩
    · rw [hstep.request_eq] at hend
      exact (hs k c₀ hk hj hend).step (hend ▸ hdisabled) hstep
    · exact hs k c hk hc hend

end Traffic

/-- Other events leave the ends alone. -/
theorem wires_of_step {s t : Traffic End Name} {event : Event End Name}
    (h : s.step event = some t) (hevent : event.leavesEnds = true) : t.net.wires = s.net.wires := by
  cases Traffic.transition_of_step h with
  | exit | call | stop => rfl
  | advance _ _ hstep =>
    obtain ⟨hends, henabled, hconnections⟩ := hstep.ends_eq
    simp only [Network.wires, hends, henabled, hconnections]
  | @change change net happly =>
    cases change with
    | makeEnd | deleteEnd | connect | enable => cases hevent
    | makeServer | addService | addServer | deleteServer | setReliable | setLongReordering =>
      cases happly
      rfl
    | cleanup =>
      rw [Network.apply, Option.ite_none_left_eq_some] at happly
      cases happly.2
      rfl

/-- A change of an end is made, or the process ends. -/
theorem wires_of_change {s t : Traffic End Name} {change : EndChange End Name}
    (h : s.step (.change change.toChange) = some t) :
    t.exited = true ∧ s.net.wires.apply change = none ∨
      s.net.wires.apply change = some t.net.wires := by
  rw [← wires_apply]
  cases Traffic.transition_of_step h with
  | exit hfatal =>
    have hnone : s.net.apply change.toChange = none := Option.isNone_iff_eq_none.mp hfatal
    exact Or.inl ⟨rfl, by rw [hnone, Option.map_none]⟩
  | change happly => exact Or.inr (by rw [happly, Option.map_some])

/-- Changes of ends do the same whatever happens between them. -/
theorem wires_of_run {s t : Traffic End Name} {events : List (Event End Name)}
    {changes : List (EndChange End Name)} {w : Wires End Name}
    (h : (labrpc End Name).run s events = some t)
    (hevents : events.filter (!·.leavesEnds) = changes.map (.change ·.toChange))
    (hw : s.net.wires.applyAll changes = some w) : t.net.wires = w := by
  induction events generalizing s changes with
  | nil =>
    cases h
    obtain rfl : changes = [] := List.map_eq_nil_iff.mp hevents.symm
    cases hw
    rfl
  | cons event events ih =>
    obtain ⟨mid, hmid, hrun⟩ := Machine.run_cons_eq_some h
    by_cases hleaves : event.leavesEnds = true
    · rw [List.filter_cons_of_neg (by simp [hleaves])] at hevents
      rw [← wires_of_step hmid hleaves] at hw
      exact ih hrun hevents hw
    · rw [List.filter_cons_of_pos (by simp [hleaves])] at hevents
      obtain ⟨change, changes, rfl, rfl, hrest⟩ := List.map_eq_cons_iff.mp hevents.symm
      rw [Wires.applyAll_cons] at hw
      obtain ⟨w₁, hw₁, hlater⟩ := Option.bind_eq_some_iff.mp hw
      rcases wires_of_change hmid with ⟨-, hnone⟩ | happly
      · rw [hw₁] at hnone
        cases hnone
      · rw [hw₁] at happly
        cases happly
        exact ih hrun hrest.symm hlater

end Unserved

end DistKvRaft.Labrpc
