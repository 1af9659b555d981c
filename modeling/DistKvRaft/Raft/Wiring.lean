import DistKvRaft.Labrpc.Ends

/-!
# Who can talk to whom

The tests of Raft give every instance of a server its own ends, one for each server, and enable and
disable them to connect and disconnect servers.  An instance cannot be killed.  It is cut off
instead: its ends are disabled for good when the next instance gets ends of its own.

`connect`, `disconnect`, `crash1` and `start1` are cut here into the changes they make to the
network, which interleave with all calls.  The tests call them one after another.  What `crash1` and
`start1` do to servers and persisters is left to `Raft.Restart`.
-/

namespace DistKvRaft.Raft

open Go Labrpc

/-- The network under the tests.  `endnames` is `none` for a server that was never started, and
`todo` is what is left of the procedure that runs. -/
structure Testbed (End : Type) where
  traffic : Traffic End ℕ
  connected : ℕ → Bool
  endnames : ℕ → Option (List End)
  todo : List (EndChange End ℕ)

inductive TestEvent (End : Type)
  /-- calls, and changes of the network other than those of ends -/
  | network (event : Labrpc.Event End ℕ)
  | connect (i : ℕ)
  | disconnect (i : ℕ)
  | crash1 (i : ℕ)
  /-- with the random names of the new ends -/
  | start1 (i : ℕ) (names : List End)
  | proceed

/-- The ends that `connect` enables; `none` where it panics because a server was never started. -/
def endsToConnect {End : Type} (n : ℕ) (connected : ℕ → Bool) (endnames : ℕ → Option (List End))
    (i : ℕ) : Option (List End) :=
  (((List.range n).filter connected).mapM fun j ↦ endname endnames i j).bind fun outgoing ↦
    (((List.range n).filter connected).mapM fun j ↦ endname endnames j i).map fun incoming ↦
      outgoing ++ incoming

/-- The ends that `disconnect` disables. -/
def endsToDisconnect {End : Type} (n : ℕ) (endnames : ℕ → Option (List End)) (i : ℕ) : List End :=
  ((List.range n).filterMap fun j ↦ endname endnames i j) ++
    (List.range n).filterMap fun j ↦ endname endnames j i

namespace Testbed

section Model

variable {End : Type} [DecidableEq End] (n : ℕ) (s : Testbed End)

def connect (i : ℕ) : Testbed End :=
  let connected := Function.update s.connected i true
  match endsToConnect n connected s.endnames i with
  | some ends => { s with connected, todo := ends.map (.enable · true) }
  | none => { s with traffic := s.traffic.exit }

def disconnect (i : ℕ) : Testbed End :=
  { s with
    connected := Function.update s.connected i false
    todo := (endsToDisconnect n s.endnames i).map (.enable · false) }

def start1 (i : ℕ) (names : List End) : Testbed End :=
  { s with
    connected := Function.update s.connected i false
    endnames := Function.update s.endnames i (some names)
    todo := (endsToDisconnect n s.endnames i).map (.enable · false) ++ makeEnds names.zipIdx }

/-- The next change of the procedure that runs. -/
def proceed : Option (Testbed End) :=
  match s.todo with
  | [] => none
  | change :: rest =>
    (s.traffic.step (.change change.toChange)).map fun traffic ↦ { s with traffic, todo := rest }

def step (event : TestEvent End) : Option (Testbed End) :=
  if s.traffic.exited then none
  else match event with
    | .network event =>
      if event.leavesEnds then (s.traffic.step event).map fun traffic ↦ { s with traffic } else none
    | .connect i => if s.todo = [] ∧ i < n then some (s.connect n i) else none
    | .disconnect i => if s.todo = [] ∧ i < n then some (s.disconnect n i) else none
    | .crash1 i => if s.todo = [] ∧ i < n then some (s.disconnect n i) else none
    | .start1 i names =>
      if s.todo = [] ∧ i < n ∧ names.length = n then some (s.start1 n i names) else none
    | .proceed => s.proceed

end Model

end Testbed

/-- The machine of `n` servers under the tests. -/
def testbed (End : Type) [DecidableEq End] (n : ℕ) : Machine (Testbed End) (TestEvent End) :=
  ⟨⟨Traffic.initial, fun _ ↦ false, fun _ ↦ none, []⟩, Testbed.step n⟩

/-! ## The wires at rest -/

section Wired

variable {End : Type}

/-- Each end leads from one instance to one server, and is enabled if both servers are connected;
other ends are disabled. -/
structure Wired (n : ℕ) (connected : ℕ → Bool) (endnames : ℕ → Option (List End))
    (w : Wires End ℕ) : Prop where
  sized : ∀ i names, endnames i = some names → i < n ∧ names.length = n
  started : ∀ i, connected i = true → endnames i ≠ none
  made : ∀ i j e, endname endnames i j = some e → w.ends e = true ∧ w.connections e = some j
  owner : ∀ i i' j j' e, endname endnames i j = some e → endname endnames i' j' = some e → i = i'
  live : ∀ e, w.enabled e = true ↔
    ∃ i j, connected i = true ∧ connected j = true ∧ endname endnames i j = some e

variable {n i : ℕ} {connected : ℕ → Bool} {endnames : ℕ → Option (List End)}
  {w w' : Wires End ℕ} {e : End}

theorem lt_of_endname (hsized : ∀ i names, endnames i = some names → i < n ∧ names.length = n)
    {j : ℕ} (h : endname endnames i j = some e) : i < n ∧ j < n := by
  obtain ⟨names, hnames, hj⟩ := Option.bind_eq_some_iff.mp h
  obtain ⟨hi, hlength⟩ := hsized i names hnames
  exact ⟨hi, hlength ▸ (List.getElem?_eq_some_iff.mp hj).1⟩

theorem mem_endsToDisconnect
    (hsized : ∀ i names, endnames i = some names → i < n ∧ names.length = n) :
    e ∈ endsToDisconnect n endnames i ↔
      ∃ a b, (a = i ∨ b = i) ∧ endname endnames a b = some e := by
  simp only [endsToDisconnect, List.mem_append, List.mem_filterMap, List.mem_range]
  constructor
  · rintro (⟨j, -, hj⟩ | ⟨j, -, hj⟩)
    · exact ⟨i, j, Or.inl rfl, hj⟩
    · exact ⟨j, i, Or.inr rfl, hj⟩
  · rintro ⟨a, b, rfl | rfl, hab⟩
    · exact Or.inl ⟨b, (lt_of_endname hsized hab).2, hab⟩
    · exact Or.inr ⟨a, (lt_of_endname hsized hab).1, hab⟩

theorem mem_endsToConnect
    (hsized : ∀ i names, endnames i = some names → i < n ∧ names.length = n)
    (hi : connected i = true) {ends : List End}
    (h : endsToConnect n connected endnames i = some ends) :
    e ∈ ends ↔ ∃ a b, (a = i ∨ b = i) ∧ connected a = true ∧ connected b = true ∧
      endname endnames a b = some e := by
  obtain ⟨outgoing, hout, hrest⟩ := Option.bind_eq_some_iff.mp h
  obtain ⟨incoming, hin, rfl⟩ := Option.map_eq_some_iff.mp hrest
  rw [List.mem_append, Lists.mem_iff_of_mapM hout, Lists.mem_iff_of_mapM hin]
  simp only [List.mem_filter, List.mem_range]
  constructor
  · rintro (⟨j, ⟨-, hconnected⟩, hj⟩ | ⟨j, ⟨-, hconnected⟩, hj⟩)
    · exact ⟨i, j, Or.inl rfl, hi, hconnected, hj⟩
    · exact ⟨j, i, Or.inr rfl, hconnected, hi, hj⟩
  · rintro ⟨a, b, rfl | rfl, ha, hb, hab⟩
    · exact Or.inl ⟨b, ⟨(lt_of_endname hsized hab).2, hb⟩, hab⟩
    · exact Or.inr ⟨a, ⟨(lt_of_endname hsized hab).1, ha⟩, hab⟩

theorem endname_update_eq_some {names : List End} {a b : ℕ} :
    endname (Function.update endnames i (some names)) a b = some e ↔
      (a = i ∧ names[b]? = some e) ∨ (a ≠ i ∧ endname endnames a b = some e) := by
  unfold endname
  by_cases ha : a = i
  · simp [ha]
  · simp [ha]

/-- New ends for a server that is disconnected. -/
theorem Wired.start1 (hw : Wired n connected endnames w) (hi : i < n) (hdown : connected i = false)
    {names : List End} (hlength : names.length = n) (hmade : w.Made names.zipIdx w') :
    Wired n connected (Function.update endnames i (some names)) w' := by
  have hkeys : names.zipIdx.map Prod.fst = names := List.zipIdx_map_fst 0 names
  obtain ⟨-, hfresh, hends, henabled, hnew, hconnections⟩ := hmade
  simp only [hkeys] at hfresh hends henabled hconnections
  have hold : ∀ {a b e}, endname endnames a b = some e → e ∉ names := by
    intro a b e hab hmem
    have hends := hfresh e hmem
    rw [(hw.made a b e hab).1] at hends
    cases hends
  refine ⟨fun j names' hj ↦ ?_, fun j hj ↦ ?_, fun a b e hab ↦ ?_, fun a a' b b' e hab hab' ↦ ?_,
    fun e ↦ ?_⟩
  · by_cases hji : j = i
    · subst hji
      rw [Function.update_self] at hj
      cases hj
      exact ⟨hi, hlength⟩
    · rw [Function.update_of_ne hji] at hj
      exact hw.sized j names' hj
  · have hji : j ≠ i := by
      intro hji
      rw [hji, hdown] at hj
      cases hj
    rw [Function.update_of_ne hji]
    exact hw.started j hj
  · rcases endname_update_eq_some.mp hab with ⟨-, hb⟩ | ⟨-, hab⟩
    · exact ⟨(hends e).mpr (Or.inr (List.mem_of_getElem? hb)),
        hnew (e, b) (List.mk_mem_zipIdx_iff_getElem?.mpr hb)⟩
    · obtain ⟨hends', hconnected⟩ := hw.made a b e hab
      exact ⟨(hends e).mpr (Or.inl hends'), (hconnections e (hold hab)).trans hconnected⟩
  · rcases endname_update_eq_some.mp hab with ⟨rfl, hb⟩ | ⟨-, hab⟩
    · rcases endname_update_eq_some.mp hab' with ⟨rfl, -⟩ | ⟨-, hab'⟩
      · rfl
      · exact absurd (List.mem_of_getElem? hb) (hold hab')
    · rcases endname_update_eq_some.mp hab' with ⟨-, hb'⟩ | ⟨-, hab'⟩
      · exact absurd (List.mem_of_getElem? hb') (hold hab)
      · exact hw.owner a a' b b' e hab hab'
  · rw [henabled, hw.live]
    constructor
    · rintro ⟨⟨a, b, ha, hb, hab⟩, -⟩
      have hai : a ≠ i := by
        intro hai
        rw [hai, hdown] at ha
        cases ha
      exact ⟨a, b, ha, hb, endname_update_eq_some.mpr (Or.inr ⟨hai, hab⟩)⟩
    · rintro ⟨a, b, ha, hb, hab⟩
      rcases endname_update_eq_some.mp hab with ⟨rfl, -⟩ | ⟨-, hab⟩
      · rw [hdown] at ha
        cases ha
      · exact ⟨⟨a, b, ha, hb, hab⟩, hold hab⟩

variable [DecidableEq End]

theorem Wired.connect (hw : Wired n connected endnames w) (hi : i < n) {ends : List End}
    (h : endsToConnect n (Function.update connected i true) endnames i = some ends)
    (happly : w.applyAll (ends.map (.enable · true)) = some w') :
    Wired n (Function.update connected i true) endnames w' := by
  have hself : Function.update connected i true i = true := Function.update_self ..
  have hmem := fun e ↦ mem_endsToConnect (e := e) hw.sized hself h
  rw [Wires.applyAll_enable] at happly
  cases happly
  refine ⟨hw.sized, fun j hj ↦ ?_, hw.made, hw.owner, fun e ↦ ?_⟩
  · by_cases hji : j = i
    · subst hji
      -- `connect` has read the names of this server
      obtain ⟨outgoing, hout, -⟩ := Option.bind_eq_some_iff.mp h
      have hread := Lists.map_eq_of_mapM hout
      have hjmem : j ∈ (List.range n).filter (Function.update connected j true) :=
        List.mem_filter.mpr ⟨List.mem_range.mpr hi, hself⟩
      have hsome := hread ▸ List.mem_map_of_mem (f := fun k ↦ endname endnames j k) hjmem
      obtain ⟨e, -, he⟩ := List.mem_map.mp hsome
      intro hnone
      rw [endname, hnone] at he
      cases he
    · rw [Function.update_of_ne hji] at hj
      exact hw.started j hj
  · dsimp only
    constructor
    · intro he
      split_ifs at he with hin
      · obtain ⟨a, b, -, ha, hb, hab⟩ := (hmem e).mp hin
        exact ⟨a, b, ha, hb, hab⟩
      · obtain ⟨a, b, ha, hb, hab⟩ := (hw.live e).mp he
        have hkeep : ∀ j, connected j = true → Function.update connected i true j = true := by
          intro j hj
          by_cases hji : j = i
          · rw [hji, hself]
          · rw [Function.update_of_ne hji, hj]
        exact ⟨a, b, hkeep a ha, hkeep b hb, hab⟩
    · rintro ⟨a, b, ha, hb, hab⟩
      split_ifs with hin
      · rfl
      · have hne : a ≠ i ∧ b ≠ i := by
          rw [← not_or]
          exact fun hor ↦ hin ((hmem e).mpr ⟨a, b, hor, ha, hb, hab⟩)
        rw [Function.update_of_ne hne.1] at ha
        rw [Function.update_of_ne hne.2] at hb
        exact (hw.live e).mpr ⟨a, b, ha, hb, hab⟩

theorem Wired.disconnect (hw : Wired n connected endnames w)
    (happly : w.applyAll ((endsToDisconnect n endnames i).map (.enable · false)) = some w') :
    Wired n (Function.update connected i false) endnames w' := by
  have hdown : ∀ j, Function.update connected i false j = true → j ≠ i ∧ connected j = true := by
    intro j hj
    by_cases hji : j = i
    · rw [hji, Function.update_self] at hj
      cases hj
    · rw [Function.update_of_ne hji] at hj
      exact ⟨hji, hj⟩
  have hmem := fun e ↦ mem_endsToDisconnect (i := i) (e := e) hw.sized
  rw [Wires.applyAll_enable] at happly
  cases happly
  refine ⟨hw.sized, fun j hj ↦ hw.started j (hdown j hj).2, hw.made, hw.owner, fun e ↦ ?_⟩
  dsimp only
  constructor
  · intro he
    split_ifs at he with hin
    obtain ⟨a, b, ha, hb, hab⟩ := (hw.live e).mp he
    have hne : a ≠ i ∧ b ≠ i := by
      rw [← not_or]
      exact fun hor ↦ hin ((hmem e).mpr ⟨a, b, hor, hab⟩)
    exact ⟨a, b, by rw [Function.update_of_ne hne.1, ha], by rw [Function.update_of_ne hne.2, hb],
      hab⟩
  · rintro ⟨a, b, ha, hb, hab⟩
    obtain ⟨hai, ha⟩ := hdown a ha
    obtain ⟨hbi, hb⟩ := hdown b hb
    split_ifs with hin
    · -- an end of its own cannot be one of those that were disabled
      obtain ⟨a', b', hor, hab'⟩ := (hmem e).mp hin
      have haa := hw.owner _ _ _ _ _ hab hab'
      have hbb := (hw.made _ _ _ hab).2.symm.trans (hw.made _ _ _ hab').2
      rw [← haa, ← Option.some.inj hbb] at hor
      exact absurd hor (not_or.mpr ⟨hai, hbi⟩)
    · exact (hw.live e).mpr ⟨a, b, ha, hb, hab⟩

end Wired

/-! ## What a step can do -/

/-- The server that an event connects. -/
def TestEvent.connects {End : Type} : TestEvent End → Option ℕ
  | .connect i => some i
  | _ => none

namespace Testbed

section Steps

variable {End : Type} [DecidableEq End] {n : ℕ}

/-- The steps of the machine, one case for each outcome. -/
inductive Transition (n : ℕ) (s : Testbed End) : TestEvent End → Testbed End → Prop
  | network {event : Labrpc.Event End ℕ} {traffic : Traffic End ℕ}
      (hevent : event.leavesEnds = true) (h : s.traffic.step event = some traffic) :
      Transition n s (.network event) { s with traffic }
  | connect {i : ℕ} {ends : List End} (hrest : s.todo = []) (hi : i < n)
      (h : endsToConnect n (Function.update s.connected i true) s.endnames i = some ends) :
      Transition n s (.connect i) { s with
        connected := Function.update s.connected i true
        todo := ends.map (.enable · true) }
  | panic (event : TestEvent End) : Transition n s event { s with traffic := s.traffic.exit }
  | disconnect {event : TestEvent End} {i : ℕ} (hevent : event.connects = none)
      (hrest : s.todo = []) : Transition n s event (s.disconnect n i)
  | start1 {i : ℕ} {names : List End} (hrest : s.todo = []) (hi : i < n)
      (hlength : names.length = n) : Transition n s (.start1 i names) (s.start1 n i names)
  | proceed {change : EndChange End ℕ} {rest : List (EndChange End ℕ)} {traffic : Traffic End ℕ}
      (htodo : s.todo = change :: rest)
      (h : s.traffic.step (.change change.toChange) = some traffic) :
      Transition n s .proceed { s with traffic, todo := rest }

variable {s t : Testbed End} {event : TestEvent End}

theorem running_of_step (h : s.step n event = some t) : s.traffic.exited = false := by
  unfold step at h
  rw [Option.ite_none_left_eq_some] at h
  exact Bool.eq_false_iff.mpr h.1

theorem transition_of_step (h : s.step n event = some t) : Transition n s event t := by
  unfold step at h
  rw [Option.ite_none_left_eq_some] at h
  obtain ⟨-, h⟩ := h
  cases event with
  | network event =>
    dsimp only at h
    rw [Option.ite_none_right_eq_some] at h
    obtain ⟨traffic, htraffic, rfl⟩ := Option.map_eq_some_iff.mp h.2
    exact .network h.1 htraffic
  | connect i =>
    dsimp only at h
    rw [Option.ite_none_right_eq_some] at h
    obtain ⟨⟨hrest, hi⟩, heq⟩ := h
    cases heq
    cases hends : endsToConnect n (Function.update s.connected i true) s.endnames i with
    | some ends =>
      simp only [connect, hends]
      exact .connect hrest hi hends
    | none =>
      simp only [connect, hends]
      exact .panic _
  | disconnect i | crash1 i =>
    dsimp only at h
    rw [Option.ite_none_right_eq_some] at h
    cases h.2
    exact .disconnect rfl h.1.1
  | start1 i names =>
    dsimp only at h
    rw [Option.ite_none_right_eq_some] at h
    cases h.2
    exact .start1 h.1.1 h.1.2.1 h.1.2.2
  | proceed =>
    dsimp only [proceed] at h
    split at h
    · cases h
    · next htodo =>
      obtain ⟨traffic, htraffic, rfl⟩ := Option.map_eq_some_iff.mp h
      exact .proceed htodo htraffic

/-! ## Every step keeps the wires in order -/

/-- Once the procedure that runs is done, the wires are in order. -/
def Valid (n : ℕ) (s : Testbed End) : Prop :=
  s.traffic.exited = false → ∀ w, s.traffic.net.wires.applyAll s.todo = some w →
    Wired n s.connected s.endnames w

theorem Valid.wired (hs : s.Valid n) (hrunning : s.traffic.exited = false) (hrest : s.todo = []) :
    Wired n s.connected s.endnames s.traffic.net.wires :=
  hs hrunning _ (by rw [hrest]; rfl)

theorem Valid.step (hs : s.Valid n) (h : s.step n event = some t) : t.Valid n := by
  have hup := running_of_step h
  cases transition_of_step h with
  | network hevent hstep =>
    intro _ w hw
    rw [wires_of_step hstep hevent] at hw
    exact hs hup w hw
  | connect hrest hi hends =>
    intro _ w hw
    exact (hs.wired hup hrest).connect hi hends hw
  | panic =>
    intro hrunning
    cases hrunning
  | disconnect _ hrest =>
    intro _ w hw
    exact (hs.wired hup hrest).disconnect hw
  | start1 hrest hi hlength =>
    intro _ w hw
    dsimp only [start1] at hw
    rw [Wires.applyAll_append] at hw
    obtain ⟨w₁, hw₁, hmake⟩ := Option.bind_eq_some_iff.mp hw
    exact ((hs.wired hup hrest).disconnect hw₁).start1 hi (Function.update_self ..) hlength
      (Wires.made_of_applyAll hmake)
  | proceed htodo hstep =>
    intro hrunning w hw
    rcases wires_of_change hstep with ⟨hexit, -⟩ | happly
    · rw [hexit] at hrunning
      cases hrunning
    · apply hs hup w
      rw [htodo]
      exact Option.bind_eq_some_iff.mpr ⟨_, happly, hw⟩

theorem valid_of_reachable (h : (testbed End n).Reachable s) : s.Valid n := by
  apply h.invariant (I := Valid n)
  · intro _ w hw
    cases hw
    refine ⟨?_, ?_, ?_, ?_, ?_⟩ <;>
      simp [testbed, endname, Network.wires, Traffic.initial, makeNetwork]
  · exact fun s e t hs hstep ↦ hs.step hstep

/-- **Connected servers can talk.** Whenever no procedure of the tests runs, the ends that are
enabled are those that the present instance of a connected server has to a connected server, and
each leads to its server. -/
theorem enabled_iff_connected (h : (testbed End n).Reachable s)
    (hrunning : s.traffic.exited = false) (hrest : s.todo = []) :
    (∀ e, s.traffic.net.enabled e = true ↔
      ∃ i j, s.connected i = true ∧ s.connected j = true ∧ endname s.endnames i j = some e) ∧
    ∀ i j e, endname s.endnames i j = some e → s.traffic.net.connections e = some j := by
  have hwired := (valid_of_reachable h).wired hrunning hrest
  exact ⟨hwired.live, fun i j e he ↦ (hwired.made i j e he).2⟩

/-- Two servers are started and connected. -/
def sampleStart : List (TestEvent ℕ) :=
  .start1 0 [10, 11] :: List.replicate 4 .proceed ++ .start1 1 [12, 13] ::
    List.replicate 5 .proceed ++ .connect 0 :: List.replicate 2 .proceed ++ .connect 1 ::
    List.replicate 4 .proceed

/-- All four ends are enabled. -/
theorem enabled_iff_connected_sample :
    ∃ s : Testbed ℕ, (testbed ℕ 2).Reachable s ∧ s.traffic.net.enabled 11 = true ∧
      ∃ i j, s.connected i = true ∧ s.connected j = true ∧ endname s.endnames i j = some 11 := by
  have hrun : ∃ s : Testbed ℕ, (testbed ℕ 2).Reachable s ∧ s.traffic.exited = false ∧
      s.todo.length = 0 ∧ s.traffic.net.enabled 11 = true :=
    Machine.exists_reachable sampleStart (by decide)
  obtain ⟨s, hs, hrunning, hrest, henabled⟩ := hrun
  obtain ⟨hlive, -⟩ := enabled_iff_connected hs hrunning (List.length_eq_zero_iff.mp hrest)
  exact ⟨s, hs, henabled, (hlive 11).mp henabled⟩

/-! ## Ends that are cut off -/

/-- The end is disabled, and nothing will enable it before one of the servers in `down` is
connected. -/
structure CutOff (down : List ℕ) (e : End) (s : Testbed End) : Prop where
  disconnected : ∀ i ∈ down, s.connected i = false
  made : s.traffic.net.ends e = true
  disabled : s.traffic.net.enabled e = false
  pending : .enable e true ∉ s.todo
  ends : s.traffic.exited = false → ∀ w, s.traffic.net.wires.applyAll s.todo = some w →
    ∀ i j, endname s.endnames i j = some e → i ∈ down ∨ j ∈ down

/-- A change that does not enable the end. -/
theorem apply_cutOff {w w' : Wires End ℕ} {change : EndChange End ℕ} {e : End}
    (h : w.apply change = some w') (hchange : change ≠ .enable e true) (hmade : w.ends e = true)
    (hdisabled : w.enabled e = false) : w'.ends e = true ∧ w'.enabled e = false := by
  cases change with
  | makeEnd x =>
    rw [Wires.apply, Option.ite_none_left_eq_some] at h
    cases h.2
    constructor
    · by_cases hx : e = x
      · simp [hx]
      · simp [hx, hmade]
    · by_cases hx : e = x
      · simp [hx]
      · simp [hx, hdisabled]
  | connect x name =>
    cases h
    exact ⟨hmade, hdisabled⟩
  | enable x enabled =>
    cases h
    refine ⟨hmade, ?_⟩
    dsimp only
    by_cases hx : e = x
    · subst hx
      rw [Function.update_self]
      exact Bool.eq_false_iff.mpr fun htrue ↦ hchange (by rw [htrue])
    · rw [Function.update_of_ne hx, hdisabled]

variable {down : List ℕ} {e : End}

theorem CutOff.connect (hs : s.CutOff down e) (hwired : Wired n s.connected s.endnames
      s.traffic.net.wires) (hup : s.traffic.exited = false) (hrest : s.todo = []) {i : ℕ}
    (hi : i ∉ down) {ends : List End}
    (hends : endsToConnect n (Function.update s.connected i true) s.endnames i = some ends) :
    CutOff down e { s with
      connected := Function.update s.connected i true
      todo := ends.map (.enable · true) } := by
  have hdown : ∀ j ∈ down, Function.update s.connected i true j = false := by
    intro j hj
    have hji : j ≠ i := fun hji ↦ hi (hji ▸ hj)
    rw [Function.update_of_ne hji, hs.disconnected j hj]
  have hold : ∀ a b, endname s.endnames a b = some e → a ∈ down ∨ b ∈ down :=
    hs.ends hup _ (by rw [hrest]; rfl)
  refine ⟨hdown, hs.made, hs.disabled, fun hmem ↦ ?_, fun _ _ _ ↦ hold⟩
  obtain ⟨x, hx, heq⟩ := List.mem_map.mp hmem
  cases heq
  obtain ⟨a, b, -, ha, hb, hab⟩ :=
    (mem_endsToConnect hwired.sized (Function.update_self ..) hends).mp hx
  rcases hold a b hab with hmem | hmem
  · rw [hdown a hmem] at ha
    cases ha
  · rw [hdown b hmem] at hb
    cases hb

theorem CutOff.start1 (hs : s.CutOff down e) (hup : s.traffic.exited = false)
    (hrest : s.todo = []) (i : ℕ) (names : List End) : CutOff down e (s.start1 n i names) := by
  have hdown : ∀ j ∈ down, Function.update s.connected i false j = false := by
    intro j hj
    by_cases hji : j = i
    · rw [hji, Function.update_self]
    · rw [Function.update_of_ne hji, hs.disconnected j hj]
  refine ⟨hdown, hs.made, hs.disabled, fun hmem ↦ ?_, fun _ w hw a b hab ↦ ?_⟩
  · rcases List.mem_append.mp hmem with hmem | hmem
    · obtain ⟨x, -, heq⟩ := List.mem_map.mp hmem
      cases heq
    · simp [makeEnds] at hmem
  · rcases endname_update_eq_some.mp hab with ⟨-, hb⟩ | ⟨-, hab⟩
    · -- the process ends when an end is made twice
      dsimp only [Testbed.start1] at hw
      rw [Wires.applyAll_append, Wires.applyAll_enable] at hw
      have hfresh := (Wires.made_of_applyAll hw).fresh e
        (List.mem_map.mpr ⟨(e, b), List.mk_mem_zipIdx_iff_getElem?.mpr hb, rfl⟩)
      exact absurd hs.made (Bool.eq_false_iff.mp hfresh)
    · exact hs.ends hup _ (by rw [hrest]; rfl) a b hab

theorem CutOff.disconnect (hs : s.CutOff down e) (hup : s.traffic.exited = false)
    (hrest : s.todo = []) (i : ℕ) : CutOff down e (s.disconnect n i) := by
  refine ⟨fun j hj ↦ ?_, hs.made, hs.disabled, fun hmem ↦ ?_,
    fun _ _ _ ↦ hs.ends hup _ (by rw [hrest]; rfl)⟩
  · by_cases hji : j = i
    · exact hji ▸ Function.update_self ..
    · exact (Function.update_of_ne hji ..).trans (hs.disconnected j hj)
  · obtain ⟨x, -, heq⟩ := List.mem_map.mp hmem
    cases heq

theorem CutOff.proceed (hs : s.CutOff down e) (hup : s.traffic.exited = false)
    {change : EndChange End ℕ} {rest : List (EndChange End ℕ)} {traffic : Traffic End ℕ}
    (htodo : s.todo = change :: rest)
    (h : s.traffic.step (.change change.toChange) = some traffic) :
    CutOff down e { s with traffic, todo := rest } := by
  have hpending := hs.pending
  rw [htodo, List.mem_cons, not_or] at hpending
  have hwires := wires_apply s.traffic.net change
  cases Traffic.transition_of_step h with
  | exit =>
    refine ⟨hs.disconnected, hs.made, hs.disabled, hpending.2, fun hrunning ↦ ?_⟩
    cases hrunning
  | @change _ net happly =>
    rw [happly] at hwires
    obtain ⟨hmade, hdisabled⟩ :=
      apply_cutOff hwires.symm (Ne.symm hpending.1) hs.made hs.disabled
    refine ⟨hs.disconnected, hmade, hdisabled, hpending.2, fun _ w hw ↦ hs.ends hup w ?_⟩
    rw [htodo]
    exact Option.bind_eq_some_iff.mpr ⟨_, hwires.symm, hw⟩

theorem CutOff.step (hs : s.CutOff down e) (hvalid : s.Valid n)
    (hevent : ∀ i ∈ down, event.connects ≠ some i) (h : s.step n event = some t) :
    t.CutOff down e := by
  have hup := running_of_step h
  cases transition_of_step h with
  | network hleaves hstep =>
    have hwires := wires_of_step hstep hleaves
    refine ⟨hs.disconnected, ?_, ?_, hs.pending, fun _ w hw ↦ hs.ends hup w (hwires ▸ hw)⟩
    · exact (congrFun (congrArg Wires.ends hwires) e).trans hs.made
    · exact (congrFun (congrArg Wires.enabled hwires) e).trans hs.disabled
  | panic =>
    refine ⟨hs.disconnected, hs.made, hs.disabled, hs.pending, fun hrunning ↦ ?_⟩
    cases hrunning
  | connect hrest _ hends =>
    exact hs.connect (hvalid.wired hup hrest) hup hrest (fun hi ↦ hevent _ hi rfl) hends
  | disconnect _ hrest => exact hs.disconnect hup hrest _
  | start1 hrest => exact hs.start1 hup hrest _ _
  | proceed htodo hstep => exact hs.proceed hup htodo hstep

/-- **Disconnected servers and old instances are cut off.** Take an end that was made, such that
each place it has among the ends of the present instances belongs to a disconnected server on one
side. Until one of these servers is connected, no call that is made on the end is executed or
answered. An end of an instance that was superseded has no such place, so it is cut off for
good. -/
theorem calls_cut_off (hs : (testbed End n).Reachable s) (hrunning : s.traffic.exited = false)
    (hrest : s.todo = []) (hmade : s.traffic.net.ends e = true)
    (hdown : ∀ i ∈ down, s.connected i = false)
    (hends : ∀ i j, endname s.endnames i j = some e → i ∈ down ∨ j ∈ down)
    (h : (testbed End n).ReachableFrom (fun _ event ↦ ∀ i ∈ down, event.connects ≠ some i) s t)
    {k : ℕ} {c : Call End ℕ} (hk : s.traffic.calls.length ≤ k)
    (hc : t.traffic.calls[k]? = some c) (hend : c.request.endname = e) :
    c.dispatch = .none ∧ ∀ reply, c.stage ≠ .returned (some reply) := by
  have hdisabled : s.traffic.net.enabled e = false := by
    apply Bool.eq_false_iff.mpr
    intro henabled
    obtain ⟨i, j, hi, hj, he⟩ := (((valid_of_reachable hs).wired hrunning hrest).live e).mp henabled
    rcases hends i j he with hmem | hmem
    · rw [hdown i hmem] at hi
      cases hi
    · rw [hdown j hmem] at hj
      cases hj
  have hall : t.Valid n ∧ t.CutOff down e ∧
      t.traffic.UnservedSince e s.traffic.calls.length := by
    apply h.invariant (I := fun u ↦ u.Valid n ∧ u.CutOff down e ∧
      u.traffic.UnservedSince e s.traffic.calls.length)
    · refine ⟨valid_of_reachable hs, ⟨hdown, hmade, hdisabled, ?_, fun _ _ _ ↦ hends⟩, ?_⟩
      · rw [hrest]
        exact List.not_mem_nil
      · intro k c hk hc
        have hlt := (List.getElem?_eq_some_iff.mp hc).1
        omega
    · rintro u event v ⟨hvalid, hcut, hunserved⟩ hevent hstep
      refine ⟨hvalid.step hstep, hcut.step hvalid hevent hstep, ?_⟩
      cases transition_of_step hstep with
      | network _ hnet | proceed _ hnet => exact hunserved.step hcut.disabled hnet
      | connect | panic | disconnect | start1 => exact hunserved
  have hunserved := hall.2.2 k c hk hc hend
  refine ⟨hunserved.dispatch, fun reply hstage ↦ ?_⟩
  have hcases := hunserved.stage
  rw [hstage] at hcases
  simp at hcases

/-- The first server is started again and connected, and its old instance makes a call. -/
theorem calls_cut_off_sample :
    ∃ t : Testbed ℕ, (testbed ℕ 2).Reachable t ∧ t.connected 0 = true ∧ t.connected 1 = true ∧
      ∃ c, t.traffic.calls[0]? = some c ∧ c.request.endname = 11 ∧ c.dispatch = .none := by
  let restart : List (TestEvent ℕ) := .start1 0 [14, 15] :: List.replicate 8 .proceed
  let more : List (TestEvent ℕ) := .connect 0 :: List.replicate 4 .proceed ++
    .network (.call ⟨11, ascii "Raft.AppendEntries", []⟩) ::
      [CallEvent.accept, .countCall, .countArgs, .read].map fun e ↦ .network (.advance 0 e)
  have hrun : ∃ s : Testbed ℕ, (testbed ℕ 2).Reachable s ∧ s.traffic.exited = false ∧
      s.todo.length = 0 ∧ s.traffic.net.ends 11 = true ∧ s.traffic.calls.length = 0 ∧
      ((List.range 2).map s.endnames) = [some [14, 15], some [12, 13]] ∧
      ((testbed ℕ 2).run s more).any (fun t ↦ t.connected 0 = true ∧ t.connected 1 = true ∧
        (t.traffic.calls.map fun c ↦ c.request.endname) = [11]) = true :=
    Machine.exists_reachable (sampleStart ++ restart) (by decide)
  obtain ⟨s, hs, hrunning, hrest, hmade, hnone, hnames, hmore⟩ := hrun
  have hrest := List.length_eq_zero_iff.mp hrest
  have hends : ∀ i j, endname s.endnames i j = some 11 → i ∈ [] ∨ j ∈ [] := by
    intro i j h
    obtain ⟨names, hi, hj⟩ := Option.bind_eq_some_iff.mp h
    have hlt := (((valid_of_reachable hs).wired hrunning hrest).sized i names hi).1
    have hmem : some names ∈ (List.range 2).map s.endnames :=
      List.mem_map.mpr ⟨i, List.mem_range.mpr hlt, hi⟩
    have heleven := List.mem_of_getElem? hj
    rw [hnames, List.mem_pair, Option.some.injEq, Option.some.injEq] at hmem
    rcases hmem with rfl | rfl
    · simp at heleven
    · simp at heleven
  obtain ⟨t, ht, hcalls⟩ := (Option.any_eq_true _ _).mp hmore
  obtain ⟨hzero, hone, hcalls⟩ := of_decide_eq_true hcalls
  have hreach : (testbed ℕ 2).ReachableFrom
      (fun _ event ↦ ∀ i ∈ [], event.connects ≠ some i) s t :=
    (Machine.ReachableFrom.of_run Machine.permits_true ht).mono
      fun _ _ _ i hi ↦ absurd hi List.not_mem_nil
  have hfirst : (t.traffic.calls.map fun c ↦ c.request.endname)[0]? = some 11 := by
    rw [hcalls]
    rfl
  rw [List.getElem?_map] at hfirst
  obtain ⟨c, hc, hend⟩ := Option.map_eq_some_iff.mp hfirst
  obtain ⟨hdispatch, -⟩ := calls_cut_off hs hrunning hrest hmade
    (fun i hi ↦ absurd hi List.not_mem_nil) hends hreach (by omega) hc hend
  exact ⟨t, Machine.ReachableFrom.trans hs (hreach.mono fun _ _ _ ↦ trivial), hzero, hone, c, hc,
    hend, hdispatch⟩

end Steps

end Testbed

end DistKvRaft.Raft
