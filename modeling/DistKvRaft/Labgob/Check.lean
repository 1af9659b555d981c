import DistKvRaft.Foundation.Refinement
import DistKvRaft.Foundation.Traversal
import DistKvRaft.Go.Utf8

/-!
# What labgob checks before it encodes and decodes

`labgob` wraps `encoding/gob`.  Before a value is encoded, decoded into or registered, `checkType`
walks through its type and complains about every field that is not capitalized, once per process:
types that were checked are remembered in a map under a lock.  Before a value is decoded into,
`checkDefault` looks three levels deep for variables that are not zero.  Calls come from many
goroutines; they share the map and the error count, and interleave at the lock.  An error about a
field is printed before the lock is taken to count it, so other goroutines may get in between.

A goroutine is modelled by what is left of its calls, as work of a traversal of the graph of types.
-/

namespace DistKvRaft.Labgob

open Go Go.Utf8 Traversal

/-! ## Types and values -/

/-- What `checkType` asks of a `reflect.Type`. -/
inductive Kind (T : Type)
  /-- with the name and the type of each field -/
  | struct (fields : List (GoString × T))
  /-- a slice, an array or a pointer -/
  | elem (elem : T)
  | map (elem key : T)
  | other

/-- The types of a program, and `unicode.IsUpper` on the bytes of a rune. -/
structure Types (T : Type) where
  kind : T → Kind T
  name : T → GoString
  isUpper : GoString → Bool

/-- A value with what `checkDefault1` asks of its `reflect.Value`. -/
inductive Value
  /-- with the name of each field, whether it is exported and whether it is embedded -/
  | struct (fields : List (GoString × Bool × Bool × Value))
  | ptr (target : Option Value)
  /-- a number, a string or a Boolean, with the name of its type -/
  | basic (typeName : GoString) (isZero : Bool)
  | other

/-- What is printed: an error about a field, or a warning about a variable. -/
inductive Complaint
  | lowerCase (field type : GoString)
  | nonDefault (what : GoString)
  deriving DecidableEq

def Complaint.isLowerCase : Complaint → Bool
  | .lowerCase _ _ => true
  | .nonDefault _ => false

/-- What a goroutine does apart from looking at types. -/
inductive Action
  /-- print that a field is not capitalized, which is done without the lock -/
  | printLowerCase (field type : GoString)
  /-- count it, under the lock -/
  | countLowerCase
  /-- report a variable that is not zero, under the lock -/
  | nonDefault (what : GoString)
  /-- `Interface` of a value in an unexported field -/
  | panic
  deriving DecidableEq

/-- The action adds to `errorCount`. -/
def Action.counts : Action → Bool
  | .countLowerCase | .nonDefault _ => true
  | .printLowerCase _ _ | .panic => false

/-- The error that the action prints. -/
def Action.lowerCase : Action → Option Complaint
  | .printLowerCase field type => some (.lowerCase field type)
  | _ => none

/-- The warning that the action prints, if it prints one. -/
def Action.warning : Action → Option Complaint
  | .nonDefault what => some (.nonDefault what)
  | _ => none

/-- `utf8.DecodeRuneInString`. -/
def firstRune (name : GoString) : GoString :=
  if runeWidth name = 0 then runeError else name.take (runeWidth name)

section Model

variable {T : Type} (types : Types T)

/-- The field is not capitalized. -/
def Types.isLowerCase (field : GoString) : Bool := types.isUpper (firstRune field) = false

/-- What `checkType` does with a field of the struct `t`. -/
def Types.fieldWork (t : T) (f : GoString × T) : List (Work T Action) :=
  if types.isLowerCase f.1 then
    [.emit (.printLowerCase f.1 (types.name t)), .emit .countLowerCase, .visit f.2]
  else [.visit f.2]

/-- What `checkType` does with a type that was not checked before. -/
def Types.expand (t : T) : List (Work T Action) :=
  match types.kind t with
  | .struct fields => fields.flatMap (types.fieldWork t)
  | .elem elem => [.visit elem]
  | .map elem key => [.visit elem, .visit key]
  | .other => []

/-- The read-only flags of a `reflect.Value`: it was got through an unexported field that is not
embedded, or from one that is. -/
structure Flag where
  stickyRO : Bool
  embedRO : Bool

def Flag.isRO (flag : Flag) : Bool := flag.stickyRO || flag.embedRO

/-- The flags of a field: `Value.Field` keeps `flagStickyRO` and drops `flagEmbedRO`. -/
def Flag.field (flag : Flag) (exported embedded : Bool) : Flag where
  stickyRO := flag.stickyRO || (!exported && !embedded)
  embedRO := !exported && embedded

/-- `checkDefault1` on a value at `depth`, with `4 - depth` levels to go.  `Value.Elem` keeps the
flags. -/
def checkDefault1 : ℕ → GoString → Flag → Value → List Action
  | 0, _, _, _ => []
  | levels + 1, name, flag, value =>
    match value with
    | .struct fields => fields.flatMap fun f ↦
        checkDefault1 levels (if name = [] then f.1 else name ++ asciiByte '.' :: f.1)
          (flag.field f.2.1 f.2.2.1) f.2.2.2
    | .ptr none => []
    | .ptr (some target) => checkDefault1 levels name flag target
    | .basic typeName isZero =>
      if flag.isRO then [.panic]
      else if isZero then []
      else [.nonDefault (if name = [] then typeName else name)]
    | .other => []

def checkDefault (value : Value) : List Action := checkDefault1 3 [] ⟨false, false⟩ value

end Model

/-- The package's variables, with the goroutines that are checking.  `printed` is what was printed
so far; `exited` is set by a panic. -/
structure Lab (T : Type) where
  search : State T Action
  errorCount : ℕ
  printed : List Complaint
  exited : Bool

inductive LabEvent (T : Type)
  /-- a call of `Encode`, `EncodeValue`, `Register` or `RegisterName` -/
  | checkValue (t : T)
  /-- a call of `Decode` -/
  | decode (t : T) (value : Value)
  /-- goroutine `k` prints, or goes through its next lock section -/
  | proceed (k : ℕ)

/-- What the event is to the traversal of types: a call starts a goroutine with the work it has to
do. -/
def LabEvent.search {T : Type} : LabEvent T → Event T Action
  | .checkValue t => .start [.visit t]
  | .decode t value => .start (.visit t :: (checkDefault value).map .emit)
  | .proceed k => .work k

namespace Lab

section Model

variable {T : Type} [DecidableEq T] (types : Types T)

/-- One action of a goroutine. -/
def act (s : Lab T) : Action → Lab T
  | .printLowerCase field type => { s with printed := s.printed ++ [.lowerCase field type] }
  | .countLowerCase => { s with errorCount := s.errorCount + 1 }
  | .nonDefault what =>
    { s with
      errorCount := s.errorCount + 1
      printed := if s.errorCount < 1 then s.printed ++ [.nonDefault what] else s.printed }
  | .panic => { s with exited := true }

def step (s : Lab T) (event : LabEvent T) : Option (Lab T) :=
  if s.exited then none
  else (s.search.step types.expand event.search).map fun search ↦
    match event with
    | .proceed k =>
      match s.search.workers[k]? with
      | some (.emit action :: _) => { s with search }.act action
      | _ => { s with search }
    | _ => { s with search }

end Model

end Lab

/-- The machine of a process that uses `labgob`. -/
def lab {T : Type} [DecidableEq T] (types : Types T) : Machine (Lab T) (LabEvent T) :=
  ⟨⟨⟨[], [], [], []⟩, 0, [], false⟩, Lab.step types⟩

/-! ## The types that occur in a type -/

section Occurs

variable {T : Type} (types : Types T)

/-- The types that a type is directly made of. -/
def Types.parts (t : T) : List T :=
  match types.kind t with
  | .struct fields => fields.map Prod.snd
  | .elem elem => [elem]
  | .map elem key => [elem, key]
  | .other => []

/-- The fields of a type that are not capitalized. -/
def Types.lowerCaseFields (t : T) : List Complaint :=
  match types.kind t with
  | .struct fields =>
    (fields.filter fun f ↦ types.isLowerCase f.1).map fun f ↦ .lowerCase f.1 (types.name t)
  | _ => []

/-- The type is one of `roots` or a part of a part … of one. -/
inductive Types.Occurs (roots : List T) : T → Prop
  | root {t : T} (h : t ∈ roots) : Occurs roots t
  | part {t u : T} (ht : Occurs roots t) (h : u ∈ types.parts t) : Occurs roots u

theorem Types.visit_mem_fieldWork {t u : T} {f : GoString × T} :
    .visit u ∈ types.fieldWork t f ↔ u = f.2 := by
  unfold fieldWork
  split_ifs
  · simp
  · simp

theorem Types.visit_mem_expand {t u : T} : .visit u ∈ types.expand t ↔ u ∈ types.parts t := by
  unfold expand parts
  split
  · next fields _ =>
    simp only [List.mem_flatMap, types.visit_mem_fieldWork, List.mem_map, eq_comm]
  · simp
  · simp
  · simp

/-- What `checkType` does about the fields of a type that are not capitalized. -/
def Types.fieldActions (t : T) : List Action := (types.expand t).filterMap Work.output

/-- Each of them is printed … -/
theorem Types.filterMap_fieldActions (t : T) :
    (types.fieldActions t).filterMap Action.lowerCase = types.lowerCaseFields t := by
  unfold fieldActions expand lowerCaseFields
  cases types.kind t with
  | struct fields =>
    dsimp only
    induction fields with
    | nil => rfl
    | cons f fields ih =>
      rw [List.flatMap_cons, List.filterMap_append, List.filterMap_append, ih]
      by_cases hlower : types.isLowerCase f.1 = true
      · simp [fieldWork, hlower, Action.lowerCase]
      · simp [fieldWork, hlower]
  | elem | map | other => rfl

/-- … and counted. -/
theorem Types.countP_fieldActions (t : T) :
    (types.fieldActions t).countP Action.counts = (types.lowerCaseFields t).length := by
  unfold fieldActions expand lowerCaseFields
  cases types.kind t with
  | struct fields =>
    dsimp only
    induction fields with
    | nil => rfl
    | cons f fields ih =>
      rw [List.flatMap_cons, List.filterMap_append, List.countP_append, ih]
      by_cases hlower : types.isLowerCase f.1 = true
      · have hfield : (types.fieldWork t f).filterMap Work.output =
            [.printLowerCase f.1 (types.name t), .countLowerCase] := by
          rw [fieldWork, if_pos hlower]
          rfl
        rw [hfield, List.filter_cons, if_pos hlower, List.map_cons, List.length_cons, Nat.add_comm]
        rfl
      · simp [fieldWork, hlower]
  | elem | map | other => rfl

theorem Types.reach_iff {started : List (Work T Action)} {roots : List T}
    (hroots : ∀ t, .visit t ∈ started ↔ t ∈ roots) (t : T) :
    Reach types.expand started t ↔ types.Occurs roots t := by
  constructor
  · intro h
    induction h with
    | root h => exact .root ((hroots _).mp h)
    | child _ h ih => exact .part ih (types.visit_mem_expand.mp h)
  · intro h
    induction h with
    | root h => exact .root ((hroots _).mpr h)
    | part _ h ih => exact .child ih (types.visit_mem_expand.mpr h)

end Occurs

/-- `checkDefault` reports variables that are not zero, or panics. -/
theorem mem_checkDefault1 {levels : ℕ} {name : GoString} {flag : Flag} {value : Value}
    {action : Action} (h : action ∈ checkDefault1 levels name flag value) :
    action.lowerCase = none ∧ action.counts = action.warning.isSome := by
  induction levels generalizing name flag value with
  | zero => cases h
  | succ levels ih =>
    cases value with
    | struct fields =>
      obtain ⟨f, -, hf⟩ := List.mem_flatMap.mp h
      exact ih hf
    | ptr target =>
      cases target with
      | none => cases h
      | some target => exact ih h
    | basic typeName isZero =>
      simp only [checkDefault1] at h
      by_cases hreadOnly : flag.isRO = true
      · rw [if_pos hreadOnly] at h
        rw [List.mem_singleton.mp h]
        exact ⟨rfl, rfl⟩
      · by_cases hzero : isZero = true
        · rw [if_neg hreadOnly, if_pos hzero] at h
          cases h
        · rw [if_neg hreadOnly, if_neg hzero] at h
          rw [List.mem_singleton.mp h]
          exact ⟨rfl, rfl⟩
    | other => cases h

/-! ## What is printed and counted -/

namespace Lab

section Reports

variable {T : Type} {types : Types T} {s t : Lab T}

/-- All actions so far, in order. -/
def actions (s : Lab T) : List Action := s.search.done.filterMap Work.output

/-- The errors in the order they were counted. -/
def errors (s : Lab T) : List Action := s.actions.filter Action.counts

/-- The types that calls were made for. -/
def roots (s : Lab T) : List T := s.search.started.filterMap fun w ↦
  match w with
  | .visit t => some t
  | .emit _ => none

/-- What `checkDefault` does in the calls that were made. -/
def defaultActions (s : Lab T) : List Action := s.search.started.filterMap Work.output

/-- The non-default variables that `Decode` was called with. -/
def defaults (s : Lab T) : List Complaint := s.defaultActions.filterMap Action.warning

/-- The counter and the output say what was done. -/
structure Tells (errorCount : ℕ) (printed : List Complaint) (actions : List Action) : Prop where
  count : errorCount = (actions.filter Action.counts).length
  lowerCase : printed.filter Complaint.isLowerCase = actions.filterMap Action.lowerCase
  warnings : printed.filter (fun c ↦ !c.isLowerCase) =
    ((actions.filter Action.counts).take 1).filterMap Action.warning

/-- Only the first error can be a warning that is printed. -/
theorem take_one_concat (errors : List Action) (action : Action) :
    ((errors ++ [action]).take 1).filterMap Action.warning =
      if errors.length < 1 then (errors.take 1).filterMap Action.warning ++ action.warning.toList
      else (errors.take 1).filterMap Action.warning := by
  cases errors with
  | nil => cases action <;> rfl
  | cons error rest => simp

section Tells

variable {errorCount : ℕ} {printed : List Complaint} {actions : List Action}

theorem Tells.printLowerCase (h : Tells errorCount printed actions) (field type : GoString) :
    Tells errorCount (printed ++ [.lowerCase field type])
      (actions ++ [.printLowerCase field type]) := by
  have hsame : (actions ++ [Action.printLowerCase field type]).filter Action.counts =
      actions.filter Action.counts := by
    rw [List.filter_append]
    exact List.append_nil _
  refine ⟨by rw [hsame, h.count], ?_, ?_⟩
  · rw [List.filter_append, List.filterMap_append, h.lowerCase]
    rfl
  · rw [hsame, ← h.warnings, List.filter_append]
    exact List.append_nil _

theorem Tells.countLowerCase (h : Tells errorCount printed actions) :
    Tells (errorCount + 1) printed (actions ++ [.countLowerCase]) := by
  have hmore : (actions ++ [Action.countLowerCase]).filter Action.counts =
      actions.filter Action.counts ++ [.countLowerCase] := List.filter_append ..
  refine ⟨by rw [hmore, List.length_append, h.count]; rfl, ?_, ?_⟩
  · rw [List.filterMap_append, h.lowerCase]
    exact (List.append_nil _).symm
  · rw [hmore, take_one_concat, h.warnings]
    simp [Action.warning]

theorem Tells.nonDefault (h : Tells errorCount printed actions) (what : GoString) :
    Tells (errorCount + 1) (if errorCount < 1 then printed ++ [.nonDefault what] else printed)
      (actions ++ [.nonDefault what]) := by
  have hmore : (actions ++ [Action.nonDefault what]).filter Action.counts =
      actions.filter Action.counts ++ [.nonDefault what] := List.filter_append ..
  refine ⟨by rw [hmore, List.length_append, h.count]; rfl, ?_, ?_⟩
  · rw [List.filterMap_append, ← h.lowerCase]
    split_ifs
    · exact List.filter_append ..
    · exact (List.append_nil _).symm
  · rw [hmore, take_one_concat, ← h.count, ← h.warnings]
    split_ifs
    · exact List.filter_append ..
    · rfl

end Tells

/-- The variables of the package tell what was done, as long as the process runs. -/
structure Reported (s : Lab T) : Prop where
  tells : Tells s.errorCount s.printed s.actions
  defaults : ∀ action ∈ s.defaultActions,
    action.lowerCase = none ∧ action.counts = action.warning.isSome

theorem search_act (s : Lab T) (action : Action) : (s.act action).search = s.search := by
  cases action <;> rfl

/-- An action is taken. -/
theorem Reported.act (hs : s.Reported) {search : State T Action} {action : Action}
    (hdone : search.done.filterMap Work.output = s.actions ++ [action])
    (hstarted : search.started = s.search.started)
    (hrunning : ({ s with search }.act action).exited = false) :
    ({ s with search }.act action).Reported := by
  have hactions : ({ s with search }.act action).actions = s.actions ++ [action] := by
    rw [actions, search_act]
    exact hdone
  have hdefaults : ({ s with search }.act action).defaultActions = s.defaultActions := by
    rw [defaultActions, search_act]
    exact congrArg _ hstarted
  refine ⟨?_, hdefaults ▸ hs.defaults⟩
  rw [hactions]
  cases action with
  | printLowerCase field type => exact hs.tells.printLowerCase field type
  | countLowerCase => exact hs.tells.countLowerCase
  | nonDefault what => exact hs.tells.nonDefault what
  | panic => cases hrunning

variable [DecidableEq T]

/-- The steps of the machine: a call, a type that is looked at, and an action. -/
inductive Transition (types : Types T) (s : Lab T) : LabEvent T → Lab T → Prop
  | call {event : LabEvent T} {work : List (Work T Action)} {search : State T Action}
      (hevent : event.search = .start work)
      (hwork : ∀ action ∈ work.filterMap Work.output,
        action.lowerCase = none ∧ action.counts = action.warning.isSome)
      (h : s.search.step types.expand (.start work) = some search) :
      Transition types s event { s with search }
  | look {k : ℕ} {a : T} {search : State T Action}
      (h : s.search.step types.expand (.work k) = some search)
      (hdone : search.done = s.search.done ++ [.visit a])
      (hstarted : search.started = s.search.started) :
      Transition types s (.proceed k) { s with search }
  | act {k : ℕ} {action : Action} {search : State T Action}
      (h : s.search.step types.expand (.work k) = some search)
      (hdone : search.done = s.search.done ++ [.emit action])
      (hstarted : search.started = s.search.started) :
      Transition types s (.proceed k) ({ s with search }.act action)

theorem transition_of_step {event : LabEvent T} (h : s.step types event = some t) :
    s.exited = false ∧ Transition types s event t := by
  unfold step at h
  rw [Option.ite_none_left_eq_some] at h
  obtain ⟨hrunning, h⟩ := h
  obtain ⟨search, hsearch, ht⟩ := Option.map_eq_some_iff.mp h
  refine ⟨Bool.eq_false_iff.mpr hrunning, ?_⟩
  cases event with
  | checkValue root =>
    cases ht
    exact .call rfl (fun c hc ↦ by cases hc) hsearch
  | decode root value =>
    cases ht
    refine .call rfl (fun action haction ↦ ?_) hsearch
    simp only [List.filterMap_cons, Work.output_visit, List.filterMap_map, Function.comp_def,
      Work.output_emit, List.filterMap_some] at haction
    exact mem_checkDefault1 haction
  | proceed k =>
    cases worked_of_work hsearch with
    | skip hk | mark hk =>
      simp only [hk] at ht
      cases ht
      exact .look hsearch rfl rfl
    | emit hk =>
      simp only [hk] at ht
      cases ht
      exact .act hsearch rfl rfl

/-- The checks of types are a traversal of the graph of types. -/
def refinement (types : Types T) : Refinement (lab types) (traversal types.expand) where
  abs := Lab.search
  label _ event := [event.search]
  inv _ := True
  abs_init := rfl
  inv_init := trivial
  inv_step := fun _ _ _ _ _ ↦ trivial
  abs_step := by
    intro s e t _ hstep
    rw [Machine.run_cons]
    apply Option.bind_eq_some_iff.mpr
    cases (transition_of_step hstep).2 with
    | call hevent _ h => exact ⟨_, hevent ▸ h, rfl⟩
    | look h => exact ⟨_, h, rfl⟩
    | act h => exact ⟨_, h, by rw [search_act]; rfl⟩

theorem reported_of_reachable (h : (lab types).Reachable s) :
    s.exited = false → s.Reported := by
  apply h.invariant (I := fun s ↦ s.exited = false → s.Reported)
  · intro _
    exact ⟨⟨rfl, rfl, rfl⟩, fun _ ha ↦ absurd ha List.not_mem_nil⟩
  · intro s e t hs hstep ht
    obtain ⟨hrunning, htransition⟩ := transition_of_step hstep
    have hreported := hs hrunning
    cases htransition with
    | call _ hwork h =>
      cases h
      refine ⟨hreported.tells, fun action ha ↦ ?_⟩
      simp only [defaultActions, List.filterMap_append] at ha
      rcases List.mem_append.mp ha with ha | ha
      · exact hreported.defaults action ha
      · exact hwork action ha
    | @look _ _ search h hdone hstarted =>
      have hactions : actions { s with search } = s.actions := by
        simp [actions, hdone]
      refine ⟨hactions ▸ hreported.tells, ?_⟩
      · simp only [defaultActions, hstarted]
        exact hreported.defaults
    | act h hdone hstarted =>
      apply hreported.act _ hstarted ht
      simp [actions, hdone]

/-- **Every type is checked once.** When no goroutine is checking, the types that occur in those the
package was called with have been checked, and no others.  Every field of theirs that is not
capitalized was printed exactly once.  A non-default variable was printed exactly if it was the
first error that was counted, whatever was printed before.  The error count has all of them. -/
theorem checks_complete (h : (lab types).Reachable s) (hrunning : s.exited = false)
    (hquiet : s.search.pending = []) :
    (∀ t, t ∈ s.search.seen ↔ types.Occurs s.roots t) ∧ s.search.seen.Nodup ∧
    (s.printed.filter Complaint.isLowerCase).Perm (s.search.seen.flatMap types.lowerCaseFields) ∧
    s.printed.filter (fun c ↦ !c.isLowerCase) = (s.errors.take 1).filterMap Action.warning ∧
    s.errorCount = (s.search.seen.flatMap types.lowerCaseFields).length + s.defaults.length := by
  have hbalanced : s.search.Balanced types.expand :=
    balanced_of_reachable ((refinement types).reachable h)
  have hreported := reported_of_reachable h hrunning
  have hperm : s.actions.Perm (s.defaultActions ++ s.search.seen.flatMap types.fieldActions) :=
    hbalanced.outputs_perm hquiet
  have hroots : ∀ t, .visit t ∈ s.search.started ↔ t ∈ s.roots := by
    intro t
    simp only [roots, List.mem_filterMap]
    constructor
    · exact fun h ↦ ⟨_, h, rfl⟩
    · rintro ⟨w, hw, heq⟩
      cases w with
      | visit u =>
        cases heq
        exact hw
      | emit c => cases heq
  refine ⟨fun t ↦ ?_, hbalanced.nodup, ?_, hreported.tells.warnings, ?_⟩
  · exact (hbalanced.mem_seen_iff hquiet t).trans (types.reach_iff hroots t)
  · have hdefaults : s.defaultActions.filterMap Action.lowerCase = [] :=
      List.filterMap_eq_nil_iff.mpr fun action ha ↦ (hreported.defaults action ha).1
    have hprinted := hperm.filterMap Action.lowerCase
    rw [List.filterMap_append, hdefaults, List.nil_append, List.filterMap_flatMap] at hprinted
    simpa only [hreported.tells.lowerCase, types.filterMap_fieldActions] using hprinted
  · have hdefaults : s.defaultActions.countP Action.counts = s.defaults.length := by
      rw [defaults, List.length_filterMap_eq_countP]
      exact List.countP_congr fun action ha ↦ by rw [(hreported.defaults action ha).2]
    rw [hreported.tells.count, ← List.countP_eq_length_filter, hperm.countP_eq,
      List.countP_append, hdefaults, List.countP_flatMap, List.length_flatMap, Nat.add_comm]
    simp only [Function.comp_def, types.countP_fieldActions]

/-- A goroutine with work left can go on. -/
theorem exists_proceed (types : Types T) (hrunning : s.exited = false)
    (hpending : s.search.pending ≠ []) : ∃ k, (s.step types (.proceed k)).isSome = true := by
  obtain ⟨w, hw⟩ := List.exists_mem_of_ne_nil _ hpending
  obtain ⟨stack, hstack, hmem⟩ := List.mem_flatten.mp hw
  obtain ⟨k, hk⟩ := List.mem_iff_getElem?.mp hstack
  obtain ⟨w', rest, rfl⟩ := List.exists_cons_of_ne_nil (List.ne_nil_of_mem hmem)
  obtain ⟨search, hsearch⟩ := exists_worked types.expand hk
  refine ⟨k, ?_⟩
  simp only [step, hrunning, LabEvent.search, State.step, hsearch, Option.map_some]
  rfl

/-- **Checks end.** However the goroutines interleave, and although types may contain themselves,
the checks of finitely many types take a bounded number of steps, and they only stop when there is
nothing left to check or the process has ended. -/
theorem checks_end [Fintype T] (types : Types T) {width : ℕ}
    (hwidth : ∀ t, (types.expand t).length ≤ width) (h : (lab types).Reachable s) {ks : List ℕ}
    (hrun : (lab types).run s (ks.map .proceed) = some t) :
    ks.length ≤ s.search.remaining width ∧
      (t.exited = true ∨ t.search.pending = [] ∨
        ∃ k, (t.step types (.proceed k)).isSome = true) := by
  have hbalanced : s.search.Balanced types.expand :=
    balanced_of_reachable ((refinement types).reachable h)
  have hstep : ∀ (s : Lab T) e t, s.search.Balanced types.expand → (∃ k, e = .proceed k) →
      (lab types).step s e = some t →
        t.search.Balanced types.expand ∧ t.search.remaining width < s.search.remaining width := by
    rintro s e t hs ⟨k, rfl⟩ hstep
    have hproceed : s.step types (.proceed k) = some t := hstep
    have htransition := (transition_of_step hproceed).2
    obtain ⟨search, hsearch, ht⟩ : ∃ search,
        s.search.step types.expand (.work k) = some search ∧ t.search = search := by
      cases htransition with
      | look h => exact ⟨_, h, rfl⟩
      | act h => exact ⟨_, h, search_act _ _⟩
      | call hevent => cases hevent
    have hworked := worked_of_work hsearch
    rw [ht]
    exact ⟨hs.work hworked, remaining_lt hwidth hs hworked⟩
  obtain ⟨-, hle⟩ := Machine.length_add_le_of_run hstep hbalanced (by simp) hrun
  rw [List.length_map] at hle
  refine ⟨by omega, ?_⟩
  by_cases hexited : t.exited = true
  · exact Or.inl hexited
  · by_cases hpending : t.search.pending = []
    · exact Or.inr (Or.inl hpending)
    · exact Or.inr (Or.inr (exists_proceed types (Bool.eq_false_iff.mpr hexited) hpending))

end Reports

/-- A list node: a struct with a lower-case field for the next node, and the type of pointers to
it. -/
def sampleTypes : Types (Fin 2) where
  kind t := if t = 0 then .struct [(ascii "next", 1), (ascii "Value", 1)] else .elem 0
  name t := if t = 0 then ascii "Node" else []
  isUpper rune := rune = ascii "V"

/-- Two goroutines check the node at the same time, and a third one decodes into a variable. -/
theorem checks_complete_sample :
    ∃ s : Lab (Fin 2), (lab sampleTypes).Reachable s ∧ s.roots = [0, 1, 1] ∧
      (∀ t, t ∈ s.search.seen ↔ sampleTypes.Occurs s.roots t) ∧ s.errorCount = 2 := by
  have hrun : ∃ s : Lab (Fin 2), (lab sampleTypes).Reachable s ∧ s.exited = false ∧
      s.search.pending = [] ∧ s.roots = [0, 1, 1] ∧
      (s.search.seen.flatMap sampleTypes.lowerCaseFields).length + s.defaults.length = 2 :=
    Machine.exists_reachable
      ([.checkValue 0, .checkValue 1, .proceed 1, .proceed 0,
        .decode 1 (.ptr (some
          (.struct [(ascii "Value", true, false, .basic (ascii "int") false)])))] ++
        ([1, 0, 2, 0, 2, 0, 0].map .proceed)) (by decide)
  obtain ⟨s, hs, hrunning, hquiet, hroots, hcount⟩ := hrun
  obtain ⟨hseen, -, -, -, herrors⟩ := checks_complete hs hrunning hquiet
  exact ⟨s, hs, hroots, hseen, herrors.trans hcount⟩

/-- The warning comes after an error that was printed and not yet counted. -/
example : ∃ s : Lab (Fin 2), (lab sampleTypes).Reachable s ∧
    s.printed = [.lowerCase (ascii "next") (ascii "Node"), .nonDefault (ascii "int")] :=
  Machine.exists_reachable
    [.checkValue 0, .proceed 0, .proceed 0, .decode 0 (.basic (ascii "int") false), .proceed 1,
      .proceed 1] (by decide)

theorem checks_end_sample :
    ∃ s t : Lab (Fin 2), (lab sampleTypes).run s ([0, 0, 0, 0].map .proceed) = some t ∧
      4 ≤ s.search.remaining 4 := by
  have hrun : ∃ s : Lab (Fin 2), (lab sampleTypes).Reachable s ∧
      ((lab sampleTypes).run s ([0, 0, 0, 0].map .proceed)).isSome = true :=
    Machine.exists_reachable [.checkValue 1] (by decide)
  obtain ⟨s, hs, hsome⟩ := hrun
  obtain ⟨t, ht⟩ := Option.isSome_iff_exists.mp hsome
  have hwidth : ∀ t, (sampleTypes.expand t).length ≤ 4 := by decide
  exact ⟨s, t, ht, (checks_end sampleTypes hwidth hs ht).1⟩

end Lab

end DistKvRaft.Labgob
