import DistKvRaft.Foundation.Lists
import Mathlib.Data.List.Sigma

/-!
# The tester's search for a leader

`checkOneLeader` asks the connected servers whether they lead and collects the answers by term.  It
goes through the terms in the order of a Go map, which is any order.  The order does not matter: a
pass finds a leader exactly when no term has two of them and some term has one, and it is the leader
of the last term.
-/

namespace DistKvRaft.Raft

/-- What a pass reads of a server: whether it is connected, and the term and the answer that
`GetState` gives. -/
structure Status where
  connected : Bool
  term : ℤ
  leader : Bool
  deriving DecidableEq

/-- `leaders[term] = append(leaders[term], i)` if server `i` is connected and leads. -/
def collectServer (leaders : ℤ → List ℕ) (s : Status × ℕ) : ℤ → List ℕ :=
  if s.1.connected ∧ s.1.leader then
    Function.update leaders s.1.term (leaders s.1.term ++ [s.2])
  else leaders

def collect (servers : List Status) : ℤ → List ℕ :=
  servers.zipIdx.foldl collectServer fun _ ↦ []

/-- One round of `checkOneLeader`; `visit` is the order in which the terms with leaders come. -/
structure Pass where
  servers : List Status
  visit : List ℤ
  mem_visit : ∀ term, term ∈ visit ↔ collect servers term ≠ []

/-- How a round ends; `panic` is an access to `leaders[lastTermWithLeader][0]` that does not
exist. -/
inductive PassResult
  | leader (i : ℕ)
  | none
  | tooMany (term : ℤ) (count : ℕ)
  | panic
  deriving DecidableEq

/-- The loop over the terms, with `lastTermWithLeader`. -/
def lastLeader (leaders : ℤ → List ℕ) : List ℤ → ℤ → PassResult
  | [], last => ((leaders last)[0]?).elim .panic .leader
  | term :: rest, last =>
    if (leaders term).length > 1 then .tooMany term (leaders term).length
    else lastLeader leaders rest (if term > last then term else last)

def Pass.result (p : Pass) : PassResult :=
  if p.visit = [] then .none else lastLeader (collect p.servers) p.visit (-1)

/-- How `checkOneLeader` ends. -/
inductive LeaderResult
  | returned (i : ℕ)
  | tooMany (term : ℤ) (count : ℕ)
  | noLeader
  | panic
  deriving DecidableEq

def checkOneLeaderFrom : List Pass → LeaderResult
  | [] => .noLeader
  | p :: rest =>
    match p.result with
    | .leader i => .returned i
    | .tooMany term count => .tooMany term count
    | .panic => .panic
    | .none => checkOneLeaderFrom rest

/-- The ten rounds of `checkOneLeader`. -/
def checkOneLeader (passes : Fin 10 → Pass) : LeaderResult := checkOneLeaderFrom (List.ofFn passes)

/-! ## A pass -/

/-- A connected server leads. -/
def Claims (servers : List Status) (i : ℕ) (term : ℤ) : Prop :=
  servers[i]? = some ⟨true, term, true⟩

theorem collect_eq (servers : List Status) (term : ℤ) :
    collect servers term =
      (servers.zipIdx.filter fun s ↦ s.1 = ⟨true, term, true⟩).map Prod.snd := by
  have hloop : ∀ (ss : List (Status × ℕ)) (leaders : ℤ → List ℕ),
      ss.foldl collectServer leaders term =
        leaders term ++ (ss.filter fun s ↦ s.1 = ⟨true, term, true⟩).map Prod.snd := by
    intro ss
    induction ss with
    | nil => simp
    | cons s ss ih =>
      intro leaders
      rw [List.foldl_cons, ih]
      obtain ⟨⟨connected, t, leader⟩, i⟩ := s
      by_cases hclaims : connected = true ∧ leader = true
      · obtain ⟨rfl, rfl⟩ := hclaims
        by_cases hterm : t = term
        · simp [collectServer, hterm]
        · simp [collectServer, hterm, Ne.symm hterm]
      · have hnot : ¬ (⟨connected, t, leader⟩ : Status) = ⟨true, term, true⟩ := by
          rintro ⟨⟩
          exact hclaims ⟨rfl, rfl⟩
        simp [collectServer, hclaims, hnot]
  exact hloop servers.zipIdx fun _ ↦ []

theorem mem_collect {servers : List Status} {term : ℤ} {i : ℕ} :
    i ∈ collect servers term ↔ Claims servers i term := by
  rw [collect_eq]
  simp [Claims, List.mem_zipIdx_iff_getElem?]

theorem collect_ne_nil_iff {servers : List Status} {term : ℤ} :
    collect servers term ≠ [] ↔ ∃ i, Claims servers i term := by
  simp only [← mem_collect]
  constructor
  · exact List.exists_mem_of_ne_nil _
  · rintro ⟨i, hi⟩
    exact List.ne_nil_of_mem hi

theorem nodup_collect (servers : List Status) (term : ℤ) : (collect servers term).Nodup := by
  rw [collect_eq]
  exact (List.nodup_zipIdx_map_snd servers).sublist (List.filter_sublist.map Prod.snd)

/-- At most one connected server leads in a term. -/
def Unrivalled (servers : List Status) (term : ℤ) : Prop :=
  ∀ i j, Claims servers i term → Claims servers j term → i = j

theorem length_collect_le_one_iff {servers : List Status} {term : ℤ} :
    (collect servers term).length ≤ 1 ↔ Unrivalled servers term := by
  have hnodup := nodup_collect servers term
  simp only [Unrivalled, ← mem_collect]
  match collect servers term, hnodup with
  | [], _ => simp
  | [i], _ => simp
  | i :: j :: _, hnodup =>
    have hne : i ≠ j := by
      rintro rfl
      simp at hnodup
    constructor
    · intro h
      simp at h
    · intro h
      exact absurd (h i j (by simp) (by simp)) hne

/-- The loop over the terms finds one with two leaders, or the last one. -/
theorem lastLeader_cases (leaders : ℤ → List ℕ) (visit : List ℤ) (last : ℤ) :
    (∃ term ∈ visit, 1 < (leaders term).length ∧
        lastLeader leaders visit last = .tooMany term (leaders term).length) ∨
      (∀ term ∈ visit, (leaders term).length ≤ 1) ∧
        ∃ top ∈ last :: visit, (∀ term ∈ last :: visit, term ≤ top) ∧
          lastLeader leaders visit last = ((leaders top)[0]?).elim .panic .leader := by
  induction visit generalizing last with
  | nil => exact Or.inr ⟨by simp, last, by simp, by simp, rfl⟩
  | cons term visit ih =>
    by_cases hmany : (leaders term).length > 1
    · exact Or.inl ⟨term, List.mem_cons_self .., hmany, if_pos hmany⟩
    · rw [lastLeader, if_neg hmany]
      have hnext : ∃ next, (if term > last then term else last) = next ∧
          (next = last ∨ next = term) ∧ last ≤ next ∧ term ≤ next := by
        split_ifs with hgt
        · exact ⟨term, rfl, Or.inr rfl, hgt.le, le_refl term⟩
        · exact ⟨last, rfl, Or.inl rfl, le_refl last, not_lt.mp hgt⟩
      obtain ⟨next, hif, hnext, hlast, hterm⟩ := hnext
      rw [hif]
      rcases ih next with ⟨t, ht, hlong, heq⟩ | ⟨hall, top, htop, hle, heq⟩
      · exact Or.inl ⟨t, List.mem_cons_of_mem _ ht, hlong, heq⟩
      · rw [List.forall_mem_cons] at hle
        refine Or.inr ⟨List.forall_mem_cons.mpr ⟨Nat.le_of_not_lt hmany, hall⟩, top, ?_, ?_, heq⟩
        · rcases List.mem_cons.mp htop with rfl | htop
          · rcases hnext with rfl | rfl <;> simp
          · simp [htop]
        · simp only [List.forall_mem_cons]
          exact ⟨hlast.trans hle.1, hterm.trans hle.1, hle.2⟩

/-- No term has two leaders, and the server leads in the last term with a leader. -/
structure Elected (servers : List Status) (i : ℕ) : Prop where
  unrivalled : ∀ term, Unrivalled servers term
  leads : ∃ term, Claims servers i term ∧ ∀ j t, Claims servers j t → t ≤ term

/-- No connected server leads. -/
def Leaderless (servers : List Status) : Prop := ∀ i term, ¬ Claims servers i term

namespace Pass

variable {p : Pass} {i : ℕ}

theorem mem_visit_iff {term : ℤ} : term ∈ p.visit ↔ ∃ i, Claims p.servers i term :=
  (p.mem_visit term).trans collect_ne_nil_iff

theorem result_of_leaderless (h : Leaderless p.servers) : p.result = .none := by
  have hvisit : p.visit = [] := by
    apply List.eq_nil_iff_forall_not_mem.mpr
    intro term hterm
    obtain ⟨i, hi⟩ := mem_visit_iff.mp hterm
    exact h i term hi
  exact if_pos hvisit

/-- Where there are leaders, none of them in a negative term, the pass finds the elected one, if
there is one, and two of the same term otherwise. -/
theorem result_of_claims (hterms : ∀ i term, Claims p.servers i term → 0 ≤ term)
    (h : ¬ Leaderless p.servers) :
    (∃ term, ¬ Unrivalled p.servers term ∧
        p.result = .tooMany term (collect p.servers term).length) ∨
      ∃ i, Elected p.servers i ∧ p.result = .leader i := by
  obtain ⟨i₀, t₀, h₀⟩ : ∃ i t, Claims p.servers i t := by
    simpa [Leaderless] using h
  have hvisit : t₀ ∈ p.visit := mem_visit_iff.mpr ⟨i₀, h₀⟩
  rw [result, if_neg (List.ne_nil_of_mem hvisit)]
  rcases lastLeader_cases (collect p.servers) p.visit (-1) with
    ⟨term, -, hlong, heq⟩ | ⟨hall, top, htop, hle, heq⟩
  · refine Or.inl ⟨term, ?_, heq⟩
    rw [← length_collect_le_one_iff]
    omega
  · have hle' : ∀ j t, Claims p.servers j t → t ≤ top := fun j t hj ↦
      hle t (List.mem_cons_of_mem _ (mem_visit_iff.mpr ⟨j, hj⟩))
    -- the term before the first one is below all terms with leaders
    have htop' : top ∈ p.visit := by
      rcases List.mem_cons.mp htop with rfl | htop
      · have hlow := hle' i₀ t₀ h₀
        have hhigh := hterms i₀ t₀ h₀
        omega
      · exact htop
    obtain ⟨i, rest, hcons⟩ := List.exists_cons_of_ne_nil ((p.mem_visit top).mp htop')
    refine Or.inr ⟨i, ⟨fun term ↦ ?_, top, ?_, hle'⟩, ?_⟩
    · by_cases hterm : term ∈ p.visit
      · exact length_collect_le_one_iff.mp (hall term hterm)
      · intro j k hj _
        exact absurd (mem_visit_iff.mpr ⟨j, hj⟩) hterm
    · rw [← mem_collect, hcons]
      exact List.mem_cons_self ..
    · rw [heq, hcons]
      rfl

end Pass

theorem Elected.unique {servers : List Status} {i j : ℕ} (hi : Elected servers i)
    (hj : Elected servers j) : i = j := by
  obtain ⟨t, hclaim, hlast⟩ := hi.leads
  obtain ⟨t', hclaim', hlast'⟩ := hj.leads
  obtain rfl := le_antisymm (hlast' i t hclaim) (hlast j t' hclaim')
  exact hi.unrivalled t i j hclaim hclaim'

/-! ## All passes -/

theorem Elected.not_leaderless {servers : List Status} {i : ℕ} (h : Elected servers i) :
    ¬ Leaderless servers := by
  obtain ⟨term, hclaim, -⟩ := h.leads
  exact fun hnone ↦ hnone i term hclaim

/-- The first pass in which some server leads elects the server. -/
def FirstElects (passes : List Pass) (i : ℕ) : Prop :=
  ∃ (k : ℕ) (p : Pass), passes[k]? = some p ∧ Elected p.servers i ∧
    ∀ (j : ℕ) (q : Pass), j < k → passes[j]? = some q → Leaderless q.servers

section Passes

variable {p : Pass} {passes : List Pass} {i : ℕ}

theorem firstElects_cons_of_leaderless (h : Leaderless p.servers) :
    FirstElects (p :: passes) i ↔ FirstElects passes i := by
  constructor
  · rintro ⟨k, q, hk, helected, hbefore⟩
    cases k with
    | zero =>
      cases hk
      exact absurd h helected.not_leaderless
    | succ k =>
      exact ⟨k, q, hk, helected, fun j r hj ↦ hbefore (j + 1) r (Nat.succ_lt_succ hj)⟩
  · rintro ⟨k, q, hk, helected, hbefore⟩
    refine ⟨k + 1, q, hk, helected, fun j r hj hr ↦ ?_⟩
    cases j with
    | zero =>
      cases hr
      exact h
    | succ j => exact hbefore j r (Nat.lt_of_succ_lt_succ hj) hr

theorem firstElects_cons_of_not_leaderless (h : ¬ Leaderless p.servers) :
    FirstElects (p :: passes) i ↔ Elected p.servers i := by
  constructor
  · rintro ⟨k, q, hk, helected, hbefore⟩
    cases k with
    | zero =>
      cases hk
      exact helected
    | succ k => exact absurd (hbefore 0 p (Nat.zero_lt_succ k) rfl) h
  · intro helected
    exact ⟨0, p, rfl, helected, fun j _ hj ↦ absurd hj (Nat.not_lt_zero j)⟩

theorem checkOneLeaderFrom_eq_returned_iff
    (hterms : ∀ p ∈ passes, ∀ j term, Claims p.servers j term → 0 ≤ term) :
    checkOneLeaderFrom passes = .returned i ↔ FirstElects passes i := by
  induction passes with
  | nil => simp [checkOneLeaderFrom, FirstElects]
  | cons p passes ih =>
    rw [List.forall_mem_cons] at hterms
    by_cases hnone : Leaderless p.servers
    · rw [checkOneLeaderFrom, Pass.result_of_leaderless hnone,
        firstElects_cons_of_leaderless hnone]
      exact ih hterms.2
    · rw [firstElects_cons_of_not_leaderless hnone, checkOneLeaderFrom]
      rcases Pass.result_of_claims hterms.1 hnone with
        ⟨term, hrivals, hresult⟩ | ⟨j, hj, hresult⟩
      · rw [hresult]
        refine ⟨fun h ↦ ?_, fun helected ↦ absurd (helected.unrivalled term) hrivals⟩
        cases h
      · rw [hresult]
        constructor
        · intro h
          cases h
          exact hj
        · intro helected
          rw [hj.unique helected]

end Passes

/-- **The order of the terms does not matter.** If no server leads in a negative term, then
`checkOneLeader` returns a server exactly if, in the first round in which a connected server leads,
no two connected servers lead in the same term and the returned one leads in the last of the terms,
in whatever order the map gives them. -/
theorem checkOneLeader_returned_iff (passes : Fin 10 → Pass) (i : ℕ)
    (hterms : ∀ k j term, Claims (passes k).servers j term → 0 ≤ term) :
    checkOneLeader passes = .returned i ↔
      ∃ k, Elected (passes k).servers i ∧ ∀ j < k, Leaderless (passes j).servers := by
  have hget : ∀ k : Fin 10, (List.ofFn passes)[k.val]? = some (passes k) := fun k ↦
    List.getElem?_ofFn.trans (dif_pos k.isLt)
  have hall : ∀ p ∈ List.ofFn passes, ∀ j term, Claims p.servers j term → 0 ≤ term := by
    intro p hp
    obtain ⟨k, rfl⟩ := List.mem_ofFn.mp hp
    exact hterms k
  rw [checkOneLeader, checkOneLeaderFrom_eq_returned_iff hall]
  constructor
  · rintro ⟨k, p, hk, helected, hbefore⟩
    have hlt : k < 10 := by simpa using (List.getElem?_eq_some_iff.mp hk).1
    cases (hget ⟨k, hlt⟩).symm.trans hk
    exact ⟨⟨k, hlt⟩, helected, fun j hj ↦ hbefore j.val _ hj (hget j)⟩
  · rintro ⟨k, helected, hbefore⟩
    refine ⟨k.val, passes k, hget k, helected, fun j q hj hq ↦ ?_⟩
    cases (hget ⟨j, hj.trans k.isLt⟩).symm.trans hq
    exact hbefore ⟨j, hj.trans k.isLt⟩ hj

/-- Two connected servers that lead in different terms, and one that is cut off. -/
def sampleServers : List Status := [⟨true, 2, true⟩, ⟨true, 1, true⟩, ⟨false, 3, true⟩]

theorem claims_sampleServers {i : ℕ} {term : ℤ} :
    Claims sampleServers i term ↔ i = 0 ∧ 2 = term ∨ i = 1 ∧ 1 = term := by
  match i with
  | 0 | 1 | 2 | _ + 3 => simp [Claims, sampleServers]

/-- A round in which nobody leads, and then rounds in which these do. -/
def samplePasses (k : Fin 10) : Pass :=
  if k = 0 then ⟨[⟨true, 1, false⟩], [], by simp [collect, collectServer]⟩
  else ⟨sampleServers, [1, 2], fun term ↦ by
    rw [collect_ne_nil_iff]
    simp [claims_sampleServers, exists_or, eq_comm, or_comm]⟩

theorem checkOneLeader_returned_iff_sample : checkOneLeader samplePasses = .returned 0 := by
  have hquiet : Leaderless (samplePasses 0).servers := by
    rintro (_ | i) term h <;> simp [samplePasses, Claims] at h
  have hrest : ∀ k ≠ 0, (samplePasses k).servers = sampleServers := by
    intro k hk
    rw [samplePasses, if_neg hk]
  refine (checkOneLeader_returned_iff samplePasses 0 ?_).mpr ⟨1, ⟨?_, ?_⟩, ?_⟩
  · intro k j term h
    by_cases hk : k = 0
    · exact absurd h (hk ▸ hquiet j term)
    · rw [hrest k hk, claims_sampleServers] at h
      omega
  · rw [hrest 1 (by decide)]
    intro term i j hi hj
    rw [claims_sampleServers] at hi hj
    omega
  · refine ⟨2, by rw [hrest 1 (by decide), claims_sampleServers]; simp, fun j t h ↦ ?_⟩
    rw [hrest 1 (by decide), claims_sampleServers] at h
    omega
  · intro j hj
    obtain rfl : j = 0 := by omega
    exact hquiet

end DistKvRaft.Raft
