import TreePass.Trunk.Ledger
import TreePass.Trunk.StateAccounts
import Mathlib.Data.Multiset.Filter

/-!
# The invariant of pivots and their states

What holds in every run, whatever fails and however late an abandoned state is: each state is in
order with its tasks, and each pivot with the claims to it.

* `tasksOf` are the tasks of a state, `claims` the claims to a pivot.
* `PivotInv` is the invariant.
* `PivotInv.touched`: a step that changes one state, and nothing but the pivot of this state,
  keeps it as soon as the state and the ledger of the pivot are in order again.
-/

namespace TreePass
namespace Trunk

variable {K : Type} [DecidableEq K] {strict : Prop}

/-! ## The tasks of a state -/

def tasksIn (tasks : List Task) (σ : Nat) : Multiset Task :=
  (tasks.filter fun τ => τ.state = some σ : List Task)

def tasksOf (s : TrunkState K) (σ : Nat) : Multiset Task := tasksIn s.task σ

theorem mem_tasksIn {tasks : List Task} {σ : Nat} {τ : Task} :
    τ ∈ tasksIn tasks σ ↔ τ ∈ tasks ∧ τ.state = some σ := by
  simp [tasksIn]

theorem tasksIn_append (tasks : List Task) (τ : Task) (σ : Nat) :
    tasksIn (tasks ++ [τ]) σ = if τ.state = some σ then τ ::ₘ tasksIn tasks σ else tasksIn tasks σ := by
  by_cases h : τ.state = some σ
  · rw [if_pos h, tasksIn, tasksIn, List.filter_append, List.filter_singleton, decide_eq_true h,
      cond_true, Multiset.cons_coe]
    exact Multiset.coe_eq_coe.mpr (List.perm_append_singleton _ _)
  · rw [if_neg h, tasksIn, tasksIn, List.filter_append, List.filter_singleton,
      decide_eq_false h, cond_false, List.append_nil]

theorem tasksIn_set {tasks : List Task} {t σ : Nat} {τ : Task} (hτ : tasks[t]? = some τ)
    (hσ : τ.state = some σ) :
    ∃ l, tasksIn tasks σ = τ ::ₘ l ∧
      ∀ τ', tasksIn (tasks.set t τ') σ = if τ'.state = some σ then τ' ::ₘ l else l := by
  obtain ⟨hlt, hget⟩ := List.getElem?_eq_some_iff.mp hτ
  have hmid : ∀ τ', tasks.set t τ' = tasks.take t ++ τ' :: tasks.drop (t + 1) := fun τ' =>
    List.set_eq_take_append_cons_drop.trans (if_pos hlt)
  have hself : tasks = tasks.take t ++ τ :: tasks.drop (t + 1) := by
    rw [← hmid τ, ← hget, List.set_getElem_self]
  refine ⟨((tasks.take t).filter (fun τ => τ.state = some σ) ++
    (tasks.drop (t + 1)).filter (fun τ => τ.state = some σ) : List Task), ?_, ?_⟩
  · conv_lhs => rw [hself]
    rw [tasksIn, List.filter_append, List.filter_cons_of_pos (by simpa using hσ),
      Multiset.cons_coe]
    exact Multiset.coe_eq_coe.mpr List.perm_middle
  · intro τ'
    rw [hmid, tasksIn, List.filter_append]
    by_cases h : τ'.state = some σ
    · rw [if_pos h, List.filter_cons_of_pos (by simpa using h), Multiset.cons_coe]
      exact Multiset.coe_eq_coe.mpr List.perm_middle
    · rw [if_neg h, List.filter_cons_of_neg (by simpa using h)]

theorem tasksIn_set_of_ne {tasks : List Task} {t σ : Nat} {τ τ' : Task} (hτ : tasks[t]? = some τ)
    (hne : τ.state ≠ some σ) (hne' : τ'.state ≠ some σ) :
    tasksIn (tasks.set t τ') σ = tasksIn tasks σ := by
  obtain ⟨hlt, hget⟩ := List.getElem?_eq_some_iff.mp hτ
  have hmid : ∀ τ', tasks.set t τ' = tasks.take t ++ τ' :: tasks.drop (t + 1) := fun τ' =>
    List.set_eq_take_append_cons_drop.trans (if_pos hlt)
  have hself : tasks = tasks.take t ++ τ :: tasks.drop (t + 1) := by
    rw [← hmid τ, ← hget, List.set_getElem_self]
  conv_rhs => rw [hself]
  rw [hmid, tasksIn, tasksIn, List.filter_append, List.filter_append,
    List.filter_cons_of_neg (by simpa using hne'), List.filter_cons_of_neg (by simpa using hne)]

/-! ## Claims -/

def outputsOf (queue : List BundleCompaction) : List Nat :=
  (queue.map (·.outputBranch)).filter (· ≠ 0)

def claimOf (st : PivotState K) (l : Multiset Task) : Claim where
  maplet := st.maplet
  inputs := (unapplied st.bundleCompactions l).flatMap (·.inputs)
  outputs := outputsOf (unapplied st.bundleCompactions l)
  building := l.filterMap Task.newMaplet

def claims (s : TrunkState K) (p : PivotId K) (σ : Nat) : Option Claim :=
  (s.state σ).bind fun st => if st.pivot = p then some (claimOf st (tasksOf s σ)) else none

theorem claims_eq_some {s : TrunkState K} {p : PivotId K} {σ : Nat} {c : Claim} :
    claims s p σ = some c ↔
      ∃ st, s.state σ = some st ∧ st.pivot = p ∧ claimOf st (tasksOf s σ) = c := by
  rw [claims, Option.bind_eq_some_iff]
  refine exists_congr fun st => and_congr_right fun _ => ?_
  by_cases h : st.pivot = p <;> simp [h]

theorem claims_of_state {s : TrunkState K} {σ : Nat} {st : PivotState K} (h : s.state σ = some st) :
    claims s st.pivot σ = some (claimOf st (tasksOf s σ)) :=
  claims_eq_some.mpr ⟨st, h, rfl, rfl⟩

/-! ## The invariant -/

/-- A state in the table.  It covers all that is in flight; unless this is demanded, there may also be
less in flight than it covers. -/
structure Mapped (strict : Prop) (st : PivotState K) (p : PivotId K) (pvt : Pivot K)
    (l : Multiset Task) : Prop where
  abandoned : st.abandoned = false
  pivot : st.pivot = p
  ubkey : st.ubkey = pvt.ubkey
  covers : ((claimOf st l).inputs = pvt.inflight ∧ st.maplet = pvt.pivotBundle.maplet) ∨
    (¬ strict ∧ pvt.inflight.length < (claimOf st l).inputs.length)

/-- **The invariant of pivots and their states.**  With `strict` it demands that the state of the table
has not been overtaken by an abandoned one. -/
structure PivotInv (strict : Prop) (s : TrunkState K) : Prop where
  states : ∀ σ st, s.state σ = some st → StateOk σ st (tasksOf s σ)
  older : ∀ σ st, s.state σ = some st →
    σ < s.nextState ∧ ∀ bc ∈ st.bundleCompactions, bc.id < s.nextCompaction
  alive : ∀ σ, tasksOf s σ ≠ 0 → (s.state σ).isSome = true
  applying : ∀ t σ count, s.task[t]? = some (.applied σ count) → s.modifying = some t
  placed : ∀ σ st, s.state σ = some st → (s.pivot st.pivot).isSome = true
  ledger : ∀ p pvt, s.pivot p = some pvt → Ledger pvt (claims s p)
  mapped : ∀ p σ, s.map p = some σ → ∃ st pvt, s.state σ = some st ∧ s.pivot p = some pvt ∧
    Mapped strict st p pvt (tasksOf s σ)
  live : strict → ∀ σ st, s.state σ = some st → st.abandoned = false → s.map st.pivot = some σ

/-- A step changes the state `σ` of the pivot `p` to `st'`, and else nothing outside of `p`. -/
structure Touched (s s' : TrunkState K) (p : PivotId K) (σ : Nat) (st' : PivotState K) : Prop where
  self : s'.state σ = some st'
  pivot_self : st'.pivot = p
  state : ∀ τ, τ ≠ σ → s'.state τ = s.state τ
  tasks : ∀ τ, τ ≠ σ → tasksOf s' τ = tasksOf s τ
  before : ∀ st, s.state σ = some st → st.pivot = p
  pivot : ∀ q, q ≠ p → s'.pivot q = s.pivot q
  map : ∀ q, q ≠ p → s'.map q = s.map q
  nextState : s.nextState ≤ s'.nextState
  nextCompaction : s.nextCompaction ≤ s'.nextCompaction

namespace Touched

variable {s s' : TrunkState K} {p : PivotId K} {σ : Nat} {st' : PivotState K}

theorem claims_self (h : Touched s s' p σ st') :
    claims s' p = Function.update (claims s p) σ (some (claimOf st' (tasksOf s' σ))) := by
  funext τ
  by_cases hτ : τ = σ
  · subst hτ
    rw [Function.update_self]
    exact claims_eq_some.mpr ⟨st', h.self, h.pivot_self, rfl⟩
  · rw [Function.update_of_ne hτ, claims, claims, h.state τ hτ, h.tasks τ hτ]

theorem claims_of_ne (h : Touched s s' p σ st') {q : PivotId K} (hq : q ≠ p) :
    claims s' q = claims s q := by
  funext τ
  by_cases hτ : τ = σ
  · subst hτ
    rw [claims, claims, h.self, Option.bind_some, if_neg (h.pivot_self.trans_ne hq.symm)]
    cases hst : s.state τ with
    | none => rfl
    | some st => rw [Option.bind_some, if_neg ((h.before st hst).trans_ne hq.symm)]
  · rw [claims, claims, h.state τ hτ, h.tasks τ hτ]

end Touched

theorem PivotInv.touched {s s' : TrunkState K} {p : PivotId K} {σ : Nat} {st' : PivotState K}
    (h : PivotInv strict s) (ht : Touched s s' p σ st')
    (hok : StateOk σ st' (tasksOf s' σ))
    (holder : σ < s'.nextState ∧ ∀ bc ∈ st'.bundleCompactions, bc.id < s'.nextCompaction)
    (happlying : ∀ t σ count, s'.task[t]? = some (.applied σ count) → s'.modifying = some t)
    (hledger : ∃ pvt', s'.pivot p = some pvt' ∧
      Ledger pvt' (Function.update (claims s p) σ (some (claimOf st' (tasksOf s' σ)))))
    (hmapped : ∀ τ, s'.map p = some τ → ∃ st pvt, s'.state τ = some st ∧ s'.pivot p = some pvt ∧
      Mapped strict st p pvt (tasksOf s' τ))
    (hlive : strict → ∀ τ st, s'.state τ = some st → st.pivot = p → st.abandoned = false →
      s'.map p = some τ) : PivotInv strict s' where
  states τ st hst := by
    by_cases hτ : τ = σ
    · subst hτ
      obtain rfl : st' = st := Option.some.inj (ht.self.symm.trans hst)
      exact hok
    · rw [ht.tasks τ hτ]
      exact h.states τ st (ht.state τ hτ ▸ hst)
  older τ st hst := by
    by_cases hτ : τ = σ
    · subst hτ
      obtain rfl : st' = st := Option.some.inj (ht.self.symm.trans hst)
      exact holder
    · obtain ⟨hlt, hids⟩ := h.older τ st (ht.state τ hτ ▸ hst)
      exact ⟨hlt.trans_le ht.nextState, fun bc hbc => (hids bc hbc).trans_le ht.nextCompaction⟩
  alive τ hne := by
    by_cases hτ : τ = σ
    · subst hτ
      rw [ht.self]
      rfl
    · rw [ht.state τ hτ]
      exact h.alive τ (ht.tasks τ hτ ▸ hne)
  applying := happlying
  placed τ st hst := by
    by_cases hq : st.pivot = p
    · obtain ⟨pvt', hpvt', -⟩ := hledger
      rw [hq, hpvt']
      rfl
    · rw [ht.pivot _ hq]
      have hτ : τ ≠ σ := by
        rintro rfl
        obtain rfl : st' = st := Option.some.inj (ht.self.symm.trans hst)
        exact hq ht.pivot_self
      exact h.placed τ st (ht.state τ hτ ▸ hst)
  ledger q pvt hpvt := by
    by_cases hq : q = p
    · subst hq
      obtain ⟨pvt', hpvt', hledger⟩ := hledger
      obtain rfl : pvt' = pvt := Option.some.inj (hpvt'.symm.trans hpvt)
      rw [ht.claims_self]
      exact hledger
    · rw [ht.claims_of_ne hq]
      exact h.ledger q pvt (ht.pivot q hq ▸ hpvt)
  mapped q τ hmap := by
    by_cases hq : q = p
    · subst hq
      exact hmapped τ hmap
    · rw [ht.map q hq] at hmap
      obtain ⟨st, pvt, hst, hpvt, hm⟩ := h.mapped q τ hmap
      have hτ : τ ≠ σ := by
        rintro rfl
        exact hq (hm.pivot.symm.trans (ht.before st hst))
      refine ⟨st, pvt, (ht.state τ hτ).trans hst, (ht.pivot q hq).trans hpvt, ?_⟩
      rw [ht.tasks τ hτ]
      exact hm
  live hstrict τ st hst hab := by
    by_cases hq : st.pivot = p
    · rw [hq]
      exact hlive hstrict τ st hst hq hab
    · have hτ : τ ≠ σ := by
        rintro rfl
        obtain rfl : st' = st := Option.some.inj (ht.self.symm.trans hst)
        exact hq ht.pivot_self
      rw [ht.map _ hq]
      exact h.live hstrict τ st (ht.state τ hτ ▸ hst) hab

/-! ## Steps of tasks -/

def Applying (tasks : List Task) (modifying : Option Nat) : Prop :=
  ∀ t σ count, tasks[t]? = some (.applied σ count) → modifying = some t

theorem Applying.set {tasks : List Task} {modifying : Option Nat} (h : Applying tasks modifying)
    (t : Nat) {τ : Task} (hτ : ∀ σ count, τ ≠ .applied σ count) :
    Applying (tasks.set t τ) modifying := by
  intro t' σ count ht'
  by_cases heq : t = t'
  · subst heq
    rw [List.getElem?_set_self'] at ht'
    cases hget : tasks[t]? with
    | none => simp [hget] at ht'
    | some ρ =>
        rw [hget] at ht'
        exact absurd (Option.some.inj ht') (hτ σ count)
  · rw [List.getElem?_set_ne heq] at ht'
    exact h t' σ count ht'

theorem Applying.append {tasks : List Task} {modifying : Option Nat} (h : Applying tasks modifying)
    {τ : Task} (hτ : ∀ σ count, τ ≠ .applied σ count) : Applying (tasks ++ [τ]) modifying := by
  intro t σ count ht
  rcases Nat.lt_or_ge t tasks.length with hlt | hge
  · rw [List.getElem?_append_left hlt] at ht
    exact h t σ count ht
  · rw [List.getElem?_append_right hge] at ht
    have hmem := List.mem_of_getElem? ht
    exact absurd (List.mem_singleton.mp hmem).symm (hτ σ count)

theorem PivotInv.noneApplied {s : TrunkState K} (h : PivotInv strict s) (hmod : s.modifying = none)
    (σ : Nat) : ((tasksOf s σ).map Task.appliedCount).sum = 0 := by
  refine Multiset.sum_eq_zero fun n hn => ?_
  obtain ⟨τ, hτ, rfl⟩ := Multiset.mem_map.mp hn
  obtain ⟨t, hlt, hget⟩ := List.getElem_of_mem (mem_tasksIn.mp hτ).1
  cases τ with
  | applied ρ count =>
      have hsome := h.applying t ρ count (List.getElem?_eq_some_iff.mpr ⟨hlt, hget⟩)
      rw [hmod] at hsome
      cases hsome
  | _ => rfl

/-- What a step of a background task changes. -/
structure Background (s s' : TrunkState K) (σ : Nat) (st st' : PivotState K) : Prop where
  before : s.state σ = some st
  state : s'.state = Function.update s.state σ (some st')
  tasks : ∀ τ, τ ≠ σ → tasksOf s' τ = tasksOf s τ
  pivot : s'.pivot = s.pivot
  map : s'.map = s.map
  nextState : s'.nextState = s.nextState
  nextCompaction : s'.nextCompaction = s.nextCompaction
  pivot_self : st'.pivot = st.pivot
  ubkey : st'.ubkey = st.ubkey
  abandoned : st'.abandoned = st.abandoned
  maplet : st'.maplet = st.maplet
  ids : ∀ bc ∈ st'.bundleCompactions, ∃ bc₀ ∈ st.bundleCompactions, bc₀.id = bc.id

omit [DecidableEq K] in
theorem Background.touched {s s' : TrunkState K} {σ : Nat} {st st' : PivotState K}
    (h : Background s s' σ st st') : Touched s s' st.pivot σ st' where
  self := by rw [h.state, Function.update_self]
  pivot_self := h.pivot_self
  state τ hτ := by rw [h.state, Function.update_of_ne hτ]
  tasks := h.tasks
  before st₀ hst₀ := by rw [Option.some.inj (h.before.symm.trans hst₀)]
  pivot q _ := by rw [h.pivot]
  map q _ := by rw [h.map]
  nextState := h.nextState.ge
  nextCompaction := h.nextCompaction.ge

/-- **A step of a background task** that changes what its state claims at most by what the ledger
of the pivot allows. -/
theorem PivotInv.background {s s' : TrunkState K} {σ : Nat} {st st' : PivotState K}
    (h : PivotInv strict s) (hb : Background s s' σ st st') (hok : StateOk σ st' (tasksOf s' σ))
    (happlying : Applying s'.task s'.modifying)
    (hinputs : (claimOf st' (tasksOf s' σ)).inputs = (claimOf st (tasksOf s σ)).inputs)
    (hledger : ∀ pvt, s.pivot st.pivot = some pvt → Ledger pvt (claims s st.pivot) →
      Ledger pvt (Function.update (claims s st.pivot) σ (some (claimOf st' (tasksOf s' σ))))) :
    PivotInv strict s' := by
  have ht := hb.touched
  obtain ⟨hlt, hids⟩ := h.older σ st hb.before
  refine h.touched ht hok ⟨hb.nextState ▸ hlt, fun bc hbc => ?_⟩ happlying ?_ ?_ ?_
  · obtain ⟨bc₀, hbc₀, hid⟩ := hb.ids bc hbc
    rw [hb.nextCompaction, ← hid]
    exact hids bc₀ hbc₀
  · obtain ⟨pvt, hpvt⟩ := Option.isSome_iff_exists.mp (h.placed σ st hb.before)
    exact ⟨pvt, (congrFun hb.pivot _).trans hpvt, hledger pvt hpvt (h.ledger _ pvt hpvt)⟩
  · intro τ hmap
    rw [hb.map] at hmap
    obtain ⟨st₀, pvt, hst₀, hpvt, hm⟩ := h.mapped _ τ hmap
    by_cases hτ : τ = σ
    · subst hτ
      obtain rfl : st = st₀ := Option.some.inj (hb.before.symm.trans hst₀)
      refine ⟨st', pvt, ht.self, (congrFun hb.pivot _).trans hpvt, ?_⟩
      exact
        { abandoned := hb.abandoned.trans hm.abandoned
          pivot := hb.pivot_self
          ubkey := hb.ubkey.trans hm.ubkey
          covers := by rw [hinputs, hb.maplet]; exact hm.covers }
    · refine ⟨st₀, pvt, (ht.state τ hτ).trans hst₀, (congrFun hb.pivot _).trans hpvt, ?_⟩
      rw [hb.tasks τ hτ]
      exact hm
  · intro hstrict τ st₀ hst₀ hq hab
    rw [hb.map, ← hq]
    by_cases hτ : τ = σ
    · subst hτ
      obtain rfl : st' = st₀ := Option.some.inj (ht.self.symm.trans hst₀)
      rw [hb.pivot_self]
      exact h.live hstrict τ st hb.before (hb.abandoned.symm.trans hab)
    · exact h.live hstrict τ st₀ (ht.state τ hτ ▸ hst₀) hab

theorem PivotInv.keepsClaim {s s' : TrunkState K} {σ : Nat} {st st' : PivotState K}
    (h : PivotInv strict s) (hb : Background s s' σ st st') (hok : StateOk σ st' (tasksOf s' σ))
    (happlying : Applying s'.task s'.modifying)
    (hinputs : (claimOf st' (tasksOf s' σ)).inputs = (claimOf st (tasksOf s σ)).inputs)
    (houtputs : (claimOf st' (tasksOf s' σ)).outputs = (claimOf st (tasksOf s σ)).outputs)
    (hbuilding : ∀ m ∈ (claimOf st' (tasksOf s' σ)).building,
      m ∈ (claimOf st (tasksOf s σ)).building ∨ m = st.maplet) : PivotInv strict s' := by
  refine h.background hb hok happlying hinputs fun pvt _ hledger => ?_
  refine hledger.weaken fun τ c' hc' => ?_
  by_cases hτ : τ = σ
  · subst hτ
    rw [Function.update_self, Option.some.injEq] at hc'
    subst hc'
    exact ⟨_, claims_of_state hb.before, hb.maplet, hinputs, houtputs, hbuilding⟩
  · rw [Function.update_of_ne hτ] at hc'
    exact ⟨c', hc', rfl, rfl, rfl, fun m hm => Or.inl hm⟩

/-! ## A task and the tasks of its state -/

/-- The task `t` is `τ`, of the state `σ`, and `l` are the other tasks of the state. -/
structure AtTask (s : TrunkState K) (t σ : Nat) (τ : Task) (st : PivotState K) (l : Multiset Task) :
    Prop where
  task : s.task[t]? = some τ
  ofState : τ.state = some σ
  state : s.state σ = some st
  tasks : tasksOf s σ = τ ::ₘ l
  set : ∀ τ', tasksIn (s.task.set t τ') σ = if τ'.state = some σ then τ' ::ₘ l else l

theorem PivotInv.atTask {s : TrunkState K} (h : PivotInv strict s) {t σ : Nat} {τ : Task}
    (hτ : s.task[t]? = some τ) (hσ : τ.state = some σ) : ∃ st l, AtTask s t σ τ st l := by
  obtain ⟨l, hl, hset⟩ := tasksIn_set hτ hσ
  have hne : tasksOf s σ ≠ 0 := by
    rw [tasksOf, hl]
    exact Multiset.cons_ne_zero
  obtain ⟨st, hst⟩ := Option.isSome_iff_exists.mp (h.alive σ hne)
  exact ⟨st, l, hτ, hσ, hst, hl, hset⟩

namespace AtTask

variable {s s' : TrunkState K} {t σ : Nat} {τ τ' : Task} {st st' : PivotState K} {l : Multiset Task}

theorem stateOk (ha : AtTask s t σ τ st l) (h : PivotInv strict s) : StateOk σ st (τ ::ₘ l) :=
  ha.tasks ▸ h.states σ st ha.state

omit [DecidableEq K] in
theorem tasks_set (ha : AtTask s t σ τ st l) (hs' : s'.task = s.task.set t τ')
    (hσ : τ'.state = some σ) : tasksOf s' σ = τ' ::ₘ l := by
  rw [tasksOf, hs', ha.set, if_pos hσ]

omit [DecidableEq K] in
theorem tasks_of_ne (ha : AtTask s t σ τ st l) (hs' : s'.task = s.task.set t τ')
    (hσ : τ'.state = some σ ∨ τ'.state = none) {ρ : Nat} (hρ : ρ ≠ σ) :
    tasksOf s' ρ = tasksOf s ρ := by
  have hne : some σ ≠ some ρ := fun heq => hρ (Option.some.inj heq).symm
  rw [tasksOf, hs']
  refine tasksIn_set_of_ne ha.task (ha.ofState ▸ hne) ?_
  rcases hσ with hσ | hσ <;> rw [hσ]
  · exact hne
  · simp

omit [DecidableEq K] in
theorem background (ha : AtTask s t σ τ st l)
    (hstate : s'.state = Function.update s.state σ (some st'))
    (htasks : ∀ ρ, ρ ≠ σ → tasksOf s' ρ = tasksOf s ρ)
    (hpivot : s'.pivot = s.pivot) (hmap : s'.map = s.map) (hnext : s'.nextState = s.nextState)
    (hnextC : s'.nextCompaction = s.nextCompaction)
    (hsame : st'.pivot = st.pivot ∧ st'.ubkey = st.ubkey ∧ st'.abandoned = st.abandoned ∧
      st'.maplet = st.maplet)
    (hids : ∀ bc ∈ st'.bundleCompactions, ∃ bc₀ ∈ st.bundleCompactions, bc₀.id = bc.id) :
    Background s s' σ st st' :=
  ⟨ha.state, hstate, htasks, hpivot, hmap, hnext, hnextC, hsame.1, hsame.2.1, hsame.2.2.1,
    hsame.2.2.2, hids⟩

end AtTask

end Trunk
end TreePass
