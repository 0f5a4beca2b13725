import TreePass.Trunk.Accounting

/-!
# The pipeline of maplet compactions

The compactions of a state end in any order; their results are applied in the order of its queue.
Every task that ends a compaction, and every maplet compaction that has applied results, decides for
itself whether the next maplet compaction is to start.

* `enqueuedIn` and `appliedIn` are what a run enqueues for a state and applies for it.
* `CarriedStep` is what a step does to the queue of a state.
* `Pipelined`: what is applied is a front part of what is enqueued, and nothing is enqueued twice.
* `NoLostWakeup`: a success at the head of the queue has a task that is still to look at it, or a maplet
  compaction.
* `Works`: a maplet compaction has failed only for a state that is abandoned.
* `maplet_pipeline` has all three, `wakeup_pending` the moment between success and decision.
-/

namespace TreePass
namespace Trunk

open Lib Lib.System

variable {K : Type} [DecidableEq K]

/-! ## What a run enqueues and applies -/

def receivingState (s : TrunkState K) : Act K → Option Nat
  | .receive p _ => some ((s.map p).getD s.nextState)
  | .split _ _ _ => some s.nextState
  | _ => none

def enqueuedBy (s : TrunkState K) (a : Act K) (σ : Nat) : List Nat :=
  if receivingState s a = some σ ∧ (perform s a).isSome = true then [s.nextCompaction] else []

def appliedBy (s : TrunkState K) (a : Act K) (σ : Nat) : List Nat :=
  match a with
  | .apply t =>
      match s.task[t]? with
      | some (.built ρ count _) =>
          match s.state ρ with
          | some st =>
              if ρ = σ ∧ (matchingPivot s st count).isSome = true then
                (st.bundleCompactions.take count).map (·.id)
              else []
          | none => []
      | _ => []
  | _ => []

def enqueuedIn (tr : List (TrunkState K × Act K)) (σ : Nat) : List Nat :=
  tr.flatMap fun step => enqueuedBy step.1 step.2 σ

def appliedIn (tr : List (TrunkState K × Act K)) (σ : Nat) : List Nat :=
  tr.flatMap fun step => appliedBy step.1 step.2 σ

/-- **Results are applied in the order of the queue**, without a gap and each at most once. -/
structure Pipelined (tr : List (TrunkState K × Act K)) : Prop where
  order : ∀ σ, appliedIn tr σ <+: enqueuedIn tr σ
  once : ∀ σ, (enqueuedIn tr σ).Nodup

/-- **No wakeup is lost**: while no maplet compaction of a state in use is enqueued or runs, the head of
its queue has not succeeded, or the task that has succeeded is still to look at the queue. -/
def NoLostWakeup (s : TrunkState K) : Prop :=
  ∀ σ st, s.state σ = some st → st.abandoned = false → st.mapletCompactionFailed = false →
    mapletTasks (tasksOf s σ) = 0 →
    ∀ head rest, st.bundleCompactions = head :: rest → head.status = .succeeded →
      .ended σ head.id ∈ tasksOf s σ

/-- A maplet compaction of the state has failed only if it is abandoned. -/
def PivotState.Works (st : PivotState K) : Prop :=
  st.mapletCompactionFailed = true → st.abandoned = true

def Works (s : TrunkState K) : Prop := ∀ σ st, s.state σ = some st → st.Works

/-- No maplet compaction fails, or is applied for an abandoned state. -/
structure NoMapletFailure (s : TrunkState K) (a : Act K) : Prop where
  completes : ∀ t, a ≠ .mapletFails t
  early : appliesLate s a = false

/-! ## What a step does to the queues -/

def waiting (s : TrunkState K) (σ : Nat) (st : PivotState K) : List Nat :=
  (unapplied st.bundleCompactions (tasksOf s σ)).map (·.id)

/-- What a step may do to a state whose queue it leaves alone. -/
structure Quiet (strict : Prop) (s s' : TrunkState K) (σ : Nat) (st st' : PivotState K) : Prop where
  before : s.state σ = some st
  waiting : waiting s' σ st' = waiting s σ st
  works : strict → st.Works → st'.Works

def QuietStep (strict : Prop) (s s' : TrunkState K) : Prop :=
  ∀ ρ st₁, s'.state ρ = some st₁ → ∃ st₀, Quiet strict s s' ρ st₀ st₁

/-- The step applies the results of a maplet compaction to a pivot. -/
def appliesResults (s : TrunkState K) : Act K → Bool
  | .apply t =>
      match s.task[t]? with
      | some (.built σ count _) =>
          (s.state σ).any fun st => (matchingPivot s st count).isSome
      | _ => false
  | _ => false

/-- What a step that enqueues no bundle compaction may do to the queue of a state: some compactions leave
it, or one is picked, ends or fails. -/
def QueueStep (s : TrunkState K) (a : Act K) (σ : Nat) (st st' : PivotState K) : Prop :=
  (∀ bc ∈ st'.bundleCompactions, bc ∈ st.bundleCompactions) ∨
    ∃ id status o, st'.bundleCompactions = setCompaction st.bundleCompactions id status o ∧
      (status = .succeeded → ∃ t l, a = .compacted t o ∧ AtTask s t σ (.compacting σ id) st l)

/-- What such a step may do to a state. -/
structure Carried (strict : Prop) (s : TrunkState K) (a : Act K) (s' : TrunkState K) (σ : Nat)
    (st st' : PivotState K) : Prop where
  before : s.state σ = some st
  same : st'.pivot = st.pivot ∧ st'.ubkey = st.ubkey
  queue : QueueStep s a σ st st'
  waiting : appliesResults s a = false → waiting s' σ st' = waiting s σ st
  works : strict → (∀ t, a ≠ .mapletFails t) → st.Works → st'.Works

def CarriedStep (strict : Prop) (s : TrunkState K) (a : Act K) (s' : TrunkState K) : Prop :=
  ∀ ρ st₁, s'.state ρ = some st₁ → ∃ st₀, Carried strict s a s' ρ st₀ st₁

section Carried

variable {strict : Prop} {s s' : TrunkState K} {a : Act K} {t σ : Nat} {τ : Task} {st : PivotState K}
  {l : Multiset Task}

omit [DecidableEq K] in
theorem quiet_of_states (hstate : s'.state = s.state) (htask : s'.task = s.task) :
    QuietStep strict s s' := fun _ st₁ hst₁ =>
  ⟨st₁, hstate ▸ hst₁, by rw [waiting, waiting, tasksOf, tasksOf, htask], fun _ h => h⟩

theorem CarriedStep.quiet (h : CarriedStep strict s a s')
    (hcompletes : strict → ∀ t, a ≠ .mapletFails t) (happlies : appliesResults s a = false) :
    QuietStep strict s s' := by
  intro ρ st₁ hst₁
  obtain ⟨st₀, hc⟩ := h ρ st₁ hst₁
  exact ⟨st₀, hc.before, hc.waiting happlies, fun hstrict => hc.works hstrict (hcompletes hstrict)⟩

theorem carried_of_same (hst : s.state σ = some st) (htasks : tasksOf s' σ = tasksOf s σ) :
    Carried strict s a s' σ st st :=
  ⟨hst, ⟨rfl, rfl⟩, Or.inl fun _ h => h, fun _ => by rw [waiting, waiting, htasks], fun _ _ h => h⟩

theorem carried_of_states (hstate : s'.state = s.state) (htask : s'.task = s.task) :
    CarriedStep strict s a s' := fun _ st₁ hst₁ =>
  ⟨st₁, carried_of_same (hstate ▸ hst₁) (by rw [tasksOf, tasksOf, htask])⟩

omit [DecidableEq K] in
theorem unapplied_enqueue (tasks : List Task) (σ ρ : Nat) (queue : List BundleCompaction) :
    unapplied queue (tasksIn (tasks ++ [.maplet σ]) ρ) = unapplied queue (tasksIn tasks ρ) := by
  rw [tasksIn_append]
  split
  · rw [unapplied_cons]
    rfl
  · rfl

omit [DecidableEq K] in
theorem AtTask.others (ha : AtTask s t σ τ st l) (τ' : Task)
    (htask : ∀ ρ queue, unapplied queue (tasksOf s' ρ) =
      unapplied queue (tasksIn (s.task.set t τ') ρ))
    (hσ : τ'.state = some σ ∨ τ' = .done) {ρ : Nat} (hρ : ρ ≠ σ) (st₀ : PivotState K) :
    waiting s' ρ st₀ = waiting s ρ st₀ := by
  have hne : some σ ≠ some ρ := fun heq => hρ (Option.some.inj heq).symm
  have hset : tasksIn (s.task.set t τ') ρ = tasksOf s ρ := by
    refine tasksIn_set_of_ne ha.task (ha.ofState ▸ hne) ?_
    rcases hσ with hσ | rfl
    · rw [hσ]
      exact hne
    · simp [Task.state]
  rw [waiting, waiting, htask, hset]

omit [DecidableEq K] in
theorem AtTask.self (ha : AtTask s t σ τ st l) (τ' : Task)
    (htask : ∀ ρ queue, unapplied queue (tasksOf s' ρ) =
      unapplied queue (tasksIn (s.task.set t τ') ρ))
    (hσ : τ'.state = some σ ∨ τ' = .done) (st' : PivotState K) :
    waiting s' σ st' = (unapplied st'.bundleCompactions (τ' ::ₘ l)).map (·.id) := by
  rw [waiting, htask]
  rcases hσ with hσ | rfl
  · rw [ha.set, if_pos hσ]
  · rw [ha.set, if_neg (by simp [Task.state]), unapplied_cons]
    rfl

theorem AtTask.carried (ha : AtTask s t σ τ st l) (τ' : Task) (st' : PivotState K)
    (hstate : s'.state = Function.update s.state σ (some st'))
    (htask : ∀ ρ queue, unapplied queue (tasksOf s' ρ) =
      unapplied queue (tasksIn (s.task.set t τ') ρ))
    (hσ : τ'.state = some σ ∨ τ' = .done) (hsame : st'.pivot = st.pivot ∧ st'.ubkey = st.ubkey)
    (hqueue : QueueStep s a σ st st')
    (hids : appliesResults s a = false → (unapplied st'.bundleCompactions (τ' ::ₘ l)).map (·.id) =
      (unapplied st.bundleCompactions (τ ::ₘ l)).map (·.id))
    (hworks : strict → (∀ t, a ≠ .mapletFails t) → st.Works → st'.Works) :
    CarriedStep strict s a s' := by
  intro ρ st₁ hst₁
  rw [hstate] at hst₁
  rcases update_eq_some hst₁ with ⟨rfl, rfl⟩ | ⟨hρ, hst₁⟩
  · refine ⟨st, ha.state, hsame, hqueue, fun happlies => ?_, hworks⟩
    rw [ha.self τ' htask hσ, hids happlies, waiting, ha.tasks]
  · exact ⟨st₁, hst₁, ⟨rfl, rfl⟩, Or.inl fun _ h => h, fun _ => ha.others τ' htask hσ hρ st₁,
      fun _ _ h => h⟩

theorem AtTask.carried_goto (ha : AtTask s t σ τ st l) (τ' : Task)
    (hσ : τ'.state = some σ ∨ τ' = .done) (happlied : τ'.appliedCount = τ.appliedCount) :
    CarriedStep strict s a (s.goto t τ') := by
  refine ha.carried τ' st (Function.update_eq_self_iff.mpr ha.state.symm).symm (fun _ _ => rfl) hσ
    ⟨rfl, rfl⟩ (Or.inl fun _ h => h) (fun _ => ?_) fun _ _ h => h
  rw [unapplied_cons, unapplied_cons, happlied]

theorem AtTask.carried_enqueueMapletCompaction (ha : AtTask s t σ τ st l) (τ' : Task)
    (st' : PivotState K) {s₀ : TrunkState K} (hstate : s₀.state = s.state)
    (htask : s₀.task = s.task.set t τ') (hσ : τ'.state = some σ)
    (hsame : st'.pivot = st.pivot ∧ st'.ubkey = st.ubkey) (hqueue : QueueStep s a σ st st')
    (hids : (unapplied st'.bundleCompactions (τ' ::ₘ l)).map (·.id) =
      (unapplied st.bundleCompactions (τ ::ₘ l)).map (·.id))
    (hworks : st.Works → st'.Works) : CarriedStep strict s a (enqueueMapletCompaction s₀ σ st') := by
  cases hinit : st'.mapletCompactionInitiated with
  | true =>
      rw [enqueueMapletCompaction_of_true hinit]
      refine ha.carried τ' st' (by rw [← hstate]; rfl) (fun ρ queue => ?_) (Or.inl hσ) hsame hqueue
        (fun _ => hids) fun _ _ => hworks
      rw [← htask]
      rfl
  | false =>
      rw [enqueueMapletCompaction_of_false hinit]
      refine ha.carried τ'
        { st' with mapletCompactionInitiated := true, refcount := st'.refcount + 1 }
        (by rw [← hstate]; rfl) (fun ρ queue => ?_) (Or.inl hσ) hsame hqueue (fun _ => hids)
        fun _ _ => hworks
      rw [← htask]
      exact unapplied_enqueue _ _ _ _

theorem PivotInv.carried_nextOf (h : PivotInv strict s) (hτ : s.task[t]? = some τ)
    (hs' : nextOf s t τ = some s') : CarriedStep strict s a s' := by
  cases τ with
  | bundle σ =>
      obtain ⟨st, l, ha⟩ := h.atTask hτ rfl
      rw [nextOf, ha.state, Option.map_some] at hs'
      obtain rfl := Option.some.inj hs'
      split
      · exact ha.carried_goto _ (Or.inl rfl) rfl
      · exact ha.carried_goto _ (Or.inl rfl) rfl
  | picking σ =>
      obtain ⟨st, l, ha⟩ := h.atTask hτ rfl
      obtain ⟨st₀, hst₀, hs'⟩ := Option.bind_eq_some_iff.mp hs'
      obtain rfl := Option.some.inj (ha.state.symm.trans hst₀)
      obtain ⟨bc, -, hs'⟩ := Option.bind_eq_some_iff.mp hs'
      split at hs'
      · obtain rfl := Option.some.inj hs'
        refine ha.carried _ _ rfl (fun _ _ => rfl) (Or.inl rfl) ⟨rfl, rfl⟩
          (Or.inr ⟨_, _, _, rfl, fun heq => by cases heq⟩) (fun _ => ?_) fun _ _ h => h
        rw [unapplied_setCompaction, setCompaction_ids, unapplied_cons, unapplied_cons]
        rfl
      · cases hs'
  | maplet σ =>
      obtain ⟨st, l, ha⟩ := h.atTask hτ rfl
      rw [nextOf, ha.state, Option.map_some] at hs'
      obtain rfl := Option.some.inj hs'
      split
      · rename_i hab
        refine ha.carried (.releasing σ) _ rfl (fun _ _ => rfl) (Or.inl rfl) ⟨rfl, rfl⟩
          (Or.inl fun _ h => h) (fun _ => ?_) fun _ _ _ _ => hab
        rw [unapplied_cons, unapplied_cons]
        rfl
      · exact ha.carried_goto _ (Or.inl rfl) rfl
  | building σ count m =>
      obtain ⟨st, l, ha⟩ := h.atTask hτ rfl
      obtain rfl := Option.some.inj hs'
      exact ha.carried_goto _ (Or.inl rfl) rfl
  | applied σ count =>
      obtain ⟨st, l, ha⟩ := h.atTask hτ rfl
      obtain ⟨st₀, hst₀, hs'⟩ := Option.bind_eq_some_iff.mp hs'
      obtain rfl := Option.some.inj (ha.state.symm.trans hst₀)
      have hqueue := unapplied_popped st.bundleCompactions σ count l
      have hdrop : ∀ bc ∈ st.bundleCompactions.drop count, bc ∈ st.bundleCompactions :=
        fun _ hbc => List.mem_of_mem_drop hbc
      split at hs'
      · cases hs'
      · dsimp only at hs'
        split at hs'
        · obtain rfl := Option.some.inj hs'
          exact ha.carried (.releasing σ) _ rfl (fun _ _ => rfl) (Or.inl rfl) ⟨rfl, rfl⟩
            (Or.inl hdrop) (fun _ => congrArg _ hqueue) fun _ _ h => h
        · split at hs'
          · obtain rfl := Option.some.inj hs'
            exact ha.carried_enqueueMapletCompaction (.releasing σ) _ rfl rfl rfl ⟨rfl, rfl⟩
              (Or.inl hdrop) (congrArg _ hqueue) fun h => h
          · obtain rfl := Option.some.inj hs'
            exact ha.carried (.releasing σ) _ rfl (fun _ _ => rfl) (Or.inl rfl) ⟨rfl, rfl⟩
              (Or.inl hdrop) (fun _ => congrArg _ hqueue) fun _ _ h => h
  | releasing σ =>
      obtain ⟨st, l, ha⟩ := h.atTask hτ rfl
      have hgone : (s.goto t .done).state σ = some st := ha.state
      rw [nextOf, releaseEntry, hgone, Option.bind_some] at hs'
      split at hs'
      · cases hs'
      · obtain rfl := Option.some.inj hs'
        intro ρ st₁ hst₁
        change Function.update ((s.goto t .done).mapRemove σ st.pivot).state σ none ρ = some st₁ at hst₁
        rw [mapRemove_state] at hst₁
        by_cases hρ : ρ = σ
        · rw [hρ, Function.update_self] at hst₁
          cases hst₁
        · rw [Function.update_of_ne hρ] at hst₁
          refine ⟨st₁, carried_of_same hst₁ ?_⟩
          change tasksIn ((s.goto t .done).mapRemove σ st.pivot).task ρ = _
          rw [mapRemove_task]
          exact ha.tasks_of_ne (rfl : (s.goto t .done).task = _) (Or.inr rfl) hρ
      · obtain rfl := Option.some.inj hs'
        refine ha.carried .done _ rfl (fun _ _ => rfl) (Or.inr rfl) ⟨rfl, rfl⟩ (Or.inl fun _ h => h)
          (fun _ => ?_) fun _ _ h => h
        rw [unapplied_cons, unapplied_cons]
        rfl
  | done => cases hs'
  | compacting σ id => cases hs'
  | ended σ id => cases hs'
  | built σ count m => cases hs'

theorem AtTask.carried_endCompaction {id : Nat} (ha : AtTask s t σ (.compacting σ id) st l)
    {status : CompactionStatus} {o : Nat} (hdone : status = .succeeded → a = .compacted t o)
    (hs' : endCompaction s t σ id status o = some s') : CarriedStep strict s a s' := by
  rw [endCompaction, ha.state, Option.map_some] at hs'
  obtain rfl := Option.some.inj hs'
  refine ha.carried (.ended σ id) _ rfl (fun _ _ => rfl) (Or.inl rfl) ⟨rfl, rfl⟩
    (Or.inr ⟨_, _, _, rfl, fun heq => ⟨t, l, hdone heq, ha⟩⟩) (fun _ => ?_) fun _ _ h => h
  rw [unapplied_setCompaction, setCompaction_ids, unapplied_cons, unapplied_cons]
  rfl

theorem AtTask.carried_failMaplet (ha : AtTask s t σ τ st l) (happlied : τ.appliedCount = 0)
    (hs' : failMaplet s t σ = some s') : CarriedStep strict s (.mapletFails t) s' := by
  rw [failMaplet, ha.state, Option.map_some] at hs'
  obtain rfl := Option.some.inj hs'
  refine ha.carried (.releasing σ) _ rfl (fun _ _ => rfl) (Or.inl rfl) ⟨rfl, rfl⟩
    (Or.inl fun _ h => h) (fun _ => ?_) fun _ hne => absurd rfl (hne t)
  rw [unapplied_cons, unapplied_cons, happlied]
  rfl

theorem PivotInv.carried_abandonEntry (h : PivotInv strict s) (p : PivotId K) :
    CarriedStep strict s a (abandonEntry s p) := by
  cases hmap : s.map p with
  | none =>
      have heq : abandonEntry s p = s := by simp [abandonEntry, hmap]
      rw [heq]
      exact carried_of_states rfl rfl
  | some σ =>
      obtain ⟨st, pvt, hst, -, -⟩ := h.mapped p σ hmap
      have heq : abandonEntry s p = (s.setState σ { st with abandoned := true }).mapRemove σ p := by
        simp only [abandonEntry, hmap, hst]
      have htasks : ∀ ρ, tasksOf (abandonEntry s p) ρ = tasksOf s ρ := fun ρ => by
        rw [heq, tasksOf, mapRemove_task]
        rfl
      intro ρ st₁ hst₁
      have hst₁' : Function.update s.state σ (some { st with abandoned := true }) ρ = some st₁ := by
        rw [heq, mapRemove_state] at hst₁
        exact hst₁
      rcases update_eq_some hst₁' with ⟨rfl, rfl⟩ | ⟨hρ, hst₁'⟩
      · refine ⟨st, hst, ⟨rfl, rfl⟩, Or.inl fun _ h => h, fun _ => ?_, fun _ _ _ _ => rfl⟩
        rw [waiting, waiting, htasks]
      · exact ⟨st₁, carried_of_same hst₁' (htasks ρ)⟩

theorem PivotInv.carried_applyMaplet (h : PivotInv strict s) {count m : Nat}
    (ha : AtTask s t σ (.built σ count m) st l) (hs' : applyMaplet s t σ count m = some s') :
    CarriedStep strict s (.apply t) s' := by
  rw [applyMaplet, ha.state, Option.bind_some] at hs'
  split at hs'
  · cases hs'
  split at hs'
  · rename_i hnone
    obtain rfl := Option.some.inj hs'
    refine ha.carried (.releasing σ) { st with mapletCompactionFailed := true } ?_ (fun ρ queue => ?_)
      (Or.inl rfl) ⟨rfl, rfl⟩ (Or.inl fun _ h => h) (fun _ => ?_) fun hstrict _ _ _ => ?_
    · change Function.update (s.mapRemove σ st.pivot).state σ _ = _
      rw [mapRemove_state]
    · change unapplied queue (tasksIn ((s.mapRemove σ st.pivot).task.set t _) ρ) = _
      rw [mapRemove_task]
    · rw [unapplied_cons, unapplied_cons]
      rfl
    · change st.abandoned = true
      cases hab : st.abandoned with
      | true => rfl
      | false =>
          obtain ⟨pvt, hsome⟩ := h.findsMatch hstrict ha hab
          rw [hnone] at hsome
          cases hsome
  · rename_i pvt hmatch
    obtain rfl := Option.some.inj hs'
    refine ha.carried (.applied σ count) { st with maplet := m } rfl (fun _ _ => rfl) (Or.inl rfl)
      ⟨rfl, rfl⟩ (Or.inl fun _ h => h) (fun happlies => ?_) fun _ _ h => h
    simp [appliesResults, ha.task, ha.state, hmatch] at happlies

theorem PivotInv.carried_perform (h : PivotInv strict s) (henqueues : enqueuesCompaction a = false)
    (hs' : Trunk.perform s a = some s') : CarriedStep strict s a s' := by
  cases a with
  | create p ubkey =>
      obtain rfl := Option.some.inj hs'
      exact carried_of_states rfl rfl
  | receive p bundles => cases henqueues
  | flush p ubkey =>
      obtain ⟨pvt, -, rfl⟩ := Option.map_eq_some_iff.mp hs'
      intro ρ st₁ hst₁
      obtain ⟨st₀, hc⟩ := h.carried_abandonEntry p ρ st₁ hst₁
      exact ⟨st₀, hc.before, hc.same, hc.queue, hc.waiting, hc.works⟩
  | split p ubkey bundles => cases henqueues
  | next t =>
      obtain ⟨τ, hτ, hnext⟩ := Option.bind_eq_some_iff.mp hs'
      exact h.carried_nextOf hτ hnext
  | compacted t o =>
      rw [Trunk.perform] at hs'
      split at hs'
      · rename_i σ id hτ
        obtain ⟨st, l, ha⟩ := h.atTask hτ rfl
        exact ha.carried_endCompaction (fun _ => rfl) hs'
      · cases hs'
  | compactionFails t =>
      rw [Trunk.perform] at hs'
      split at hs'
      · rename_i σ id hτ
        obtain ⟨st, l, ha⟩ := h.atTask hτ rfl
        exact ha.carried_endCompaction (fun heq => by cases heq) hs'
      · cases hs'
  | decide t reused =>
      rw [Trunk.perform] at hs'
      split at hs'
      · rename_i σ id hτ
        obtain ⟨st, l, ha⟩ := h.atTask hτ rfl
        rw [decideCompaction, ha.state, Option.map_some] at hs'
        obtain rfl := Option.some.inj hs'
        split
        · refine ha.carried_enqueueMapletCompaction (.releasing σ) st rfl rfl rfl ⟨rfl, rfl⟩
            (Or.inl fun _ h => h) ?_ fun h => h
          rw [unapplied_cons, unapplied_cons]
          rfl
        · exact ha.carried_goto _ (Or.inl rfl) rfl
      · cases hs'
  | add t filter =>
      rw [Trunk.perform] at hs'
      split at hs'
      · rename_i σ count m hτ
        obtain ⟨st, l, ha⟩ := h.atTask hτ rfl
        obtain ⟨st₀, -, hs'⟩ := Option.bind_eq_some_iff.mp hs'
        obtain ⟨bc, -, hs'⟩ := Option.bind_eq_some_iff.mp hs'
        split at hs'
        · obtain rfl := Option.some.inj hs'
          exact ha.carried_goto _ (Or.inl rfl) rfl
        · cases hs'
      · cases hs'
  | apply t =>
      rw [Trunk.perform] at hs'
      split at hs'
      · rename_i σ count m hτ
        obtain ⟨st, l, ha⟩ := h.atTask hτ rfl
        exact h.carried_applyMaplet ha hs'
      · cases hs'
  | mapletFails t =>
      rw [Trunk.perform] at hs'
      split at hs'
      · rename_i σ count m hτ
        obtain ⟨st, l, ha⟩ := h.atTask hτ rfl
        exact ha.carried_failMaplet rfl hs'
      · rename_i σ count m hτ
        obtain ⟨st, l, ha⟩ := h.atTask hτ rfl
        exact ha.carried_failMaplet rfl hs'
      · cases hs'
  | remount =>
      obtain rfl := Option.some.inj hs'
      intro ρ st₁ hst₁
      cases hst₁

end Carried

/-! ## What a step moves -/

/-- What a step does to the queue of one state: what was waiting and what is enqueued are applied, or
are waiting now. -/
structure Flow (s : TrunkState K) (a : Act K) (s' : TrunkState K) (σ : Nat) : Prop where
  balance : ∀ before, (∀ st, s.state σ = some st → before = waiting s σ st) →
    (s.state σ = none → before = []) →
    ∃ rest, before ++ enqueuedBy s a σ = appliedBy s a σ ++ rest ∧
      ∀ st, s'.state σ = some st → rest = waiting s' σ st
  gone : s.state σ = none → σ < s.nextState →
    enqueuedBy s a σ = [] ∧ appliedBy s a σ = [] ∧ s'.state σ = none
  unused : s'.nextState ≤ σ → enqueuedBy s a σ = []

section Flow

variable {strict : Prop} {s s' : TrunkState K}

theorem enqueuedBy_of_enqueuesCompaction {a : Act K} (h : enqueuesCompaction a = false) (σ : Nat) :
    enqueuedBy s a σ = [] := by
  refine if_neg fun hcond => ?_
  cases a with
  | receive p bundles => cases h
  | split p ubkey bundles => cases h
  | _ => cases hcond.1

theorem appliedBy_of_appliesResults {a : Act K} (h : appliesResults s a = false) (σ : Nat) :
    appliedBy s a σ = [] := by
  cases a with
  | apply t =>
      rw [appliedBy]
      split
      · rename_i ρ count m hτ
        split
        · rename_i st hst
          refine if_neg fun hcond => ?_
          simp only [appliesResults, hτ, hst, Option.any_some] at h
          rw [h] at hcond
          cases hcond.2
        · rfl
      · rfl
  | _ => rfl

theorem flow_of_quiet {a : Act K} (henqueues : ∀ σ, enqueuedBy s a σ = [])
    (happlies : appliesResults s a = false) (hquiet : QuietStep strict s s') (σ : Nat) :
    Flow s a s' σ where
  balance before hbefore _ := by
    refine ⟨before, ?_, fun st hst => ?_⟩
    · rw [henqueues, appliedBy_of_appliesResults happlies, List.append_nil, List.nil_append]
    · obtain ⟨st₀, hq⟩ := hquiet σ st hst
      rw [hbefore st₀ hq.before, hq.waiting]
  gone hnone _ := by
    refine ⟨henqueues σ, appliedBy_of_appliesResults happlies σ, ?_⟩
    cases hst : s'.state σ with
    | none => rfl
    | some st =>
        obtain ⟨st₀, hq⟩ := hquiet σ st hst
        exact absurd (hnone.symm.trans hq.before) (by simp)
  unused _ := henqueues σ

omit [DecidableEq K] in
theorem QuietStep.works (h : QuietStep strict s s') (hstrict : strict) (hs : Works s) : Works s' := by
  intro σ st hst
  obtain ⟨st₀, hq⟩ := h σ st hst
  exact hq.works hstrict (hs σ st₀ hq.before)

theorem PivotInv.flow_applyMaplet (h : PivotInv strict s) {t σ count m : Nat} {st : PivotState K}
    {l : Multiset Task} (ha : AtTask s t σ (.built σ count m) st l) {pvt : Pivot K}
    (hmatch : matchingPivot s st count = some pvt) (hs' : applyMaplet s t σ count m = some s') :
    (∀ ρ, Flow s (.apply t) s' ρ) ∧ (Works s → Works s') := by
  have hok := ha.stateOk h
  rw [applyMaplet, ha.state, Option.bind_some] at hs'
  split at hs'
  · cases hs'
  rw [hmatch] at hs'
  have hs := Option.some.inj hs'
  have hself : s'.state σ = some { st with maplet := m } := by
    rw [← hs]
    exact Function.update_self _ _ _
  have hstate : ∀ ρ, ρ ≠ σ → s'.state ρ = s.state ρ := fun ρ hρ => by
    rw [← hs]
    exact Function.update_of_ne hρ _ _
  have htask : ∀ ρ queue, unapplied queue (tasksOf s' ρ) =
      unapplied queue (tasksIn (s.task.set t (.applied σ count)) ρ) := fun ρ queue => by
    rw [← hs]
    rfl
  have happlied : ∀ ρ, appliedBy s (.apply t) ρ =
      if ρ = σ then (st.bundleCompactions.take count).map (·.id) else [] := by
    intro ρ
    simp only [appliedBy, ha.task, ha.state, hmatch, Option.isSome_some, and_true]
    by_cases hρ : ρ = σ
    · rw [if_pos hρ, if_pos hρ.symm]
    · rw [if_neg hρ, if_neg (Ne.symm hρ)]
  have hall := unapplied_built hok
  rw [unapplied_cons] at hall
  change unapplied st.bundleCompactions l = st.bundleCompactions at hall
  refine ⟨fun ρ => ⟨fun before hbefore _ => ?_, fun hnone _ => ?_, fun _ => rfl⟩, ?_⟩
  · rw [enqueuedBy_of_enqueuesCompaction rfl, List.append_nil, happlied]
    by_cases hρ : ρ = σ
    · subst hρ
      refine ⟨(st.bundleCompactions.drop count).map (·.id), ?_, fun st₁ hst₁ => ?_⟩
      · rw [if_pos rfl, hbefore st ha.state, waiting, ha.tasks, unapplied_built hok, ← List.map_append,
          List.take_append_drop]
      · rw [hself] at hst₁
        obtain rfl := Option.some.inj hst₁
        rw [ha.self (.applied ρ count) htask (Or.inl rfl), unapplied_cons]
        change _ = (List.drop count (unapplied st.bundleCompactions l)).map _
        rw [hall]
    · refine ⟨before, by rw [if_neg hρ, List.nil_append], fun st₁ hst₁ => ?_⟩
      rw [hstate ρ hρ] at hst₁
      rw [hbefore st₁ hst₁, ha.others (.applied σ count) htask (Or.inl rfl) hρ]
  · have hρ : ρ ≠ σ := by
      rintro rfl
      rw [ha.state] at hnone
      cases hnone
    exact ⟨rfl, by rw [happlied, if_neg hρ], (hstate ρ hρ).trans hnone⟩
  · intro hworks ρ st₁ hst₁
    by_cases hρ : ρ = σ
    · subst hρ
      rw [hself] at hst₁
      obtain rfl := Option.some.inj hst₁
      exact hworks ρ st ha.state
    · rw [hstate ρ hρ] at hst₁
      exact hworks ρ st₁ hst₁

/-- What an incorporation that enqueues a compaction does to the states. -/
structure Enqueued (s s' : TrunkState K) (p : PivotId K) (σ : Nat) : Prop where
  address : σ = (s.map p).getD s.nextState
  lt : σ < s'.nextState
  nextState : s.nextState ≤ s'.nextState
  nextCompaction : s'.nextCompaction = s.nextCompaction + 1
  others : ∀ ρ, ρ ≠ σ → s'.state ρ = s.state ρ ∧ tasksOf s' ρ = tasksOf s ρ
  self : ∃ st', s'.state σ = some st' ∧
    ((s.state σ = none ∧ s.map p = none ∧ waiting s' σ st' = [s.nextCompaction] ∧ st'.Works) ∨
      ∃ st, s.state σ = some st ∧ waiting s' σ st' = waiting s σ st ++ [s.nextCompaction] ∧
        (st.Works → st'.Works))

theorem getOrCreateEntry_eq_some {p : PivotId K} {pvt : Pivot K} {σ : Nat} {st : PivotState K}
    {s₁ : TrunkState K} (h : getOrCreateEntry s p pvt = some (σ, st, s₁)) :
    σ = (s.map p).getD s.nextState ∧ (s.map p = none → st.mapletCompactionFailed = false) := by
  rw [getOrCreateEntry] at h
  split at h
  · rename_i ρ hmap
    obtain ⟨st₀, -, heq⟩ := Option.map_eq_some_iff.mp h
    rw [hmap, Option.getD_some]
    exact ⟨(Prod.mk.inj heq).1.symm, fun hnone => absurd hnone (by simp)⟩
  · rename_i hmap
    rw [hmap, Option.getD_none]
    obtain ⟨hσ, heq⟩ := Prod.mk.inj (Option.some.inj h)
    exact ⟨hσ.symm, fun _ => by rw [← (Prod.mk.inj heq).1]⟩

theorem PivotInv.enqueued (h : PivotInv strict s) (hmod : s.modifying = none) {p : PivotId K}
    {pvt : Pivot K} (hpvt : s.pivot p = some pvt) {bundles : List Bundle} {n : Nat}
    (hs' : enqueueBundleCompaction
      (s.setPivot p { pvt with inflight := pvt.inflight ++ bundles }) p
      { pvt with inflight := pvt.inflight ++ bundles } n = some s') : ∃ σ, Enqueued s s' p σ := by
  obtain ⟨σ, st, s₁, old, l, hlook, hl⟩ :=
    h.looked hpvt { pvt with inflight := pvt.inflight ++ bundles } rfl rfl
  obtain ⟨haddress, hnew⟩ := getOrCreateEntry_eq_some hlook
  rw [enqueueBundleCompaction, hlook, Option.bind_some] at hs'
  obtain ⟨bc, hcreate, hs'⟩ := Option.bind_eq_some_iff.mp hs'
  obtain ⟨st', happend, hs'⟩ := Option.map_eq_some_iff.mp hs'
  obtain ⟨-, -, -, hid, -⟩ := bundleCompactionCreate_eq_some hcreate
  change bc.id = s.nextCompaction at hid
  have hst' := appendCompaction_eq_some happend
  obtain ⟨hrest₁, hrest₂, -⟩ := hl.rest
  have hsum : (l.map Task.appliedCount).sum = 0 := hl.tasks ▸ h.noneApplied hmod σ
  have hunapplied : ∀ queue, unapplied queue l = queue := fun queue => by
    rw [unapplied, hsum, List.drop_zero]
  have htasks : ∀ ρ, tasksOf s' ρ =
      if ρ = σ then .bundle σ ::ₘ tasksOf s ρ else tasksOf s ρ := by
    intro ρ
    rw [← hs', tasksOf]
    change tasksIn (s₁.task ++ [.bundle σ]) ρ = _
    rw [tasksIn_append, hrest₂, tasksOf]
    by_cases hρ : ρ = σ
    · have hbundle : (Task.bundle σ).state = some ρ := congrArg some hρ.symm
      rw [if_pos hρ, if_pos hbundle]
    · have hbundle : (Task.bundle σ).state ≠ some ρ := fun heq => hρ (Option.some.inj heq).symm
      rw [if_neg hρ, if_neg hbundle]
  have hwaiting : waiting s' σ st' = old.bundleCompactions.map (·.id) ++ [s.nextCompaction] := by
    rw [waiting, htasks, if_pos rfl, hl.tasks, unapplied_cons, hunapplied, hst', hl.state]
    change ((old.bundleCompactions ++ [bc]).drop 0).map _ = _
    rw [List.drop_zero, List.map_append, List.map_singleton, hid]
  have hfailed : st'.mapletCompactionFailed = st.mapletCompactionFailed := by rw [hst']
  have hworks : st'.mapletCompactionFailed = old.mapletCompactionFailed ∧
      st'.abandoned = old.abandoned := by
    rw [hst', hl.state]
    exact ⟨rfl, rfl⟩
  refine ⟨σ, haddress, by rw [← hs']; exact hl.lt, by rw [← hs']; exact hl.nextState,
    by rw [← hs']; rfl, fun ρ hρ => ⟨?_, ?_⟩, st', ?_, ?_⟩
  · rw [← hs', ← hrest₁]
    exact Function.update_of_ne hρ _ _
  · exact (htasks ρ).trans (if_neg hρ)
  · rw [← hs']
    exact Function.update_self _ _ _
  · rcases hl.claim with ⟨hnone, hmap, -, hnil, -⟩ | ⟨hold, -, -⟩
    · refine Or.inl ⟨hnone, hmap, hwaiting.trans (by rw [hnil]; rfl), fun hset => ?_⟩
      rw [hfailed, hnew hmap] at hset
      cases hset
    · refine Or.inr ⟨old, hold, hwaiting.trans ?_, fun hold => ?_⟩
      · rw [waiting, hl.tasks, hunapplied]
      · rw [PivotState.Works, hworks.1, hworks.2]
        exact hold

theorem Enqueued.flow {s₁ : TrunkState K} {p : PivotId K} {σ : Nat} (hE : Enqueued s₁ s' p σ)
    (hquiet : QuietStep strict s s₁) {a : Act K} (happlies : appliesResults s a = false)
    (henqueues : ∀ ρ, enqueuedBy s a ρ = if ρ = σ then [s₁.nextCompaction] else [])
    (hnone : s₁.state σ = none → s.state σ = none) (hgone : s.state σ = none → s.nextState ≤ σ)
    (ρ : Nat) : Flow s a s' ρ := by
  have happlied := appliedBy_of_appliesResults happlies
  by_cases hρ : ρ = σ
  · subst hρ
    obtain ⟨st', hst', hself⟩ := hE.self
    refine ⟨fun before hbefore hempty => ⟨before ++ [s₁.nextCompaction], ?_, fun st hst => ?_⟩,
      fun hdead hlt => absurd (hgone hdead) (by omega), fun hle => absurd hE.lt (by omega)⟩
    · rw [happlied, henqueues, if_pos rfl, List.nil_append]
    · obtain rfl := Option.some.inj (hst'.symm.trans hst)
      rcases hself with ⟨hdead, -, hwaiting, -⟩ | ⟨st₁, hst₁, hwaiting, -⟩
      · rw [hempty (hnone hdead), hwaiting]
        rfl
      · obtain ⟨st₀, hq⟩ := hquiet ρ st₁ hst₁
        rw [hbefore st₀ hq.before, hwaiting, hq.waiting]
  · obtain ⟨hstate, htasks⟩ := hE.others ρ hρ
    have henq : enqueuedBy s a ρ = [] := (henqueues ρ).trans (if_neg hρ)
    refine ⟨fun before hbefore _ => ⟨before, ?_, fun st hst => ?_⟩, fun hdead _ => ?_, fun _ => henq⟩
    · rw [happlied, henq, List.append_nil, List.nil_append]
    · rw [hstate] at hst
      obtain ⟨st₀, hq⟩ := hquiet ρ st hst
      rw [hbefore st₀ hq.before, ← hq.waiting, waiting, waiting, htasks]
    · refine ⟨henq, happlied ρ, ?_⟩
      cases hst : s'.state ρ with
      | none => rfl
      | some st =>
          rw [hstate] at hst
          obtain ⟨st₀, hq⟩ := hquiet ρ st hst
          exact absurd (hdead.symm.trans hq.before) (by simp)

omit [DecidableEq K] in
theorem Enqueued.works {p : PivotId K} {σ : Nat} (hE : Enqueued s s' p σ) (hs : Works s) :
    Works s' := by
  intro ρ st hst
  by_cases hρ : ρ = σ
  · subst hρ
    obtain ⟨st', hst', hself⟩ := hE.self
    obtain rfl := Option.some.inj (hst'.symm.trans hst)
    rcases hself with ⟨-, -, -, hworks⟩ | ⟨st₀, hst₀, -, hworks⟩
    · exact hworks
    · exact hworks (hs ρ st₀ hst₀)
  · rw [(hE.others ρ hρ).1] at hst
    exact hs ρ st hst

theorem counters_abandonEntry (s : TrunkState K) (p : PivotId K) :
    (abandonEntry s p).nextState = s.nextState ∧
      (abandonEntry s p).nextCompaction = s.nextCompaction := by
  rw [abandonEntry]
  split
  · exact ⟨rfl, rfl⟩
  · split
    · exact ⟨rfl, rfl⟩
    · rw [mapRemove_nextState, mapRemove_nextCompaction]
      exact ⟨rfl, rfl⟩

theorem counters_perform {a : Act K} (hnot : enqueuesCompaction a = false)
    (hs' : perform s a = some s') :
    s'.nextState = s.nextState ∧ s'.nextCompaction = s.nextCompaction := by
  have hsame : SameTable s s' → s'.nextState = s.nextState ∧ s'.nextCompaction = s.nextCompaction :=
    fun h => ⟨h.nextState, h.nextCompaction⟩
  cases a with
  | create p ubkey =>
      obtain rfl := Option.some.inj hs'
      exact ⟨rfl, rfl⟩
  | receive p bundles => cases hnot
  | flush p ubkey =>
      obtain ⟨pvt, -, rfl⟩ := Option.map_eq_some_iff.mp hs'
      exact counters_abandonEntry s p
  | split p ubkey bundles => cases hnot
  | next t =>
      obtain ⟨τ, -, hnext⟩ := Option.bind_eq_some_iff.mp hs'
      by_cases hrel : ∃ σ, τ = .releasing σ
      · obtain ⟨σ, rfl⟩ := hrel
        obtain ⟨st, -, hnext⟩ := Option.bind_eq_some_iff.mp hnext
        split at hnext
        · cases hnext
        · obtain rfl := Option.some.inj hnext
          exact ⟨mapRemove_nextState _ _ _, mapRemove_nextCompaction _ _ _⟩
        · obtain rfl := Option.some.inj hnext
          exact ⟨rfl, rfl⟩
      · exact hsame (sameTable_nextOf hnext fun σ heq => hrel ⟨σ, heq⟩)
  | apply t =>
      rw [perform] at hs'
      split at hs'
      · obtain ⟨st, -, hs'⟩ := Option.bind_eq_some_iff.mp hs'
        split at hs'
        · cases hs'
        · split at hs'
          · obtain rfl := Option.some.inj hs'
            exact ⟨mapRemove_nextState _ _ _, mapRemove_nextCompaction _ _ _⟩
          · obtain rfl := Option.some.inj hs'
            exact ⟨rfl, rfl⟩
      · cases hs'
  | remount =>
      obtain rfl := Option.some.inj hs'
      exact ⟨rfl, rfl⟩
  | _ => exact hsame (sameTable_perform hs' trivial)

/-- What a step does to the queues of all states, and to the counters. -/
structure Flows (s : TrunkState K) (a : Act K) (s' : TrunkState K) : Prop where
  flow : ∀ σ, Flow s a s' σ
  nextState : s.nextState ≤ s'.nextState
  nextCompaction : s.nextCompaction ≤ s'.nextCompaction
  created : ∀ σ, enqueuedBy s a σ ≠ [] → s.nextCompaction < s'.nextCompaction

theorem PivotInv.flows_receive (h : PivotInv strict s) (hmod : s.modifying = none) {p : PivotId K}
    {bundles : List Bundle} (hs' : Trunk.perform s (.receive p bundles) = some s') :
    Flows s (.receive p bundles) s' ∧ (Works s → Works s') := by
  obtain ⟨pvt, hpvt, hreceive⟩ := Option.bind_eq_some_iff.mp hs'
  obtain ⟨σ, hE⟩ := h.enqueued hmod hpvt hreceive
  have henqueues : ∀ ρ, enqueuedBy s (.receive p bundles) ρ =
      if ρ = σ then [s.nextCompaction] else [] := by
    intro ρ
    simp only [enqueuedBy, receivingState, hs', Option.isSome_some, and_true, Option.some.injEq]
    rw [← hE.address]
    exact if_congr eq_comm rfl rfl
  have hquiet : QuietStep strict s s := quiet_of_states rfl rfl
  have hlt : s.nextCompaction < s'.nextCompaction := by
    rw [hE.nextCompaction]
    exact Nat.lt_succ_self _
  refine ⟨⟨hE.flow hquiet rfl henqueues id fun hnone => ?_,
    hE.nextState, hlt.le, fun _ _ => hlt⟩, hE.works⟩
  cases hmap : s.map p with
  | none => rw [hE.address, hmap, Option.getD_none]
  | some τ =>
      obtain ⟨st, _, hst, -⟩ := h.mapped p τ hmap
      rw [hE.address, hmap, Option.getD_some, hst] at hnone
      cases hnone

theorem PivotInv.flows_split (h : PivotInv strict s) (hmod : s.modifying = none) {p : PivotId K}
    {ubkey : K} {bundles : List Bundle} (hfresh : areFresh s p bundles = true)
    (hs' : Trunk.perform s (.split p ubkey bundles) = some s') :
    Flows s (.split p ubkey bundles) s' ∧ (strict → Works s → Works s') := by
  obtain ⟨pvt, hpvt, -⟩ := Option.bind_eq_some_iff.mp hs'
  obtain ⟨hsplit, hmap, hmod', -⟩ := h.replacesLeaf hpvt ubkey hfresh
  obtain ⟨hnextS, hnextC⟩ := counters_abandonEntry s p
  have hs₁ := hs'
  rw [Trunk.perform, restoreBalanceLeaf_eq hpvt] at hs₁
  have hnew : ((abandonEntry s p).setPivot p (splitPivot pvt ubkey)).pivot p =
      some (splitPivot pvt ubkey) := Function.update_self _ _ _
  obtain ⟨σ, hE⟩ := hsplit.enqueued (hmod'.trans hmod) hnew hs₁
  have haddress : σ = s.nextState := by
    have hget := hE.address
    change σ = ((abandonEntry s p).map p).getD (abandonEntry s p).nextState at hget
    rw [hget, hmap, hnextS, Option.getD_none]
  have hquiet : QuietStep strict s ((abandonEntry s p).setPivot p (splitPivot pvt ubkey)) := by
    intro ρ st₁ hst₁
    obtain ⟨st₀, hq⟩ := (h.carried_abandonEntry (a := .split p ubkey bundles) p).quiet (by simp) rfl
      ρ st₁ hst₁
    exact ⟨st₀, hq.before, hq.waiting, hq.works⟩
  have henqueues : ∀ ρ, enqueuedBy s (.split p ubkey bundles) ρ =
      if ρ = σ then [(abandonEntry s p).nextCompaction] else [] := by
    intro ρ
    simp only [enqueuedBy, receivingState, hs', Option.isSome_some, and_true, Option.some.injEq]
    rw [hnextC, haddress]
    exact if_congr eq_comm rfl rfl
  have hlt : s.nextCompaction < s'.nextCompaction := by
    rw [hE.nextCompaction]
    exact Nat.lt_succ_of_le hnextC.ge
  have hdead : s.state σ = none := by
    cases hst : s.state σ with
    | none => rfl
    | some st => exact absurd (h.older σ st hst).1 (by omega)
  exact ⟨⟨hE.flow hquiet rfl henqueues (fun _ => hdead) fun _ => haddress.ge,
    hnextS.ge.trans hE.nextState, hlt.le, fun _ _ => hlt⟩,
    fun hstrict hworks => hE.works (hquiet.works hstrict hworks)⟩

theorem PivotInv.flows (h : PivotInv strict s) {a : Act K}
    (hguard : strict → NoMapletFailure s a) (hstep : Trunk.trunkNext s a = some s') :
    Flows s a s' ∧ (strict → Works s → Works s') := by
  rw [Trunk.trunkNext] at hstep
  split at hstep
  swap
  · cases hstep
  rename_i hcond
  rw [Bool.and_eq_true] at hcond
  obtain ⟨-, hen⟩ := hcond
  have hidle : enqueuesCompaction a = false → ∀ s', Trunk.perform s a = some s' →
      (∀ σ, Flow s a s' σ) ∧ (strict → Works s → Works s') →
      Flows s a s' ∧ (strict → Works s → Works s') := by
    intro hnot s' hs' hflow
    obtain ⟨hnextS, hnextC⟩ := counters_perform hnot hs'
    exact ⟨⟨hflow.1, hnextS.ge, hnextC.ge, fun σ hne =>
      absurd (enqueuedBy_of_enqueuesCompaction hnot σ) hne⟩, hflow.2⟩
  cases hs' : Trunk.perform s a with
  | none =>
      -- an assertion fails
      rw [hs'] at hstep
      obtain rfl := Option.some.inj hstep
      have henqueues : ∀ σ, enqueuedBy s a σ = [] := fun σ =>
        if_neg fun hcond => by
          rw [hs'] at hcond
          cases hcond.2
      have happlies : appliesResults s a = false := by
        cases a with
        | apply t =>
            obtain ⟨s₁, hs₁, -⟩ := h.performs hen (fun hstrict => (hguard hstrict).early) rfl
            rw [hs'] at hs₁
            cases hs₁
        | _ => rfl
      have hquiet : QuietStep strict s { s with failed := true } := quiet_of_states rfl rfl
      exact ⟨⟨flow_of_quiet henqueues happlies hquiet, le_rfl, le_rfl,
        fun σ hne => absurd (henqueues σ) hne⟩, fun _ hworks => hworks⟩
  | some s₁ =>
      rw [hs'] at hstep
      obtain rfl := Option.some.inj hstep
      cases hact : enqueuesCompaction a with
      | true =>
          cases a with
          | receive p bundles =>
              simp only [enabled, Bool.and_eq_true, Option.isNone_iff_eq_none] at hen
              obtain ⟨hflows, hworks⟩ := h.flows_receive hen.1.1 hs'
              exact ⟨hflows, fun _ => hworks⟩
          | split p ubkey bundles =>
              simp only [enabled, Bool.and_eq_true, Option.isNone_iff_eq_none] at hen
              exact h.flows_split hen.1.1.1 hen.1.2 hs'
          | _ => cases hact
      | false =>
          refine hidle hact s₁ hs' ?_
          cases happlies : appliesResults s a with
          | false =>
              have hquiet := (h.carried_perform hact hs').quiet
                (fun hstrict => (hguard hstrict).completes) happlies
              exact ⟨flow_of_quiet (enqueuedBy_of_enqueuesCompaction hact) happlies hquiet, hquiet.works⟩
          | true =>
              cases a with
              | apply t =>
                  rw [Trunk.perform] at hs'
                  split at hs'
                  · rename_i σ count m hτ
                    obtain ⟨st, l, ha⟩ := h.atTask hτ rfl
                    obtain ⟨pvt, hmatch⟩ : ∃ pvt, matchingPivot s st count = some pvt := by
                      simpa [appliesResults, hτ, ha.state, Option.isSome_iff_exists] using happlies
                    obtain ⟨hflow, hworks⟩ := h.flow_applyMaplet ha hmatch hs'
                    exact ⟨hflow, fun _ => hworks⟩
                  · cases hs'
              | _ => cases happlies

end Flow

/-! ## Runs -/

section Runs

variable {s s' : TrunkState K} {tr : List (TrunkState K × Act K)}

/-- What a run has enqueued for a state is applied, or waits while the state is in memory. -/
structure Queued (tr : List (TrunkState K × Act K)) (s : TrunkState K) (σ : Nat) : Prop where
  order : ∃ rest, enqueuedIn tr σ = appliedIn tr σ ++ rest ∧
    ∀ st, s.state σ = some st → rest = waiting s σ st
  unused : s.nextState ≤ σ → enqueuedIn tr σ = []
  once : (enqueuedIn tr σ).Nodup
  older : ∀ id ∈ enqueuedIn tr σ, id < s.nextCompaction

theorem enqueuedIn_snoc (tr : List (TrunkState K × Act K)) (s : TrunkState K) (a : Act K) (σ : Nat) :
    enqueuedIn (tr ++ [(s, a)]) σ = enqueuedIn tr σ ++ enqueuedBy s a σ := by
  simp [enqueuedIn]

theorem appliedIn_snoc (tr : List (TrunkState K × Act K)) (s : TrunkState K) (a : Act K) (σ : Nat) :
    appliedIn (tr ++ [(s, a)]) σ = appliedIn tr σ ++ appliedBy s a σ := by
  simp [appliedIn]

theorem enqueuedBy_eq (s : TrunkState K) (a : Act K) (σ : Nat) :
    enqueuedBy s a σ = [] ∨ enqueuedBy s a σ = [s.nextCompaction] := by
  rw [enqueuedBy]
  split
  · exact Or.inr rfl
  · exact Or.inl rfl

theorem Queued.snoc {σ : Nat} (h : Queued tr s σ) {a : Act K} (hstep : Flows s a s') :
    Queued (tr ++ [(s, a)]) s' σ := by
  obtain ⟨rest, horder, hrest⟩ := h.order
  have hflow := hstep.flow σ
  refine ⟨?_, fun hle => ?_, ?_, fun id hid => ?_⟩
  · rw [enqueuedIn_snoc, appliedIn_snoc]
    by_cases hgone : s.state σ = none ∧ σ < s.nextState
    · obtain ⟨henq, happ, hdead⟩ := hflow.gone hgone.1 hgone.2
      refine ⟨rest, by rw [henq, happ, List.append_nil, List.append_nil, horder], fun st hst => ?_⟩
      rw [hdead] at hst
      cases hst
    · obtain ⟨rest', hbalance, hrest'⟩ := hflow.balance rest hrest fun hnone => by
        have hunused := h.unused (not_lt.mp fun hlt => hgone ⟨hnone, hlt⟩)
        rw [horder] at hunused
        exact (List.append_eq_nil_iff.mp hunused).2
      exact ⟨rest', by rw [horder, List.append_assoc, hbalance, List.append_assoc], hrest'⟩
  · rw [enqueuedIn_snoc, h.unused (hstep.nextState.trans hle), hflow.unused hle, List.append_nil]
  · rw [enqueuedIn_snoc]
    rcases enqueuedBy_eq s a σ with henq | henq
    · rw [henq, List.append_nil]
      exact h.once
    · rw [henq, List.nodup_append]
      refine ⟨h.once, List.nodup_singleton _, fun id hid id' hid' heq => ?_⟩
      rw [List.mem_singleton.mp hid'] at heq
      exact absurd (h.older id hid) (by omega)
  · rw [enqueuedIn_snoc] at hid
    rcases List.mem_append.mp hid with hid | hid
    · exact (h.older id hid).trans_le hstep.nextCompaction
    · have hne : enqueuedBy s a σ ≠ [] := List.ne_nil_of_mem hid
      have hlt := hstep.created σ hne
      rw [(enqueuedBy_eq s a σ).resolve_left hne, List.mem_singleton] at hid
      omega

theorem PivotInv.noLostWakeup {strict : Prop} (h : PivotInv strict s) : NoLostWakeup s := by
  intro σ st hst _ hfailed hnone head rest hqueue hsucceeded
  have hok := h.states σ st hst
  have hmaplets := hok.maplets
  rw [hnone, hfailed] at hmaplets
  refine (hok.headSeen head rest hqueue hsucceeded).resolve_left fun hinit => ?_
  rw [hinit] at hmaplets
  cases hmaplets

/-- **The pipeline of maplet compactions.**  In every run, whatever fails, the results of a state are
applied in the order of its queue, each at most once and without a gap, and a success at the head
of the queue of a state in use is not forgotten unless a maplet compaction of the state has failed.  None
fails by itself, when no result is applied for an abandoned state. -/
theorem maplet_pipeline {low high : K} (hrun : (compactionSystem low high).Run (newTrunk low high) tr s) :
    Pipelined tr ∧ Visits NoLostWakeup tr s ∧ (Guarded NoMapletFailure tr → Visits Works tr s) := by
  have hqueued : PivotInv False s ∧ ∀ σ, Queued tr s σ := by
    refine hrun.trace_invariant (P := fun tr s => PivotInv False s ∧ ∀ σ, Queued tr s σ)
      ⟨pivotInv_newTrunk low high, fun σ => ?_⟩ ?_
    · exact ⟨⟨[], rfl, fun st hst => by cases hst⟩, fun _ => rfl, List.nodup_nil,
        fun _ hid => by cases hid⟩
    · rintro tr s a s' ⟨hinv, hqueued⟩ hstep
      obtain ⟨hflows, -⟩ := hinv.flows (fun hf => hf.elim) hstep
      exact ⟨hinv.trunkNext (fun hf => hf.elim) hstep, fun σ => (hqueued σ).snoc hflows⟩
  refine ⟨⟨fun σ => ?_, fun σ => (hqueued.2 σ).once⟩, ?_, fun hguard => ?_⟩
  · obtain ⟨rest, horder, -⟩ := (hqueued.2 σ).order
    exact ⟨rest, horder.symm⟩
  · have hall : Guarded (fun _ _ => True) tr := fun _ _ => trivial
    have hvisits : Visits (PivotInv False) tr s :=
      hrun.invariant (pivotInv_newTrunk low high)
        (fun s a s' hinv _ hstep => hinv.trunkNext (fun hf => hf.elim) hstep) hall
    exact hvisits.mono fun s hinv => hinv.noLostWakeup
  · have hvisits : Visits (fun s => PivotInv True s ∧ Works s) tr s := by
      refine hrun.invariant ⟨pivotInv_newTrunk low high, fun σ st hst => by cases hst⟩ ?_ hguard
      rintro s a s' ⟨hinv, hworks⟩ hnow hstep
      exact ⟨hinv.trunkNext (fun _ => hnow.early) hstep,
        (hinv.flows (fun _ => hnow) hstep).2 trivial hworks⟩
    exact hvisits.mono fun s h => h.2

end Runs

/-! ## Two runs -/

/-- The step neither fails nor applies results for an abandoned state. -/
def succeeds (s : TrunkState K) (a : Act K) : Bool :=
  !appliesLate s a && match a with
    | .mapletFails _ => false
    | .compactionFails _ => false
    | _ => true

theorem succeeds_sound {s : TrunkState K} {a : Act K} (h : succeeds s a = true) :
    NoMapletFailure s a := by
  have hboth := Bool.and_eq_true_iff.mp h
  refine ⟨fun t heq => ?_, by simpa using hboth.1⟩
  subst heq
  cases hboth.2

/-- Two compactions that end in the wrong order are applied in the order of the queue. -/
theorem pipeline_two_compactions : ∃ tr s, (compactionSystem 0 100).Run (newTrunk 0 100) tr s ∧
    Pipelined tr ∧ Visits NoLostWakeup tr s ∧ Visits Works tr s ∧ appliedIn tr 0 = [0, 1] := by
  have hend : (exec trunkNext (newTrunk 0 100) appliedCompactions).map
      (fun r => r.1.all (fun step => succeeds step.1 step.2) && appliedIn r.1 0 == [0, 1]) =
        some true := by decide
  obtain ⟨r, hexec, hr⟩ := Option.map_eq_some_iff.mp hend
  rw [Bool.and_eq_true, List.all_eq_true, beq_iff_eq] at hr
  have hrun : (compactionSystem 0 100).Run (newTrunk 0 100) r.1 r.2 := run_of_exec hexec
  obtain ⟨hpipelined, hwakeup, hworks⟩ := maplet_pipeline hrun
  exact ⟨r.1, r.2, hrun, hpipelined, hwakeup,
    hworks fun step hstep => succeeds_sound (hr.1 step hstep), hr.2⟩

/-- A compaction has ended, and its task is still to look at the queue. -/
def endedCompaction : List (Act Nat) :=
  [.receive (0, 0) [⟨0, [1]⟩], .next 0, .next 0, .compacted 0 3]

/-- **There is a moment between success and wakeup**: nothing has failed, no maplet compaction of the
state in use is enqueued or runs, and the head of its queue has succeeded. -/
theorem wakeup_pending : ∃ tr s, (compactionSystem 0 100).Run (newTrunk 0 100) tr s ∧
    (∀ step ∈ tr, succeeds step.1 step.2 = true) ∧
    ∃ σ st head rest, s.state σ = some st ∧ st.abandoned = false ∧
      mapletTasks (tasksOf s σ) = 0 ∧ st.bundleCompactions = head :: rest ∧
      head.status = .succeeded := by
  have hend : (exec trunkNext (newTrunk 0 100) endedCompaction).map
      (fun r => r.1.all (fun step => succeeds step.1 step.2) &&
        (r.2.state 0).any (fun st => !st.abandoned &&
          st.bundleCompactions == [⟨0, [⟨0, [1]⟩], .full, .succeeded, 3⟩]) &&
        r.2.task == [.ended 0 0]) = some true := by decide
  obtain ⟨r, hexec, hr⟩ := Option.map_eq_some_iff.mp hend
  simp only [Bool.and_eq_true, List.all_eq_true, Option.any_eq_true, Bool.not_eq_true',
    beq_iff_eq] at hr
  obtain ⟨⟨hsteps, st, hst, hab, hqueue⟩, htask⟩ := hr
  refine ⟨r.1, r.2, run_of_exec hexec, hsteps, 0, st, _, [], hst, hab, ?_, hqueue, rfl⟩
  rw [tasksOf, htask]
  decide

end Trunk
end TreePass
