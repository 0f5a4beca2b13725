import TreePass.Trunk.PivotStateSteps

/-!
# The accounts of pivot states

A compaction is enqueued for the bundles of a pivot that its state does not cover yet.  How many the
state covers is kept by the state, how many bundles are old by the node; both have to agree whenever
a state is looked up.

* `Accounted` is the agreement: what the queue of the state of the table covers are the bundles in
  flight, each once and in order, and a pivot without a state has none.
* `KeepsAccounts` is what a step must not do: free the state of a pivot, or mount the trunk, while
  bundles are in flight, or apply the results of an abandoned state.
* `accounted_of_keepsAccounts`: without such a step the accounts agree and no assertion fails.
* `accounts_disagree`: after one failed compaction the next incorporation fails.
-/

namespace TreePass
namespace Trunk

open Lib Lib.System

variable {K : Type} [DecidableEq K]

/-- **The accounts agree.**  While nobody holds the modification lock the state of the table covers
the bundles in flight, and without a state there are none, so that a new state rightly starts
from 0.  No assertion has failed. -/
structure Accounted (s : TrunkState K) : Prop where
  no_failure : s.failed = false
  created : ∀ p pvt, s.pivot p = some pvt → s.map p = none → pvt.inflight = []
  total : ∀ p pvt σ, s.pivot p = some pvt → s.map p = some σ → s.modifying = none →
    ∃ st, s.state σ = some st ∧ st.totalBundles = pvt.inflight.length ∧
      st.bundleCompactions.flatMap (·.inputs) = pvt.inflight

/-- A task is about to free the state of the table while compactions are in its queue. -/
def freesCovered (s : TrunkState K) : Act K → Bool
  | .next t =>
      match s.task[t]? with
      | some (.releasing σ) =>
          (s.state σ).any fun st =>
            st.refcount == 1 && s.map st.pivot == some σ && !st.bundleCompactions.isEmpty
      | _ => false
  | _ => false

/-- What a step is not to do: free the state of a pivot while compactions are in its queue, mount the
trunk while bundles are in flight, or apply the results of an abandoned state. -/
structure KeepsAccounts (s : TrunkState K) (a : Act K) : Prop where
  kept : freesCovered s a = false
  remount : a = .remount → ∀ p pvt, s.pivot p = some pvt → pvt.inflight = []
  early : appliesLate s a = false

def Uncovered (s : TrunkState K) : Prop :=
  ∀ p pvt, s.pivot p = some pvt → s.map p = none → pvt.inflight = []

/-! ## Enqueuing succeeds -/

section Enqueuing

variable {s : TrunkState K} {p : PivotId K} {pvt : Pivot K}

theorem PivotInv.enqueues_isSome (h : PivotInv True s) (hmod : s.modifying = none)
    (hpvt : s.pivot p = some pvt) {bundles : List Bundle} (hne : bundles ≠ [])
    (hfresh : Ledger.FreshBundles pvt (claims s p) bundles) {n : Nat}
    (hn : (s.map p = none → n = 0) ∧ ∀ σ, s.map p = some σ → n = pvt.inflight.length) :
    ∃ s', enqueueBundleCompaction
      (s.setPivot p { pvt with inflight := pvt.inflight ++ bundles }) p
      { pvt with inflight := pvt.inflight ++ bundles } n = some s' := by
  obtain ⟨σ, st, s₁, old, l, hlook, hl⟩ :=
    h.looked hpvt { pvt with inflight := pvt.inflight ++ bundles } rfl rfl
  have hsum : (l.map Task.appliedCount).sum = 0 := hl.tasks ▸ h.noneApplied hmod σ
  have htotal : old.totalBundles = n ∧ n ≤ pvt.inflight.length := by
    rw [hl.stateOk.total]
    rcases hl.claim with ⟨-, hnone, -, hnil, -⟩ | ⟨-, hmap, hm⟩
    · rw [hnil, hn.1 hnone]
      exact ⟨rfl, Nat.zero_le _⟩
    · rw [hn.2 σ hmap]
      obtain ⟨hall, -⟩ := hm.covers.resolve_right fun hless => hless.1 trivial
      rw [claimOf, unapplied, hsum, List.drop_zero] at hall
      exact ⟨by rw [← hall], le_rfl⟩
  obtain ⟨htotal, hle⟩ := htotal
  have hinputs : 0 < ((pvt.inflight ++ bundles).drop old.totalBundles).length := by
    have hpos := List.length_pos_of_ne_nil hne
    rw [List.length_drop, List.length_append, htotal]
    omega
  have hstate := hl.state
  subst hstate
  have hcond : old.totalBundles = n ∧
      0 < ((pvt.inflight ++ bundles).drop old.totalBundles).length := ⟨htotal, hinputs⟩
  obtain ⟨bc, hbc⟩ : ∃ bc, bundleCompactionCreate s.nextCompaction p
      { pvt with inflight := pvt.inflight ++ bundles } n
      { old with refcount := old.refcount + 1 } = some bc :=
    ⟨_, by simp only [bundleCompactionCreate]; exact if_pos hcond⟩
  obtain ⟨-, hbcInputs, hbcNe, -⟩ := bundleCompactionCreate_eq_some hbc
  have hbranches : 0 < (bc.inputs.flatMap (·.branches)).length := by
    obtain ⟨b, rest, hcons⟩ := List.exists_cons_of_ne_nil hbcNe
    have hb : b ∈ bc.inputs := hcons ▸ List.mem_cons_self
    rw [hbcInputs] at hb
    have hbne : b.branches ≠ [] := by
      rcases List.mem_append.mp (List.mem_of_mem_drop hb) with hb | hb
      · exact (h.ledger p pvt hpvt).nonempty b hb
      · exact hfresh.nonempty b hb
    have hlen := List.length_pos_of_ne_nil hbne
    rw [hcons, List.flatMap_cons, List.length_append]
    omega
  rw [enqueueBundleCompaction, hlook, Option.bind_some]
  change ∃ s', (bundleCompactionCreate s.nextCompaction p _ n _).bind _ = some s'
  rw [hbc, Option.bind_some, appendCompaction, if_pos hbranches]
  exact ⟨_, rfl⟩

end Enqueuing

/-! ## What a step does to the table -/

section Table

variable {s s' : TrunkState K}

/-- Neither a pivot nor the table has changed, no assertion has failed and nothing has been created. -/
structure SameTable (s s' : TrunkState K) : Prop where
  pivot : s'.pivot = s.pivot
  map : s'.map = s.map
  failed : s'.failed = s.failed
  nextState : s'.nextState = s.nextState
  nextCompaction : s'.nextCompaction = s.nextCompaction

omit [DecidableEq K] in
theorem SameTable.uncovered (h : SameTable s s') (hs : Uncovered s) :
    Uncovered s' ∧ s'.failed = s.failed := by
  refine ⟨fun p pvt hpvt hmap => ?_, h.failed⟩
  rw [h.pivot] at hpvt
  rw [h.map] at hmap
  exact hs p pvt hpvt hmap

omit [DecidableEq K] in
theorem SameTable.enqueueMapletCompaction (h : SameTable s s') (σ : Nat) (st : PivotState K) :
    SameTable s (enqueueMapletCompaction s' σ st) := by
  rw [Trunk.enqueueMapletCompaction]
  split <;> exact ⟨h.pivot, h.map, h.failed, h.nextState, h.nextCompaction⟩

theorem sameTable_nextOf {t : Nat} {τ : Task} (h : nextOf s t τ = some s')
    (hτ : ∀ σ, τ ≠ .releasing σ) : SameTable s s' := by
  cases τ with
  | bundle σ =>
      obtain ⟨st, -, rfl⟩ := Option.map_eq_some_iff.mp h
      exact ⟨rfl, rfl, rfl, rfl, rfl⟩
  | picking σ =>
      obtain ⟨st, -, h⟩ := Option.bind_eq_some_iff.mp h
      obtain ⟨bc, -, h⟩ := Option.bind_eq_some_iff.mp h
      split at h
      · obtain rfl := Option.some.inj h
        exact ⟨rfl, rfl, rfl, rfl, rfl⟩
      · cases h
  | maplet σ =>
      obtain ⟨st, -, rfl⟩ := Option.map_eq_some_iff.mp h
      split <;> exact ⟨rfl, rfl, rfl, rfl, rfl⟩
  | building σ count m =>
      obtain rfl := Option.some.inj h
      exact ⟨rfl, rfl, rfl, rfl, rfl⟩
  | applied σ count =>
      obtain ⟨st, -, h⟩ := Option.bind_eq_some_iff.mp h
      split at h
      · cases h
      · dsimp only at h
        split at h
        · obtain rfl := Option.some.inj h
          exact ⟨rfl, rfl, rfl, rfl, rfl⟩
        · split at h
          · obtain rfl := Option.some.inj h
            refine SameTable.enqueueMapletCompaction ?_ _ _
            exact ⟨rfl, rfl, rfl, rfl, rfl⟩
          · obtain rfl := Option.some.inj h
            exact ⟨rfl, rfl, rfl, rfl, rfl⟩
  | releasing σ => exact absurd rfl (hτ σ)
  | done => cases h
  | compacting σ id => cases h
  | ended σ id => cases h
  | built σ count m => cases h

theorem sameTable_perform {a : Act K} (h : perform s a = some s')
    (ha : match a with
      | .compacted _ _ | .compactionFails _ | .decide _ _ | .add _ _ | .mapletFails _ => True
      | _ => False) : SameTable s s' := by
  cases a with
  | compacted t o =>
      rw [perform] at h
      split at h
      · obtain ⟨st, -, rfl⟩ := Option.map_eq_some_iff.mp h
        exact ⟨rfl, rfl, rfl, rfl, rfl⟩
      · cases h
  | compactionFails t =>
      rw [perform] at h
      split at h
      · obtain ⟨st, -, rfl⟩ := Option.map_eq_some_iff.mp h
        exact ⟨rfl, rfl, rfl, rfl, rfl⟩
      · cases h
  | decide t reused =>
      rw [perform] at h
      split at h
      · obtain ⟨st, -, rfl⟩ := Option.map_eq_some_iff.mp h
        split
        · refine SameTable.enqueueMapletCompaction ?_ _ _
          exact ⟨rfl, rfl, rfl, rfl, rfl⟩
        · exact ⟨rfl, rfl, rfl, rfl, rfl⟩
      · cases h
  | add t filter =>
      rw [perform] at h
      split at h
      · obtain ⟨st, -, h⟩ := Option.bind_eq_some_iff.mp h
        obtain ⟨bc, -, h⟩ := Option.bind_eq_some_iff.mp h
        split at h
        · obtain rfl := Option.some.inj h
          exact ⟨rfl, rfl, rfl, rfl, rfl⟩
        · cases h
      · cases h
  | mapletFails t =>
      rw [perform] at h
      split at h
      · obtain ⟨st, -, rfl⟩ := Option.map_eq_some_iff.mp h
        exact ⟨rfl, rfl, rfl, rfl, rfl⟩
      · obtain ⟨st, -, rfl⟩ := Option.map_eq_some_iff.mp h
        exact ⟨rfl, rfl, rfl, rfl, rfl⟩
      · cases h
  | _ => cases ha

/-- A pivot other than `p` without a state has nothing in flight. -/
def UncoveredBut (s : TrunkState K) (p : PivotId K) : Prop :=
  ∀ q pvt, q ≠ p → s.pivot q = some pvt → s.map q = none → pvt.inflight = []

omit [DecidableEq K] in
theorem Uncovered.but (h : Uncovered s) (p : PivotId K) : UncoveredBut s p :=
  fun q pvt _ => h q pvt

theorem UncoveredBut.at {p : PivotId K} (h : UncoveredBut s p)
    (hpivot : ∀ q, q ≠ p → s'.pivot q = s.pivot q)
    (hmap : ∀ q, q ≠ p → s'.map q = none → s.map q = none)
    (hself : ∀ pvt, s'.pivot p = some pvt → s'.map p = none → pvt.inflight = []) :
    Uncovered s' := by
  intro q pvt hpvt hnone
  by_cases hq : q = p
  · subst hq
    exact hself pvt hpvt hnone
  · rw [hpivot q hq] at hpvt
    exact h q pvt hq hpvt (hmap q hq hnone)

theorem Uncovered.release (h : Uncovered s) (hinv : PivotInv True s) {t σ : Nat} {st : PivotState K}
    {l : Multiset Task} (ha : AtTask s t σ (.releasing σ) st l)
    (hguard : st.refcount = 1 → s.map st.pivot = some σ → st.bundleCompactions = [])
    (hs' : releaseEntry (s.goto t .done) σ = some s') :
    Uncovered s' ∧ s'.failed = s.failed := by
  have hst : (s.goto t .done).state σ = some st := ha.state
  rw [releaseEntry, hst, Option.bind_some] at hs'
  split at hs'
  · cases hs'
  · rename_i hlast
    obtain rfl := Option.some.inj hs'
    have hfailed : ((s.goto t .done).mapRemove σ st.pivot).failed = s.failed := by
      rw [TrunkState.mapRemove]
      split <;> rfl
    refine ⟨(h.but st.pivot).at (fun q _ => ?_) (fun q hq hnone => ?_) (fun pvt hpvt hnone => ?_),
      hfailed⟩
    · change ((s.goto t .done).mapRemove σ st.pivot).pivot q = _
      rw [mapRemove_pivot]
      rfl
    · change ((s.goto t .done).mapRemove σ st.pivot).map q = none at hnone
      rwa [mapRemove_map_of_ne _ σ hq] at hnone
    · change ((s.goto t .done).mapRemove σ st.pivot).pivot st.pivot = some pvt at hpvt
      rw [mapRemove_pivot] at hpvt
      cases hmap : s.map st.pivot with
      | none => exact h _ pvt hpvt hmap
      | some τ =>
          have hτ : τ = σ := by
            by_contra hne
            have hkept : ((s.goto t .done).mapRemove σ st.pivot).map st.pivot = some τ :=
              mapRemove_map_self.mpr ⟨hmap, hne⟩
            exact absurd (hkept.symm.trans hnone) (by simp)
          subst hτ
          have hqueue := hguard hlast hmap
          obtain ⟨st₀, pvt₀, hst₀, hpvt₀, hm⟩ := hinv.mapped _ τ hmap
          obtain rfl : st = st₀ := Option.some.inj (ha.state.symm.trans hst₀)
          obtain rfl : pvt₀ = pvt := Option.some.inj (hpvt₀.symm.trans hpvt)
          obtain ⟨hall, -⟩ := hm.covers.resolve_right fun hless => hless.1 trivial
          rw [← hall, claimOf, hqueue, unapplied, List.drop_nil]
          rfl
  · obtain rfl := Option.some.inj hs'
    exact SameTable.uncovered (s := s) ⟨rfl, rfl, rfl, rfl, rfl⟩ h

theorem Uncovered.apply (h : Uncovered s) (hinv : PivotInv True s) {t σ count m : Nat}
    {st : PivotState K} {l : Multiset Task} (ha : AtTask s t σ (.built σ count m) st l)
    (hs' : applyMaplet s t σ count m = some s') : Uncovered s' ∧ s'.failed = s.failed := by
  rw [applyMaplet, ha.state, Option.bind_some] at hs'
  split at hs'
  · cases hs'
  · split at hs'
    · -- no match: the state has been abandoned and is not in the table
      rename_i hnone
      obtain rfl := Option.some.inj hs'
      have hab : st.abandoned = true := by
        cases hab : st.abandoned with
        | true => rfl
        | false =>
            obtain ⟨pvt, hsome⟩ := hinv.findsMatch trivial ha hab
            rw [hnone] at hsome
            cases hsome
      have hkept : s.mapRemove σ st.pivot = s := by
        rw [TrunkState.mapRemove, if_neg]
        intro hmap
        obtain ⟨st₀, pvt₀, hst₀, -, hm⟩ := hinv.mapped _ σ hmap
        obtain rfl : st = st₀ := Option.some.inj (ha.state.symm.trans hst₀)
        rw [hm.abandoned] at hab
        cases hab
      rw [hkept]
      exact SameTable.uncovered (s := s) ⟨rfl, rfl, rfl, rfl, rfl⟩ h
    · rename_i pvt hmatch
      obtain rfl := Option.some.inj hs'
      have hpvt := (hinv.matched ha hmatch).pivot
      refine ⟨(h.but st.pivot).at (fun q hq => Function.update_of_ne hq _ _)
        (fun q _ hnone => hnone) (fun pvt' hpvt' hnone => ?_), rfl⟩
      change Function.update s.pivot st.pivot _ st.pivot = some pvt' at hpvt'
      rw [Function.update_self] at hpvt'
      rw [← Option.some.inj hpvt', applyToPivot, h _ pvt hpvt hnone, List.drop_nil]

theorem abandonEntry_failed (s : TrunkState K) (p : PivotId K) :
    (abandonEntry s p).failed = s.failed := by
  rw [abandonEntry]
  split
  · rfl
  · split
    · rfl
    · rw [TrunkState.mapRemove]
      split <;> rfl

theorem UncoveredBut.enqueue {p : PivotId K} (h : UncoveredBut s p) (hinv : PivotInv True s)
    {pvt : Pivot K} (hpvt : s.pivot p = some pvt) {bundles : List Bundle} {n : Nat}
    (hs' : enqueueBundleCompaction (s.setPivot p { pvt with inflight := pvt.inflight ++ bundles }) p
      { pvt with inflight := pvt.inflight ++ bundles } n = some s') :
    Uncovered s' ∧ s'.failed = s.failed := by
  obtain ⟨σ, st, s₁, old, l, hlook, hl⟩ :=
    hinv.looked hpvt { pvt with inflight := pvt.inflight ++ bundles } rfl rfl
  rw [enqueueBundleCompaction, hlook, Option.bind_some] at hs'
  obtain ⟨bc, -, hs'⟩ := Option.bind_eq_some_iff.mp hs'
  obtain ⟨st', -, rfl⟩ := Option.map_eq_some_iff.mp hs'
  obtain ⟨-, -, hpivot, -, -, hfailed⟩ := hl.rest
  refine ⟨h.at (fun q hq => ?_) (fun q hq hnone => ?_) (fun pvt' _ hnone => ?_), hfailed⟩
  · change Function.update s₁.pivot p _ q = _
    rw [Function.update_of_ne hq, hpivot]
  · rw [← hl.map q hq]
    exact hnone
  · change s₁.map p = none at hnone
    rw [hl.self] at hnone
    cases hnone

end Table

/-! ## Guarded runs -/

section Runs

variable {s s' : TrunkState K}

theorem Uncovered.perform (h : Uncovered s) (hinv : PivotInv True s) {a : Act K}
    (hen : enabled s a = true) (hguard : KeepsAccounts s a) :
    ∃ s', perform s a = some s' ∧ PivotInv True s' ∧ Uncovered s' ∧ s'.failed = s.failed := by
  have hlate : True → appliesLate s a = false := fun _ => hguard.early
  have hidle : enqueuesCompaction a = false → ∃ s', Trunk.perform s a = some s' ∧
      PivotInv True s' := fun hnot => hinv.performs hen hlate hnot
  cases a with
  | create p ubkey =>
      obtain ⟨s', hs', hinv'⟩ := hidle rfl
      refine ⟨s', hs', hinv', ?_⟩
      obtain rfl := Option.some.inj hs'
      refine ⟨(h.but p).at (fun q hq => Function.update_of_ne hq _ _) (fun q _ hnone => hnone)
        (fun pvt hpvt _ => ?_), rfl⟩
      change Function.update s.pivot p _ p = some pvt at hpvt
      rw [Function.update_self] at hpvt
      exact Option.some.inj hpvt ▸ rfl
  | receive p bundles =>
      simp only [enabled, Bool.and_eq_true, Option.isNone_iff_eq_none] at hen
      obtain ⟨⟨hmod, hsome⟩, hfresh⟩ := hen
      obtain ⟨pvt, hpvt⟩ := Option.isSome_iff_exists.mp hsome
      obtain ⟨hne, hbundles⟩ := hinv.freshBundles hfresh hpvt
      obtain ⟨s', hs'⟩ := hinv.enqueues_isSome (n := pvt.inflight.length) hmod hpvt hne hbundles
        ⟨fun hnone => by rw [h p pvt hpvt hnone]; rfl, fun _ _ => rfl⟩
      exact ⟨s', by rw [Trunk.perform, receiveBundles, hpvt, Option.bind_some]; exact hs',
        hinv.enqueues hmod hpvt hbundles (Or.inr rfl) hs', (h.but p).enqueue hinv hpvt hs'⟩
  | flush p ubkey =>
      obtain ⟨s', hs', hinv'⟩ := hidle rfl
      refine ⟨s', hs', hinv', ?_⟩
      obtain ⟨pvt, hpvt, rfl⟩ := Option.map_eq_some_iff.mp hs'
      obtain ⟨-, -, hpivot, -, -⟩ := hinv.abandon p
      have hfailed : (abandonEntry s p).failed = s.failed := abandonEntry_failed s p
      refine ⟨(h.but p).at (fun q hq => ?_) (fun q hq hnone => ?_) (fun pvt' hpvt' _ => ?_), hfailed⟩
      · exact (Function.update_of_ne hq _ _).trans (congrFun hpivot q)
      · rw [← abandonEntry_map_of_ne s hq]
        exact hnone
      · change Function.update (abandonEntry s p).pivot p (some (emptyPivot ubkey)) p = some pvt' at hpvt'
        rw [Function.update_self] at hpvt'
        exact Option.some.inj hpvt' ▸ rfl
  | split p ubkey bundles =>
      simp only [enabled, Bool.and_eq_true, Option.isNone_iff_eq_none] at hen
      obtain ⟨⟨⟨hmod, hsome⟩, hfresh⟩, -⟩ := hen
      obtain ⟨pvt, hpvt⟩ := Option.isSome_iff_exists.mp hsome
      obtain ⟨hne, -⟩ := hinv.freshBundles hfresh hpvt
      obtain ⟨-, -, hpivot, -, -⟩ := hinv.abandon p
      obtain ⟨hsplit, hmap, hmod', hbundles⟩ := hinv.replacesLeaf hpvt ubkey hfresh
      have hnew : ((abandonEntry s p).setPivot p (splitPivot pvt ubkey)).pivot p =
          some (splitPivot pvt ubkey) := Function.update_self _ _ _
      have hbut : UncoveredBut ((abandonEntry s p).setPivot p (splitPivot pvt ubkey)) p := by
        intro q pvt' hq hpvt' hnone
        have hold : s.pivot q = some pvt' := by
          rw [← hpvt', ← hpivot]
          exact (Function.update_of_ne hq _ _).symm
        exact h q pvt' hold ((abandonEntry_map_of_ne s hq).symm.trans hnone)
      obtain ⟨s', hs'⟩ := hsplit.enqueues_isSome (n := 0) (hmod'.trans hmod) hnew hne hbundles
        ⟨fun _ => rfl, fun σ hσ => absurd (hmap.symm.trans hσ) (by simp)⟩
      obtain ⟨hcovered, hfailed⟩ := hbut.enqueue hsplit hnew hs'
      exact ⟨s', by rw [Trunk.perform, restoreBalanceLeaf_eq hpvt]; exact hs',
        hsplit.enqueues (hmod'.trans hmod) hnew hbundles (Or.inl hmap) hs', hcovered,
        hfailed.trans (abandonEntry_failed s p)⟩
  | next t =>
      obtain ⟨s', hs', hinv'⟩ := hidle rfl
      refine ⟨s', hs', hinv', ?_⟩
      obtain ⟨τ, hτ, hnext⟩ := Option.bind_eq_some_iff.mp hs'
      by_cases hrel : ∃ σ, τ = .releasing σ
      · obtain ⟨σ, rfl⟩ := hrel
        obtain ⟨st, l, ha⟩ := hinv.atTask hτ rfl
        refine h.release hinv ha (fun hlast hmap => ?_) hnext
        have hkept := hguard.kept
        simpa [freesCovered, hτ, ha.state, hlast, hmap] using hkept
      · exact (sameTable_nextOf hnext fun σ heq => hrel ⟨σ, heq⟩).uncovered h
  | apply t =>
      obtain ⟨s', hs', hinv'⟩ := hidle rfl
      refine ⟨s', hs', hinv', ?_⟩
      rw [Trunk.perform] at hs'
      split at hs'
      · rename_i σ count m hτ
        obtain ⟨st, l, ha⟩ := hinv.atTask hτ rfl
        exact h.apply hinv ha hs'
      · cases hs'
  | remount =>
      obtain ⟨s', hs', hinv'⟩ := hidle rfl
      refine ⟨s', hs', hinv', ?_⟩
      obtain rfl := Option.some.inj hs'
      exact ⟨fun p pvt hpvt _ => hguard.remount rfl p pvt hpvt, rfl⟩
  | _ =>
      obtain ⟨s', hs', hinv'⟩ := hidle rfl
      exact ⟨s', hs', hinv', (sameTable_perform hs' trivial).uncovered h⟩

theorem accounted_of_inv (hinv : PivotInv True s) (h : Uncovered s) (hfailed : s.failed = false) :
    Accounted s where
  no_failure := hfailed
  created := h
  total p pvt σ hpvt hmap hmod := by
    obtain ⟨st, pvt₀, hst, hpvt₀, hm⟩ := hinv.mapped p σ hmap
    obtain rfl : pvt = pvt₀ := Option.some.inj (hpvt.symm.trans hpvt₀)
    obtain ⟨hall, -⟩ := hm.covers.resolve_right fun hless => hless.1 trivial
    rw [claimOf, unapplied, hinv.noneApplied hmod σ, List.drop_zero] at hall
    refine ⟨st, hst, ?_, hall⟩
    rw [(hinv.states σ st hst).total, ← hall]

/-- **When the accounts agree.**  In every run whose steps all keep the accounts, whatever the order
in which compactions end, fail and are applied, states are abandoned and the trunk is mounted
again, the state that is looked up covers exactly the old bundles of its pivot, and no assertion
fails. -/
theorem accounted_of_keepsAccounts {low high : K} {tr : List (TrunkState K × Act K)}
    (hrun : (compactionSystem low high).Run (newTrunk low high) tr s)
    (hguard : Guarded KeepsAccounts tr) : Visits Accounted tr s := by
  have hvisits : Visits (fun s => PivotInv True s ∧ Uncovered s ∧ s.failed = false) tr s := by
    refine hrun.invariant ⟨pivotInv_newTrunk low high, ?_, rfl⟩ ?_ hguard
    · intro p pvt hpvt _
      simp only [newTrunk] at hpvt
      split at hpvt
      · exact Option.some.inj hpvt ▸ rfl
      · cases hpvt
    · rintro s a s' ⟨hinv, hcovered, hfailed⟩ hkeeps hstep
      change trunkNext s a = some s' at hstep
      rw [trunkNext] at hstep
      split at hstep
      · rename_i hcond
        rw [Bool.and_eq_true] at hcond
        obtain ⟨s₁, hs₁, hinv', hcovered', hsame⟩ := hcovered.perform hinv hcond.2 hkeeps
        rw [hs₁] at hstep
        obtain rfl := Option.some.inj hstep
        exact ⟨hinv', hcovered', hsame.trans hfailed⟩
      · cases hstep
  exact hvisits.mono fun s h => accounted_of_inv h.1 h.2.1 h.2.2

end Runs

/-! ## Two runs -/

/-- Two compactions end in the wrong order, both are applied, and the pivot receives more. -/
def appliedCompactions : List (Act Nat) :=
  [.receive (0, 0) [⟨0, [1]⟩], .receive (0, 0) [⟨0, [2]⟩], .next 0, .next 0, .next 1, .next 1,
    .compacted 1 4, .decide 1 false, .next 1, .compacted 0 3, .decide 0 false, .next 2, .add 2 5,
    .add 2 6, .next 2, .apply 2, .next 2, .next 2, .next 0, .receive (0, 0) [⟨0, [7]⟩]]

/-- The step neither mounts the trunk nor breaks the accounts. -/
def keepsAccounts (s : TrunkState K) (a : Act K) : Bool :=
  !freesCovered s a && !appliesLate s a && match a with | .remount => false | _ => true

theorem keepsAccounts_sound {s : TrunkState K} {a : Act K} (h : keepsAccounts s a = true) :
    KeepsAccounts s a := by
  simp only [keepsAccounts, Bool.and_eq_true, Bool.not_eq_true'] at h
  obtain ⟨⟨hkept, hearly⟩, hremount⟩ := h
  refine ⟨hkept, fun heq => ?_, hearly⟩
  rw [heq] at hremount
  cases hremount

/-- The accounts agree in a run with two compactions. -/
theorem accounted_two_compactions : ∃ tr s,
    (compactionSystem 0 100).Run (newTrunk 0 100) tr s ∧ Guarded KeepsAccounts tr ∧
      Visits Accounted tr s ∧ s.map (0, 0) = some 1 := by
  have hend : (exec trunkNext (newTrunk 0 100) appliedCompactions).map
      (fun r => r.1.all (fun step => keepsAccounts step.1 step.2) && r.2.map (0, 0) == some 1) =
        some true := by decide
  obtain ⟨r, hexec, hr⟩ := Option.map_eq_some_iff.mp hend
  rw [Bool.and_eq_true, List.all_eq_true, beq_iff_eq] at hr
  have hrun : (compactionSystem 0 100).Run (newTrunk 0 100) r.1 r.2 := run_of_exec hexec
  have hguard : Guarded KeepsAccounts r.1 := fun step hstep => keepsAccounts_sound (hr.1 step hstep)
  exact ⟨r.1, r.2, hrun, hguard, accounted_of_keepsAccounts hrun hguard, hr.2⟩

/-- A compaction fails and its state is freed, and the pivot receives more bundles. -/
def failedCompaction : List (Act Nat) :=
  [.receive (0, 0) [⟨0, [1]⟩], .next 0, .next 0, .compactionFails 0, .decide 0 false, .next 0,
    .receive (0, 0) [⟨0, [2]⟩]]

/-- **The accounts disagree**: the new state covers no bundle, and the pivot has an old one. -/
theorem accounts_disagree : ∃ tr s, (compactionSystem 0 100).Run (newTrunk 0 100) tr s ∧
    s.failed = true ∧ ¬ Visits Accounted tr s := by
  have hend : (exec trunkNext (newTrunk 0 100) failedCompaction).map (·.2.failed) = some true := by
    decide
  obtain ⟨r, hexec, hfailed⟩ := Option.map_eq_some_iff.mp hend
  refine ⟨r.1, r.2, run_of_exec hexec, hfailed, fun hvisits => ?_⟩
  rw [hvisits.last.no_failure] at hfailed
  cases hfailed

end Trunk
end TreePass
