import TreePass.Trunk.PivotStateInv

/-!
# Every step keeps the invariant

One lemma for each thing tasks and incorporations do, and `PivotInv.next` for all of them.

* Steps of background tasks change one state and one task.
* A new output branch or a new maplet has an address that nothing at the pivot uses.
* Applications, incorporations and mounting change pivots.
-/

namespace TreePass
namespace Trunk

variable {K : Type} [DecidableEq K] {strict : Prop}

/-! ## Claims and queues -/

theorem unapplied_setCompaction (queue : List BundleCompaction) (l : Multiset Task) (id : Nat)
    (status : CompactionStatus) (o : Nat) :
    unapplied (setCompaction queue id status o) l = setCompaction (unapplied queue l) id status o := by
  rw [unapplied, unapplied, setCompaction, setCompaction, List.map_drop]

theorem mem_of_mem_unapplied {queue : List BundleCompaction} {l : Multiset Task}
    {bc : BundleCompaction} (h : bc ∈ unapplied queue l) : bc ∈ queue := List.mem_of_mem_drop h

theorem setCompaction_flatMap_inputs (queue : List BundleCompaction) (id : Nat)
    (status : CompactionStatus) (o : Nat) :
    (setCompaction queue id status o).flatMap (·.inputs) = queue.flatMap (·.inputs) := by
  rw [List.flatMap_def, List.flatMap_def, setCompaction_inputs]

theorem exists_id_of_mem_setCompaction {queue : List BundleCompaction} {id : Nat}
    {status : CompactionStatus} {o : Nat} {b : BundleCompaction}
    (hb : b ∈ setCompaction queue id status o) : ∃ b₀ ∈ queue, b₀.id = b.id := by
  have hid : b.id ∈ (setCompaction queue id status o).map (·.id) := List.mem_map_of_mem hb
  rw [setCompaction_ids] at hid
  exact List.mem_map.mp hid

theorem outputsOf_setCompaction {queue : List BundleCompaction} {id : Nat}
    {status : CompactionStatus} {o : Nat} (h : ∀ bc ∈ queue, bc.id = id → bc.outputBranch = o) :
    outputsOf (setCompaction queue id status o) = outputsOf queue := by
  have hmap : (setCompaction queue id status o).map (·.outputBranch) =
      queue.map (·.outputBranch) := by
    rw [setCompaction, List.map_map]
    refine List.map_congr_left fun bc hbc => ?_
    by_cases hid : bc.id = id
    · simp [hid, h bc hbc hid]
    · simp [hid]
  rw [outputsOf, outputsOf, hmap]

theorem outputsOf_setCompaction_perm {queue : List BundleCompaction} {bc : BundleCompaction}
    (hids : (queue.map (·.id)).Nodup) (hbc : bc ∈ queue) (hout : bc.outputBranch = 0)
    (status : CompactionStatus) {o : Nat} (ho : o ≠ 0) :
    (outputsOf (setCompaction queue bc.id status o)).Perm (o :: outputsOf queue) := by
  obtain ⟨front, back, hqueue, hset⟩ := setCompaction_split hids hbc status o
  have hnew : outputsOf (setCompaction queue bc.id status o) =
      outputsOf front ++ o :: outputsOf back := by
    simp [hset, outputsOf, ho]
  have hold : outputsOf queue = outputsOf front ++ outputsOf back := by
    simp [hqueue, outputsOf, hout]
  rw [hnew, hold]
  exact List.perm_middle

omit [DecidableEq K] in
theorem claimOf_cons {st : PivotState K} {τ : Task} {l : Multiset Task} (happlied : τ.appliedCount = 0)
    (hbuilding : τ.newMaplet = none) : claimOf st (τ ::ₘ l) = claimOf st l := by
  rw [claimOf, claimOf, unapplied_cons, happlied, List.drop_zero,
    Multiset.filterMap_cons_none _ _ hbuilding]

/-! ## Addresses that are not in use -/

section Fresh

variable {s : TrunkState K} {p : PivotId K} {a : Nat}

theorem isFresh_iff : isFresh s p a = true ↔ a ≠ 0 ∧ a ∉ usedAt s p := by
  simp [isFresh]

theorem mem_usedAt_of_pivot {pvt : Pivot K} {b : Bundle} (hpvt : s.pivot p = some pvt)
    (hb : b = pvt.pivotBundle ∨ b ∈ pvt.inflight) (ha : a ∈ b.addrs) : a ∈ usedAt s p := by
  refine List.mem_append_left _ (List.mem_append_left _ ?_)
  rw [hpvt]
  exact List.mem_flatMap.mpr ⟨b, List.mem_cons.mpr hb, ha⟩

theorem mem_usedAt_of_state {σ : Nat} {st : PivotState K} (hst : s.state σ = some st)
    (hlt : σ < s.nextState) (ha : a ∈ st.addrs) : a ∈ usedAt s st.pivot := by
  refine List.mem_append_left _ (List.mem_append_right _ ?_)
  refine List.mem_flatMap.mpr ⟨σ, List.mem_range.mpr hlt, ?_⟩
  rw [hst]
  simpa using ha

theorem mem_usedAt_of_task {τ : Task} (hτ : τ ∈ s.task) (ha : τ.newMaplet = some a) :
    a ∈ usedAt s p :=
  List.mem_append_right _ (List.mem_filterMap.mpr ⟨τ, hτ, ha⟩)

omit [DecidableEq K] in
theorem output_mem_addrs {st : PivotState K} {bc : BundleCompaction}
    (hbc : bc ∈ st.bundleCompactions) : bc.outputBranch ∈ st.addrs :=
  List.mem_cons_of_mem _ (List.mem_flatMap.mpr ⟨bc, hbc, List.mem_cons_self⟩)

omit [DecidableEq K] in
theorem input_mem_addrs {st : PivotState K} {bc : BundleCompaction} {b : Bundle}
    (hbc : bc ∈ st.bundleCompactions) (hb : b ∈ bc.inputs) (ha : a ∈ b.branches) : a ∈ st.addrs := by
  refine List.mem_cons_of_mem _ (List.mem_flatMap.mpr ⟨bc, hbc, List.mem_cons_of_mem _ ?_⟩)
  exact List.mem_flatMap.mpr ⟨b, hb, List.mem_cons_of_mem _ ha⟩

omit [DecidableEq K] in
theorem mem_outputsOf_unapplied {st : PivotState K} {l : Multiset Task}
    (ha : a ∈ outputsOf (unapplied st.bundleCompactions l)) : a ∈ st.addrs := by
  obtain ⟨hmem, -⟩ := List.mem_filter.mp ha
  obtain ⟨bc, hbc, rfl⟩ := List.mem_map.mp hmem
  exact output_mem_addrs (mem_of_mem_unapplied hbc)

omit [DecidableEq K] in
theorem firstBranch_mem_addrs {st : PivotState K} {l : Multiset Task}
    (ha : firstBranch ((unapplied st.bundleCompactions l).flatMap (·.inputs)) = some a) :
    a ∈ st.addrs := by
  obtain ⟨b, hb, hab⟩ := Option.bind_eq_some_iff.mp ha
  obtain ⟨bc, hbc, hin⟩ := List.mem_flatMap.mp (List.mem_of_head? hb)
  exact input_mem_addrs (mem_of_mem_unapplied hbc) hin (List.mem_of_head? hab)

theorem PivotInv.freshBranch (h : PivotInv strict s) (hfresh : isFresh s p a = true) {pvt : Pivot K}
    (hpvt : s.pivot p = some pvt) : Ledger.FreshBranch pvt (claims s p) a := by
  obtain ⟨-, hnot⟩ := isFresh_iff.mp hfresh
  have hstate : ∀ σ st, s.state σ = some st → st.pivot = p → a ∉ st.addrs := by
    rintro σ st hst rfl hin
    exact hnot (mem_usedAt_of_state hst (h.older σ st hst).1 hin)
  refine ⟨?_, ?_⟩
  · rintro (hheld | ⟨σ, c, hc, hin⟩)
    · rcases List.mem_append.mp hheld with hin | hin
      · exact hnot (mem_usedAt_of_pivot hpvt (Or.inl rfl) (List.mem_cons_of_mem _ hin))
      · obtain ⟨b, hb, hin⟩ := List.mem_flatMap.mp hin
        exact hnot (mem_usedAt_of_pivot hpvt (Or.inr hb) (List.mem_cons_of_mem _ hin))
    · obtain ⟨st, hst, hp, rfl⟩ := claims_eq_some.mp hc
      exact hstate σ st hst hp (mem_outputsOf_unapplied hin)
  · intro σ c hc hfirst
    obtain ⟨st, hst, hp, rfl⟩ := claims_eq_some.mp hc
    exact hstate σ st hst hp (firstBranch_mem_addrs hfirst)

theorem PivotInv.freshMaplet (h : PivotInv strict s) (hfresh : isFresh s p a = true) {pvt : Pivot K}
    (hpvt : s.pivot p = some pvt) : Ledger.FreshMaplet pvt (claims s p) a := by
  obtain ⟨hne, hnot⟩ := isFresh_iff.mp hfresh
  refine ⟨hne, ?_, ?_, ?_⟩
  · rintro rfl
    exact hnot (mem_usedAt_of_pivot hpvt (Or.inl rfl) List.mem_cons_self)
  · rintro σ c hc rfl
    obtain ⟨st, hst, rfl, rfl⟩ := claims_eq_some.mp hc
    exact hnot (mem_usedAt_of_state hst (h.older σ st hst).1 List.mem_cons_self)
  · intro σ c hc hin
    obtain ⟨st, hst, -, rfl⟩ := claims_eq_some.mp hc
    have hmem : a ∈ (tasksOf s σ).filterMap Task.newMaplet := hin
    obtain ⟨τ, hτ, hmaplet⟩ := (Multiset.mem_filterMap _ _).mp hmem
    exact hnot (mem_usedAt_of_task (mem_tasksIn.mp hτ).1 hmaplet)

theorem PivotInv.freshBundles (h : PivotInv strict s) {bundles : List Bundle}
    (hfresh : areFresh s p bundles = true) {pvt : Pivot K} (hpvt : s.pivot p = some pvt) :
    bundles ≠ [] ∧ Ledger.FreshBundles pvt (claims s p) bundles := by
  simp only [areFresh, Bool.and_eq_true, bne_iff_ne, ne_eq, List.all_eq_true,
    decide_eq_true_eq] at hfresh
  obtain ⟨⟨⟨hne, hnonempty⟩, haddrs⟩, hnodup⟩ := hfresh
  exact ⟨hne, hnonempty, hnodup, fun a ha => h.freshBranch (haddrs a ha) hpvt⟩

end Fresh

/-! ## Background tasks -/

section Tasks

variable {s s' : TrunkState K} {t σ : Nat} {τ : Task} {st : PivotState K} {l : Multiset Task}

theorem PivotInv.goto (h : PivotInv strict s) (ha : AtTask s t σ τ st l) {τ' : Task}
    (hσ : τ'.state = some σ) (hok : StateOk σ st (τ' ::ₘ l))
    (hnot : ∀ σ count, τ' ≠ .applied σ count) (happlied : τ'.appliedCount = τ.appliedCount)
    (hbuilding : ∀ m, τ'.newMaplet = some m → τ.newMaplet = some m ∨ m = st.maplet) :
    PivotInv strict (s.goto t τ') := by
  have htasks : tasksOf (s.goto t τ') σ = τ' ::ₘ l := ha.tasks_set rfl hσ
  have hothers : ∀ ρ, ρ ≠ σ → tasksOf (s.goto t τ') ρ = tasksOf s ρ := fun ρ hρ =>
    ha.tasks_of_ne rfl (Or.inl hσ) hρ
  have hb : Background s (s.goto t τ') σ st st :=
    ha.background (Function.update_eq_self_iff.mpr ha.state.symm).symm hothers rfl rfl rfl rfl
      ⟨rfl, rfl, rfl, rfl⟩ fun bc hbc => ⟨bc, hbc, rfl⟩
  refine h.keepsClaim hb (htasks ▸ hok) (Applying.set h.applying t hnot) ?_ ?_ ?_
  · rw [htasks, ha.tasks]
    simp only [claimOf, unapplied_cons, happlied]
  · rw [htasks, ha.tasks]
    simp only [claimOf, unapplied_cons, happlied]
  · intro m hm
    rw [htasks] at hm
    rw [ha.tasks]
    obtain ⟨ρ, hρ, hmaplet⟩ := (Multiset.mem_filterMap _ _).mp hm
    rcases Multiset.mem_cons.mp hρ with rfl | hρ
    · refine (hbuilding m hmaplet).imp_left fun hold => ?_
      exact (Multiset.mem_filterMap _ _).mpr ⟨τ, Multiset.mem_cons_self _ _, hold⟩
    · exact Or.inl ((Multiset.mem_filterMap _ _).mpr ⟨ρ, Multiset.mem_cons_of_mem hρ, hmaplet⟩)

theorem PivotInv.gotoState (h : PivotInv strict s) (ha : AtTask s t σ τ st l) (τ' : Task)
    (started : List Task) {st' : PivotState K}
    (hstate : s'.state = Function.update s.state σ (some st'))
    (htask : s'.task = s.task.set t τ' ++ started)
    (hpivot : s'.pivot = s.pivot) (hmap : s'.map = s.map) (hnext : s'.nextState = s.nextState)
    (hnextC : s'.nextCompaction = s.nextCompaction)
    (happlying : Applying (s.task.set t τ') s'.modifying)
    (hsame : st'.pivot = st.pivot ∧ st'.ubkey = st.ubkey ∧ st'.abandoned = st.abandoned ∧
      st'.maplet = st.maplet)
    (hids : ∀ bc ∈ st'.bundleCompactions, ∃ bc₀ ∈ st.bundleCompactions, bc₀.id = bc.id)
    (hσ : τ'.state = some σ) (hstarted : started = [] ∨ started = [.maplet σ])
    (hok : StateOk σ st' ((started : Multiset Task) + (τ' ::ₘ l)))
    (hbuilding : τ'.newMaplet = none)
    (hqueue : (unapplied st'.bundleCompactions (τ' ::ₘ l)).map (·.inputs) =
        (unapplied st.bundleCompactions (τ ::ₘ l)).map (·.inputs) ∧
      outputsOf (unapplied st'.bundleCompactions (τ' ::ₘ l)) =
        outputsOf (unapplied st.bundleCompactions (τ ::ₘ l))) : PivotInv strict s' := by
  have htasks : tasksOf s' σ = (started : Multiset Task) + (τ' ::ₘ l) := by
    rw [tasksOf, htask]
    rcases hstarted with rfl | rfl
    · rw [List.append_nil, ha.set, if_pos hσ, Multiset.coe_nil, zero_add]
    · have hmaplet : (Task.maplet σ).state = some σ := rfl
      rw [tasksIn_append, if_pos hmaplet, ha.set, if_pos hσ]
      rfl
  have hothers : ∀ ρ, ρ ≠ σ → tasksOf s' ρ = tasksOf s ρ := by
    intro ρ hρ
    have hset : tasksIn (s.task.set t τ') ρ = tasksOf s ρ := by
      refine tasksIn_set_of_ne ha.task ?_ ?_
      · rw [ha.ofState]
        exact fun heq => hρ (Option.some.inj heq).symm
      · rw [hσ]
        exact fun heq => hρ (Option.some.inj heq).symm
    rw [tasksOf, htask]
    rcases hstarted with rfl | rfl
    · rw [List.append_nil, hset]
    · rw [tasksIn_append, if_neg (by simpa [Task.state] using Ne.symm hρ), hset]
  have hclaim : claimOf st' (tasksOf s' σ) = claimOf st' (τ' ::ₘ l) := by
    rw [htasks]
    rcases hstarted with rfl | rfl
    · rw [Multiset.coe_nil, zero_add]
    · exact claimOf_cons rfl rfl
  have hb : Background s s' σ st st' := ha.background hstate hothers hpivot hmap hnext hnextC hsame hids
  refine h.keepsClaim hb (htasks ▸ hok) ?_ ?_ ?_ ?_
  · rw [htask]
    rcases hstarted with rfl | rfl
    · rwa [List.append_nil]
    · exact happlying.append fun _ _ => by simp
  · rw [hclaim, ha.tasks]
    change (unapplied st'.bundleCompactions (τ' ::ₘ l)).flatMap (·.inputs) =
      (unapplied st.bundleCompactions (τ ::ₘ l)).flatMap (·.inputs)
    rw [List.flatMap_def, List.flatMap_def, hqueue.1]
  · rw [hclaim, ha.tasks]
    exact hqueue.2
  · intro m hm
    rw [hclaim] at hm
    rw [ha.tasks]
    obtain ⟨ρ, hρ, hmaplet⟩ := (Multiset.mem_filterMap _ _).mp hm
    rcases Multiset.mem_cons.mp hρ with rfl | hρ
    · rw [hbuilding] at hmaplet
      cases hmaplet
    · exact Or.inl ((Multiset.mem_filterMap _ _).mpr ⟨ρ, Multiset.mem_cons_of_mem hρ, hmaplet⟩)

theorem PivotInv.writeState (h : PivotInv strict s) (ha : AtTask s t σ τ st l) {τ' : Task}
    {st' : PivotState K}
    (hsame : st'.pivot = st.pivot ∧ st'.ubkey = st.ubkey ∧ st'.abandoned = st.abandoned ∧
      st'.maplet = st.maplet)
    (hids : ∀ bc ∈ st'.bundleCompactions, ∃ bc₀ ∈ st.bundleCompactions, bc₀.id = bc.id)
    (hσ : τ'.state = some σ) (hok : StateOk σ st' (τ' ::ₘ l))
    (hnot : ∀ σ count, τ' ≠ .applied σ count) (hbuilding : τ'.newMaplet = none)
    (hqueue : (unapplied st'.bundleCompactions (τ' ::ₘ l)).map (·.inputs) =
        (unapplied st.bundleCompactions (τ ::ₘ l)).map (·.inputs) ∧
      outputsOf (unapplied st'.bundleCompactions (τ' ::ₘ l)) =
        outputsOf (unapplied st.bundleCompactions (τ ::ₘ l))) :
    PivotInv strict ((s.setState σ st').goto t τ') := by
  refine h.gotoState ha τ' [] rfl ?_ rfl rfl rfl rfl (Applying.set h.applying t hnot) hsame
    hids hσ (Or.inl rfl) ?_ hbuilding hqueue
  · exact (List.append_nil _).symm
  · rw [Multiset.coe_nil, zero_add]
    exact hok

theorem PivotInv.fails (h : PivotInv strict s) (ha : AtTask s t σ τ st l) (hτ : τ.isMaplet = true)
    (happlied : τ.appliedCount = 0) :
    PivotInv strict ((s.setState σ { st with mapletCompactionFailed := true }).goto t (.releasing σ)) := by
  refine h.writeState ha ⟨rfl, rfl, rfl, rfl⟩ (fun bc hbc => ⟨bc, hbc, rfl⟩) rfl
    ((ha.stateOk h).fail hτ happlied) (by simp) rfl ?_
  rw [unapplied_cons, unapplied_cons, happlied]
  exact ⟨rfl, rfl⟩

theorem PivotInv.bundleStarts (h : PivotInv strict s) (ha : AtTask s t σ (.bundle σ) st l) :
    PivotInv strict (s.goto t (if st.abandoned then .releasing σ else .picking σ)) := by
  have hok := ha.stateOk h
  cases st.abandoned with
  | true =>
      have hmoved : StateOk σ st (.releasing σ ::ₘ l) :=
        hok.move (by simp [Task.isPending]) rfl rfl (by simp) (by simp) trivial
      exact h.goto ha rfl hmoved (by simp) rfl (by simp [Task.newMaplet])
  | false =>
      have hmoved : StateOk σ st (.picking σ ::ₘ l) :=
        hok.move (by simp [Task.isPending]) rfl rfl (by simp) (by simp) trivial
      exact h.goto ha rfl hmoved (by simp) rfl (by simp [Task.newMaplet])

theorem PivotInv.mapletStarts (h : PivotInv strict s) (ha : AtTask s t σ (.maplet σ) st l) :
    PivotInv strict (s.goto t (.building σ 0 st.maplet)) := by
  have hok := ha.stateOk h
  have hfin : Finished st.bundleCompactions 1 := hok.covered _ (Multiset.mem_cons_self _ _)
  have hmoved : StateOk σ st (.building σ 0 st.maplet ::ₘ l) :=
    hok.move (by simp [Task.isPending]) rfl rfl (by simp) (by simp)
      ⟨hfin, Or.inl ⟨by simp [outputBranches], rfl⟩⟩
  refine h.goto ha rfl hmoved (by simp) rfl fun m hm => Or.inr ?_
  simpa [Task.newMaplet] using hm.symm

theorem PivotInv.loopDone (h : PivotInv strict s) {count m : Nat}
    (ha : AtTask s t σ (.building σ count m) st l) (hends : loopEnds st count = true) :
    PivotInv strict (s.goto t (.built σ count m)) := by
  have hok := ha.stateOk h
  obtain ⟨hfin, hmaplet⟩ := hok.covered _ (Multiset.mem_cons_self _ _)
  have hpos : 0 < count := by
    rcases Nat.eq_zero_or_pos count with rfl | hpos
    · obtain ⟨head, rest, hqueue, hst⟩ := (hfin.mono (le_max_right _ _)).head
      simp [loopEnds, hqueue, hst] at hends
    · exact hpos
  have hmoved : StateOk σ st (.built σ count m ::ₘ l) :=
    hok.move (by simp [Task.isPending]) rfl rfl (by simp) (by simp)
      ⟨hpos, hfin.mono (le_max_left _ _), hmaplet⟩
  exact h.goto ha rfl hmoved (by simp) rfl fun m' hm' => Or.inl hm'

theorem PivotInv.picks (h : PivotInv strict s) (ha : AtTask s t σ (.picking σ) st l) :
    ∃ s', pickCompaction s t σ = some s' ∧ PivotInv strict s' := by
  have hok := ha.stateOk h
  obtain ⟨bc, hfind, hbranches, hpicked⟩ := hok.pick
  refine ⟨_, by rw [pickCompaction, ha.state, Option.bind_some, hfind, Option.bind_some,
    if_pos hbranches], ?_⟩
  have hmem : bc ∈ st.bundleCompactions := List.mem_of_find?_eq_some hfind
  refine h.writeState ha ⟨rfl, rfl, rfl, rfl⟩ (fun b hb => exists_id_of_mem_setCompaction hb) rfl
    hpicked (by simp) rfl ⟨?_, ?_⟩
  · simp only [unapplied_cons, Task.appliedCount, List.drop_zero]
    rw [unapplied_setCompaction, setCompaction_inputs]
  · simp only [unapplied_cons, Task.appliedCount, List.drop_zero]
    rw [unapplied_setCompaction]
    refine outputsOf_setCompaction fun b hb hid => ?_
    have heq : b = bc :=
      List.inj_on_of_nodup_map hok.ids (mem_of_mem_unapplied hb) hmem hid
    rw [heq]

theorem PivotInv.ends (h : PivotInv strict s) {id : Nat} (ha : AtTask s t σ (.compacting σ id) st l)
    {status : CompactionStatus} {o : Nat}
    (hstatus : status = .succeeded ∨ (status = .failed ∧ o = 0))
    (hfresh : o = 0 ∨ isFresh s st.pivot o = true) :
    PivotInv strict ((s.setState σ { st with
      bundleCompactions := setCompaction st.bundleCompactions id status o }).goto t
        (.ended σ id)) := by
  have hok := ha.stateOk h
  have hended := hok.finish hstatus
  have hinputs : ∀ b ∈ setCompaction st.bundleCompactions id status o,
      ∃ b₀ ∈ st.bundleCompactions, b₀.id = b.id := fun b hb => exists_id_of_mem_setCompaction hb
  -- the compaction has had no output so far
  have hzero : ∀ b ∈ unapplied st.bundleCompactions l, b.id = id → b.outputBranch = 0 := by
    rintro b hb rfl
    obtain ⟨bc, hbc, hid, hst⟩ := hok.compacting _ (Multiset.mem_cons_self _ _)
    have heq : bc = b := List.inj_on_of_nodup_map hok.ids hbc (mem_of_mem_unapplied hb) hid
    exact heq ▸ hok.outputs bc hbc (by simp [hst])
  by_cases hkeep : o = 0 ∨ id ∉ (unapplied st.bundleCompactions l).map (·.id)
  · refine h.writeState ha ⟨rfl, rfl, rfl, rfl⟩ hinputs rfl hended (by simp) rfl ⟨?_, ?_⟩
    · simp only [unapplied_cons, Task.appliedCount, List.drop_zero]
      rw [unapplied_setCompaction, setCompaction_inputs]
    · simp only [unapplied_cons, Task.appliedCount, List.drop_zero]
      rw [unapplied_setCompaction]
      rcases hkeep with rfl | hnot
      · exact outputsOf_setCompaction hzero
      · rw [setCompaction_of_not_mem status o hnot]
  · obtain ⟨ho, hin⟩ := not_or.mp hkeep
    obtain ⟨bc, hbc, rfl⟩ := List.mem_map.mp (not_not.mp hin)
    have hids : ((unapplied st.bundleCompactions l).map (·.id)).Nodup :=
      hok.ids.sublist ((List.drop_sublist _ _).map _)
    have htasks : tasksOf ((s.setState σ { st with
        bundleCompactions := setCompaction st.bundleCompactions bc.id status o }).goto t
          (.ended σ bc.id)) σ = .ended σ bc.id ::ₘ l := ha.tasks_set rfl rfl
    have hothers : ∀ ρ, ρ ≠ σ → tasksOf ((s.setState σ { st with
        bundleCompactions := setCompaction st.bundleCompactions bc.id status o }).goto t
          (.ended σ bc.id)) ρ = tasksOf s ρ := fun ρ hρ =>
      ha.tasks_of_ne rfl (Or.inl rfl) hρ
    have hclaim : claimOf { st with
        bundleCompactions := setCompaction st.bundleCompactions bc.id status o }
          (.ended σ bc.id ::ₘ l) =
        { claimOf st (tasksOf s σ) with
          outputs := outputsOf (setCompaction (unapplied st.bundleCompactions l) bc.id status o) } := by
      rw [ha.tasks, claimOf_cons rfl rfl, claimOf_cons rfl rfl, claimOf, claimOf]
      simp only [unapplied_setCompaction, setCompaction_flatMap_inputs]
    refine h.background (ha.background rfl hothers rfl rfl rfl rfl ⟨rfl, rfl, rfl, rfl⟩ hinputs)
      (htasks ▸ hended) (Applying.set h.applying t (by simp)) ?_ ?_
    · rw [htasks, hclaim]
    · intro pvt hpvt hledger
      rw [htasks, hclaim]
      have hfreshBranch := h.freshBranch (hfresh.resolve_left ho) hpvt
      refine hledger.output (claims_of_state ha.state) hfreshBranch ?_
      rw [ha.tasks, claimOf_cons rfl rfl]
      exact outputsOf_setCompaction_perm hids hbc (hzero bc hbc rfl) status ho

omit [DecidableEq K] in
theorem enqueueMapletCompaction_of_false {st : PivotState K}
    (hinit : st.mapletCompactionInitiated = false) :
    enqueueMapletCompaction s σ st =
      (s.setState σ { st with mapletCompactionInitiated := true, refcount := st.refcount + 1 }).enqueue
        (.maplet σ) := by
  simp [enqueueMapletCompaction, hinit]

omit [DecidableEq K] in
theorem enqueueMapletCompaction_of_true {st : PivotState K}
    (hinit : st.mapletCompactionInitiated = true) :
    enqueueMapletCompaction s σ st = s.setState σ st := if_pos hinit

omit [DecidableEq K] in
theorem setState_self {st : PivotState K} (hst : s.state σ = some st) : s.setState σ st = s := by
  cases s
  simp only [TrunkState.setState, TrunkState.mk.injEq, true_and, and_true]
  exact Function.update_eq_self_iff.mpr hst.symm

omit [DecidableEq K] in
theorem finished_of_isSucceededHead {queue : List BundleCompaction} {id : Nat} {reused : Bool}
    (h : isSucceededHead queue id reused = true) : Finished queue 1 := by
  cases queue with
  | nil => cases h
  | cons head rest =>
      rw [isSucceededHead, Bool.and_eq_true, beq_iff_eq] at h
      exact finished_one h.2

theorem PivotInv.decides (h : PivotInv strict s) {id : Nat} (ha : AtTask s t σ (.ended σ id) st l)
    {reused : Bool} {s' : TrunkState K} (hs' : decideCompaction s t σ id reused = some s') :
    PivotInv strict s' := by
  have hok := ha.stateOk h
  rw [decideCompaction, ha.state, Option.map_some, Option.some.injEq] at hs'
  subst hs'
  have hidle : isSucceededHead st.bundleCompactions id reused = false ∨
      st.mapletCompactionInitiated = true → PivotInv strict (s.goto t (.releasing σ)) := fun hnot =>
    h.goto ha rfl (hok.decideNot hnot) (by simp) rfl (by simp [Task.newMaplet])
  cases hhead : isSucceededHead st.bundleCompactions id reused with
  | false =>
      rw [if_neg Bool.false_ne_true]
      exact hidle (Or.inl hhead)
  | true =>
      rw [if_pos rfl]
      cases hinit : st.mapletCompactionInitiated with
      | true =>
          rw [enqueueMapletCompaction_of_true hinit]
          have hsame : (s.goto t (.releasing σ)).setState σ st = s.goto t (.releasing σ) :=
            setState_self ha.state
          rw [hsame]
          exact hidle (Or.inr hinit)
      | false =>
          rw [enqueueMapletCompaction_of_false hinit]
          have hmoved : StateCounts σ st (.releasing σ ::ₘ l) :=
            hok.toStateCounts.move (by simp [Task.isPending]) rfl rfl (by simp) trivial
          have hstarted := hmoved.initiate hinit (finished_of_isSucceededHead hhead)
          refine h.gotoState ha (.releasing σ) [.maplet σ] rfl rfl rfl rfl rfl rfl
            (Applying.set h.applying t (by simp)) ⟨rfl, rfl, rfl, rfl⟩
            (fun bc hbc => ⟨bc, hbc, rfl⟩) rfl (Or.inr rfl) ?_ rfl ?_
          · rw [Multiset.coe_singleton, Multiset.singleton_add]
            exact hstarted
          · simp only [unapplied_cons, Task.appliedCount, and_self]

/-! ## Maplet compactions -/

omit [DecidableEq K] in
theorem others_idle (hothers : ∀ ρ ∈ l, ρ.isMaplet = false) :
    (l.map Task.appliedCount).sum = 0 ∧ l.filterMap Task.newMaplet = 0 := by
  refine ⟨Multiset.sum_eq_zero fun n hn => ?_, Multiset.eq_zero_of_forall_notMem fun m hm => ?_⟩
  · obtain ⟨ρ, hρ, rfl⟩ := Multiset.mem_map.mp hn
    have hnot := hothers ρ hρ
    cases ρ <;> first | rfl | cases hnot
  · obtain ⟨ρ, hρ, hmaplet⟩ := (Multiset.mem_filterMap _ _).mp hm
    have hnot := hothers ρ hρ
    cases ρ <;> simp [Task.isMaplet, Task.newMaplet] at hnot hmaplet

theorem outputBranches_succ {queue : List BundleCompaction} {count : Nat} {bc : BundleCompaction}
    (hbc : queue[count]? = some bc) :
    outputBranches queue (count + 1) =
      outputBranches queue count ++ if bc.outputBranch = 0 then [] else [bc.outputBranch] := by
  obtain ⟨hlt, hget⟩ := List.getElem?_eq_some_iff.mp hbc
  rw [outputBranches, outputBranches, List.take_succ_eq_append_getElem hlt, hget, List.map_append,
    List.filter_append]
  by_cases hzero : bc.outputBranch = 0 <;> simp [hzero]

/-- **The filter of a finished compaction is added to the maplet that is being built.** -/
theorem PivotInv.adds (h : PivotInv strict s) {count m filter : Nat}
    (ha : AtTask s t σ (.building σ count m) st l) {bc : BundleCompaction}
    (hbc : st.bundleCompactions[count]? = some bc) (hst : bc.status = .succeeded)
    (hfresh : isFresh s st.pivot filter = true) :
    PivotInv strict (s.goto t (.building σ (count + 1) (if bc.outputBranch = 0 then m else filter))) := by
  have hok := ha.stateOk h
  obtain ⟨hfin, hmaplet⟩ := hok.covered _ (Multiset.mem_cons_self _ _)
  have hsucc : Finished st.bundleCompactions (count + 1) :=
    (hfin.mono (le_max_left _ _)).succ hbc hst
  set m' := if bc.outputBranch = 0 then m else filter with hm'
  have hmaplet' : MapletFor st.bundleCompactions st.maplet (count + 1) m' := by
    rw [MapletFor, outputBranches_succ hbc, hm']
    by_cases hzero : bc.outputBranch = 0
    · rw [if_pos hzero, if_pos hzero, List.append_nil]
      exact hmaplet
    · rw [if_neg hzero, if_neg hzero]
      exact Or.inr ⟨by simp, (isFresh_iff.mp hfresh).1⟩
  have hmoved : StateOk σ st (.building σ (count + 1) m' ::ₘ l) :=
    hok.move (by simp [Task.isPending]) rfl rfl (by simp) (by simp)
      ⟨by rwa [Nat.max_eq_left (Nat.succ_pos count)], hmaplet'⟩
  have htasks : tasksOf (s.goto t (.building σ (count + 1) m')) σ =
      .building σ (count + 1) m' ::ₘ l := ha.tasks_set rfl rfl
  have hothers : ∀ ρ, ρ ≠ σ → tasksOf (s.goto t (.building σ (count + 1) m')) ρ = tasksOf s ρ :=
    fun ρ hρ => ha.tasks_of_ne rfl (Or.inl rfl) hρ
  have hclaim : claimOf st (.building σ (count + 1) m' ::ₘ l) =
      { claimOf st (tasksOf s σ) with building := m' ::ₘ l.filterMap Task.newMaplet } := by
    rw [ha.tasks, claimOf, claimOf, unapplied_cons, unapplied_cons,
      Multiset.filterMap_cons_some _ _ _ (show Task.newMaplet _ = some m' from rfl)]
    rfl
  refine h.background (ha.background (Function.update_eq_self_iff.mpr ha.state.symm).symm hothers rfl
    rfl rfl rfl ⟨rfl, rfl, rfl, rfl⟩ fun bc hbc => ⟨bc, hbc, rfl⟩) (htasks ▸ hmoved)
    (Applying.set h.applying t (by simp)) ?_ ?_
  · rw [htasks, hclaim]
  · intro pvt hpvt hledger
    rw [htasks, hclaim]
    refine hledger.build (claims_of_state ha.state) fun a ha' => ?_
    rw [ha.tasks]
    change a ∈ Multiset.filterMap Task.newMaplet (.building σ count m ::ₘ l) ∨ _
    rw [Multiset.filterMap_cons_some _ _ _ (show Task.newMaplet _ = some m from rfl)]
    rcases Multiset.mem_cons.mp ha' with heq | hin
    · by_cases hzero : bc.outputBranch = 0
      · rw [heq, hm', if_pos hzero]
        exact Or.inl (Multiset.mem_cons_self _ _)
      · rw [heq, hm', if_neg hzero]
        exact Or.inr (h.freshMaplet hfresh hpvt)
    · exact Or.inl (Multiset.mem_cons_of_mem hin)

theorem PivotInv.pops (h : PivotInv strict s) {count : Nat} (ha : AtTask s t σ (.applied σ count) st l) :
    ∃ s', popCompactions s t σ count = some s' ∧ PivotInv strict s' := by
  have hok := ha.stateOk h
  obtain ⟨hpos, hfin⟩ := hok.covered _ (Multiset.mem_cons_self _ _)
  have hpopped := hok.pop
  have hmod : s.modifying = some t := h.applying t σ count ha.task
  have happlying : Applying (s.task.set t (.releasing σ)) none := by
    intro t' ρ n ht'
    by_cases heq : t = t'
    · subst heq
      rw [List.getElem?_set_self', ha.task] at ht'
      cases ht'
    · rw [List.getElem?_set_ne heq] at ht'
      have hmod' := h.applying t' ρ n ht'
      rw [hmod] at hmod'
      exact absurd (Option.some.inj hmod') heq
  have hids : ∀ bc ∈ st.bundleCompactions.drop count,
      ∃ bc₀ ∈ st.bundleCompactions, bc₀.id = bc.id := fun bc hbc =>
    ⟨bc, List.mem_of_mem_drop hbc, rfl⟩
  have hqueue := unapplied_popped st.bundleCompactions σ count l
  have hcond : ¬ (count = 0 ∨ st.bundleCompactions.length < count) := by
    have hle := hfin.le
    omega
  -- the state without a new maplet compaction, and with one
  have hidle : (∀ head rest, st.bundleCompactions.drop count = head :: rest →
      head.status ≠ .succeeded) →
      PivotInv strict (TrunkState.setState { s.goto t (.releasing σ) with modifying := none } σ
        { st with
          bundleCompactions := st.bundleCompactions.drop count
          totalBundles := st.totalBundles - (inputBundles st.bundleCompactions count).length
          mapletCompactionInitiated := false }) := by
    intro hhead
    refine h.gotoState ha (.releasing σ) [] rfl (List.append_nil _).symm rfl rfl rfl
      rfl happlying ⟨rfl, rfl, rfl, rfl⟩ hids rfl (Or.inl rfl) ?_ rfl
      ⟨congrArg _ hqueue, congrArg _ hqueue⟩
    rw [Multiset.coe_nil, zero_add]
    exact ⟨hpopped, fun bc rest hcons hst => absurd hst (hhead bc rest hcons)⟩
  cases hdrop : st.bundleCompactions.drop count with
  | nil =>
      refine ⟨_, by
        simp only [popCompactions, ha.state, Option.bind_some, if_neg hcond, hdrop]
        rfl, ?_⟩
      have hinv := hidle (by simp [hdrop])
      rw [hdrop] at hinv
      exact hinv
  | cons head rest =>
      by_cases hst : head.status = .succeeded
      · refine ⟨_, by
          simp only [popCompactions, ha.state, Option.bind_some, if_neg hcond, hdrop, hst, if_true]
          rfl, ?_⟩
        have hstarted := hpopped.initiate rfl (hdrop ▸ finished_one hst)
        rw [hdrop] at hstarted hqueue hids
        rw [enqueueMapletCompaction_of_false rfl]
        refine h.gotoState ha (.releasing σ) [.maplet σ] rfl rfl rfl rfl rfl rfl
          happlying ⟨rfl, rfl, rfl, rfl⟩ hids rfl (Or.inr rfl) ?_ rfl
          ⟨congrArg _ hqueue, congrArg _ hqueue⟩
        rw [Multiset.coe_singleton, Multiset.singleton_add]
        exact hstarted
      · refine ⟨_, by
          simp only [popCompactions, ha.state, Option.bind_some, if_neg hcond, hdrop, if_neg hst]
          rfl, ?_⟩
        have hinv := hidle fun head' rest' hcons => by
          rw [hdrop] at hcons
          rw [← (List.cons.inj hcons).1]
          exact hst
        rw [hdrop] at hinv
        exact hinv

/-! ## Applications -/

omit [DecidableEq K] in
theorem unapplied_built {count m : Nat} (hok : StateOk σ st (.built σ count m ::ₘ l)) :
    unapplied st.bundleCompactions (.built σ count m ::ₘ l) = st.bundleCompactions := by
  rw [unapplied_cons, unapplied, (others_idle (hok.not_isMaplet rfl)).1]
  rfl

omit [DecidableEq K] in
theorem inputBundles_pos {τ : Task} {count : Nat} (hok : StateOk σ st (τ ::ₘ l)) (hpos : 0 < count)
    (hfin : Finished st.bundleCompactions count) :
    0 < (inputBundles st.bundleCompactions count).length := by
  obtain ⟨head, rest, hqueue, -⟩ := (hfin.mono hpos).head
  obtain ⟨n, rfl⟩ : ∃ n, count = n + 1 := ⟨count - 1, by omega⟩
  have hne := (hok.inputs head (hqueue ▸ List.mem_cons_self)).1
  have hlen := List.length_pos_of_ne_nil hne
  rw [inputBundles, hqueue, List.take_succ_cons, List.flatMap_cons, List.length_append]
  omega

/-- What a match is. -/
structure Matched (s : TrunkState K) (st : PivotState K) (count : Nat) (pvt : Pivot K) : Prop where
  pivot : s.pivot st.pivot = some pvt
  ubkey : st.ubkey = pvt.ubkey
  fits : st.bundleCompactions.flatMap (·.inputs) <+: pvt.inflight
  maplet : st.maplet = pvt.pivotBundle.maplet
  pos : 0 < (inputBundles st.bundleCompactions count).length
  le : (inputBundles st.bundleCompactions count).length ≤ pvt.inflight.length

/-- **A match fits**: all the inputs of the queue are at the front of the in-flight bundles. -/
theorem PivotInv.matched (h : PivotInv strict s) {count m : Nat}
    (ha : AtTask s t σ (.built σ count m) st l) {pvt : Pivot K}
    (hmatch : matchingPivot s st count = some pvt) : Matched s st count pvt := by
  have hok := ha.stateOk h
  obtain ⟨hpos, hfin, -⟩ := hok.covered _ (Multiset.mem_cons_self _ _)
  obtain ⟨hpvt, hcond⟩ := Option.filter_eq_some_iff.mp hmatch
  simp only [pivotMatchesCompaction, Bool.and_eq_true, decide_eq_true_eq, beq_iff_eq] at hcond
  obtain ⟨⟨⟨hle, hubkey⟩, hmaplet⟩, hfirst⟩ := hcond
  have hk := inputBundles_pos hok hpos hfin
  obtain ⟨head, rest, hqueue, -⟩ := (hfin.mono hpos).head
  obtain ⟨b, bs, hinputs⟩ := List.exists_cons_of_ne_nil
    (hok.inputs head (hqueue ▸ List.mem_cons_self)).1
  have hclaim : (claimOf st (tasksOf s σ)).inputs = st.bundleCompactions.flatMap (·.inputs) := by
    rw [ha.tasks, claimOf, unapplied_built hok]
  have hne : (claimOf st (tasksOf s σ)).inputs ≠ [] := by
    rw [hclaim, hqueue, List.flatMap_cons, hinputs]
    simp
  have hfirst' : firstBranch pvt.inflight = firstBranch (claimOf st (tasksOf s σ)).inputs := by
    rw [hclaim, hqueue, List.flatMap_cons, hinputs]
    rw [hqueue] at hfirst
    simpa [firstBranch, hinputs] using hfirst
  have hinflight : pvt.inflight ≠ [] := List.ne_nil_of_length_pos (hk.trans_le hle)
  have hfits := (h.ledger _ pvt hpvt).fits_of_match (claims_of_state ha.state) hne hinflight hmaplet
    hfirst'
  exact ⟨hpvt, hubkey, hclaim ▸ hfits.1, hfits.2, hk, hle⟩

theorem drop_inputBundles (queue : List BundleCompaction) (count : Nat) :
    (queue.flatMap (·.inputs)).drop (inputBundles queue count).length =
      (queue.drop count).flatMap (·.inputs) := by
  have hsplit : queue.flatMap (·.inputs) =
      inputBundles queue count ++ (queue.drop count).flatMap (·.inputs) := by
    rw [inputBundles, ← List.flatMap_append, List.take_append_drop]
  rw [hsplit, List.drop_left]

theorem outputsOf_split (queue : List BundleCompaction) (count : Nat) :
    outputsOf queue = outputBranches queue count ++ outputsOf (queue.drop count) := by
  rw [outputsOf, outputBranches, outputsOf, ← List.filter_append, ← List.map_append,
    List.take_append_drop]

omit [DecidableEq K] in
theorem claimOf_applied {count m : Nat} (hok : StateOk σ st (.built σ count m ::ₘ l)) :
    claimOf { st with maplet := m } (.applied σ count ::ₘ l) =
      ⟨m, (claimOf st (.built σ count m ::ₘ l)).inputs.drop
        (inputBundles st.bundleCompactions count).length,
        outputsOf (st.bundleCompactions.drop count), 0⟩ := by
  obtain ⟨hsum, hidle⟩ := others_idle (hok.not_isMaplet rfl)
  have hqueue : unapplied st.bundleCompactions (.applied σ count ::ₘ l) =
      st.bundleCompactions.drop count := by
    rw [unapplied_cons, unapplied, hsum]
    rfl
  rw [claimOf, claimOf, hqueue, unapplied_built hok, drop_inputBundles,
    Multiset.filterMap_cons_none _ _ rfl, hidle]

theorem PivotInv.applies (h : PivotInv strict s) {count m : Nat}
    (ha : AtTask s t σ (.built σ count m) st l) {pvt : Pivot K} (hm : Matched s st count pvt)
    (hlate : strict → st.abandoned = false) (hmod : s.modifying = none) {s' : TrunkState K}
    (hstate : s'.state = Function.update s.state σ (some { st with maplet := m }))
    (htask : s'.task = s.task.set t (.applied σ count))
    (hpivot : s'.pivot = Function.update s.pivot st.pivot
      (some (applyToPivot pvt m (outputBranches st.bundleCompactions count)
        (inputBundles st.bundleCompactions count).length)))
    (hmap : s'.map = s.map) (hnext : s'.nextState = s.nextState)
    (hnextC : s'.nextCompaction = s.nextCompaction) (hmod' : s'.modifying = some t) :
    PivotInv strict s' := by
  have hok := ha.stateOk h
  obtain ⟨-, hfin, hmaplet⟩ := hok.covered _ (Multiset.mem_cons_self _ _)
  have htasks : tasksOf s' σ = .applied σ count ::ₘ l := ha.tasks_set htask rfl
  have hothers : ∀ ρ, ρ ≠ σ → tasksOf s' ρ = tasksOf s ρ := fun ρ hρ =>
    ha.tasks_of_ne htask (Or.inl rfl) hρ
  have hself : s'.state σ = some { st with maplet := m } := by rw [hstate, Function.update_self]
  have hpvt' : s'.pivot st.pivot = some (applyToPivot pvt m
      (outputBranches st.bundleCompactions count)
      (inputBundles st.bundleCompactions count).length) := by rw [hpivot, Function.update_self]
  have hinflight : (applyToPivot pvt m (outputBranches st.bundleCompactions count)
      (inputBundles st.bundleCompactions count).length).inflight.length =
        pvt.inflight.length - (inputBundles st.bundleCompactions count).length := by
    rw [applyToPivot, List.length_drop]
  have hpos := hm.pos
  have hle := hm.le
  have ht : Touched s s' st.pivot σ { st with maplet := m } :=
    { self := hself
      pivot_self := rfl
      state := fun τ hτ => by rw [hstate, Function.update_of_ne hτ]
      tasks := hothers
      before := fun st₀ hst₀ => by rw [Option.some.inj (ha.state.symm.trans hst₀)]
      pivot := fun q hq => by rw [hpivot, Function.update_of_ne hq]
      map := fun q _ => by rw [hmap]
      nextState := hnext.ge
      nextCompaction := hnextC.ge }
  -- unless it comes late, the application is for the state in the table
  have htable : strict → s.map st.pivot = some σ := fun hstrict =>
    h.live hstrict σ st ha.state (hlate hstrict)
  refine h.touched ht (htasks ▸ hok.apply) (hnext ▸ hnextC ▸ h.older σ st ha.state) ?_
    ⟨_, hpvt', ?_⟩ ?_ ?_
  · intro t' ρ n ht'
    rw [hmod']
    rw [htask] at ht'
    by_cases heq : t = t'
    · rw [heq]
    · rw [List.getElem?_set_ne heq] at ht'
      have hsome := h.applying t' ρ n ht'
      rw [hmod] at hsome
      cases hsome
  · have hledger := h.ledger _ pvt hm.pivot
    have hc := claims_of_state ha.state
    have hfits : Fits pvt (claimOf st (tasksOf s σ)) := by
      rw [ha.tasks, claimOf, unapplied_built hok]
      exact ⟨hm.fits, hm.maplet⟩
    rw [htasks, claimOf_applied hok, ← ha.tasks]
    refine hledger.apply hc hfits ?_ hm.pos ?_ hmaplet
    · rw [ha.tasks]
      change m ∈ Multiset.filterMap Task.newMaplet (.built σ count m ::ₘ l)
      rw [Multiset.filterMap_cons_some _ _ _ (show Task.newMaplet _ = some m from rfl)]
      exact Multiset.mem_cons_self _ _
    · rw [ha.tasks, claimOf, unapplied_built hok]
      exact outputsOf_split _ _
  · intro τ hτmap
    rw [hmap] at hτmap
    obtain ⟨st₀, pvt₀, hst₀, hpvt₀, hmapped⟩ := h.mapped _ τ hτmap
    obtain rfl : pvt = pvt₀ := Option.some.inj (hm.pivot.symm.trans hpvt₀)
    by_cases hτ : τ = σ
    · subst hτ
      obtain rfl : st = st₀ := Option.some.inj (ha.state.symm.trans hst₀)
      refine ⟨_, _, hself, hpvt', ?_⟩
      rw [htasks]
      refine ⟨hmapped.abandoned, rfl, hmapped.ubkey, ?_⟩
      rw [claimOf_applied hok, hinflight, List.length_drop, ← ha.tasks]
      refine hmapped.covers.imp (fun hall => ⟨?_, rfl⟩) fun hless => ⟨hless.1, ?_⟩
      · change List.drop _ _ = List.drop _ _
        rw [hall.1]
      · have hlt := hless.2
        omega
    · refine ⟨st₀, _, (ht.state τ hτ).trans hst₀, hpvt', ?_⟩
      rw [hothers τ hτ]
      refine ⟨hmapped.abandoned, hmapped.pivot, hmapped.ubkey, Or.inr ⟨fun hstrict => ?_, ?_⟩⟩
      · exact hτ (Option.some.inj (hτmap.symm.trans (htable hstrict)))
      · rw [hinflight]
        rcases hmapped.covers with hall | ⟨-, hless⟩
        · rw [hall.1]
          omega
        · omega
  · intro hstrict τ st₀ hst₀ hq hab
    rw [hmap]
    by_cases hτ : τ = σ
    · rw [hτ]
      exact htable hstrict
    · rw [← hq]
      exact h.live hstrict τ st₀ (ht.state τ hτ ▸ hst₀) hab

theorem mapRemove_map_of_ne (s : TrunkState K) (σ : Nat) {p q : PivotId K}
    (hq : q ≠ p) : (s.mapRemove σ p).map q = s.map q := by
  rw [TrunkState.mapRemove]
  split
  · exact Function.update_of_ne hq _ _
  · rfl

theorem mapRemove_map_self {p : PivotId K} {τ : Nat} :
    (s.mapRemove σ p).map p = some τ ↔ s.map p = some τ ∧ τ ≠ σ := by
  rw [TrunkState.mapRemove]
  by_cases hmap : s.map p = some σ
  · rw [if_pos hmap, hmap, Option.some.injEq]
    simp [eq_comm]
  · rw [if_neg hmap]
    exact ⟨fun hτ => ⟨hτ, fun heq => hmap (heq ▸ hτ)⟩, And.left⟩

@[simp] theorem mapRemove_state (s : TrunkState K) (σ : Nat) (p : PivotId K) :
    (s.mapRemove σ p).state = s.state := by
  rw [TrunkState.mapRemove]
  split <;> rfl

@[simp] theorem mapRemove_task (s : TrunkState K) (σ : Nat) (p : PivotId K) :
    (s.mapRemove σ p).task = s.task := by
  rw [TrunkState.mapRemove]
  split <;> rfl

@[simp] theorem mapRemove_pivot (s : TrunkState K) (σ : Nat) (p : PivotId K) :
    (s.mapRemove σ p).pivot = s.pivot := by
  rw [TrunkState.mapRemove]
  split <;> rfl

@[simp] theorem mapRemove_nextState (s : TrunkState K) (σ : Nat) (p : PivotId K) :
    (s.mapRemove σ p).nextState = s.nextState := by
  rw [TrunkState.mapRemove]
  split <;> rfl

@[simp] theorem mapRemove_nextCompaction (s : TrunkState K) (σ : Nat) (p : PivotId K) :
    (s.mapRemove σ p).nextCompaction = s.nextCompaction := by
  rw [TrunkState.mapRemove]
  split <;> rfl

@[simp] theorem mapRemove_modifying (s : TrunkState K) (σ : Nat) (p : PivotId K) :
    (s.mapRemove σ p).modifying = s.modifying := by
  rw [TrunkState.mapRemove]
  split <;> rfl

theorem PivotInv.freed (h : PivotInv strict s) {σ : Nat} (hstate : s'.state = Function.update s.state σ none)
    (hothers : ∀ ρ, ρ ≠ σ → tasksOf s' ρ = tasksOf s ρ) (hidle : tasksOf s' σ = 0)
    (hpivot : s'.pivot = s.pivot) (hnext : s'.nextState = s.nextState)
    (hnextC : s'.nextCompaction = s.nextCompaction)
    (hmap : ∀ p τ, s'.map p = some τ ↔ s.map p = some τ ∧ τ ≠ σ)
    (happlying : Applying s'.task s'.modifying) : PivotInv strict s' := by
  have hold : ∀ τ st₀, s'.state τ = some st₀ → s.state τ = some st₀ ∧ τ ≠ σ := by
    intro τ st₀ hst₀
    rw [hstate] at hst₀
    by_cases hτ : τ = σ
    · rw [hτ, Function.update_self] at hst₀
      cases hst₀
    · rw [Function.update_of_ne hτ] at hst₀
      exact ⟨hst₀, hτ⟩
  refine ⟨?_, ?_, ?_, happlying, ?_, ?_, ?_, ?_⟩
  · intro τ st₀ hst₀
    obtain ⟨hst, hτ⟩ := hold τ st₀ hst₀
    rw [hothers τ hτ]
    exact h.states τ st₀ hst
  · intro τ st₀ hst₀
    rw [hnext, hnextC]
    exact h.older τ st₀ (hold τ st₀ hst₀).1
  · intro τ hne
    have hτ : τ ≠ σ := by
      rintro rfl
      exact hne hidle
    rw [hstate, Function.update_of_ne hτ]
    exact h.alive τ (hothers τ hτ ▸ hne)
  · intro τ st₀ hst₀
    rw [hpivot]
    exact h.placed τ st₀ (hold τ st₀ hst₀).1
  · intro q pvt hpvt
    rw [hpivot] at hpvt
    refine (h.ledger q pvt hpvt).weaken fun τ c hc => ?_
    obtain ⟨st₀, hst₀, hq, hclaim⟩ := claims_eq_some.mp hc
    obtain ⟨hst, hτ⟩ := hold τ st₀ hst₀
    rw [hothers τ hτ] at hclaim
    exact ⟨c, claims_eq_some.mpr ⟨st₀, hst, hq, hclaim⟩, rfl, rfl, rfl, fun m hm => Or.inl hm⟩
  · intro q τ hτ
    obtain ⟨hmap₀, hne⟩ := (hmap q τ).mp hτ
    obtain ⟨st₀, pvt, hst₀, hpvt, hm⟩ := h.mapped q τ hmap₀
    refine ⟨st₀, pvt, ?_, hpivot ▸ hpvt, hothers τ hne ▸ hm⟩
    rw [hstate, Function.update_of_ne hne]
    exact hst₀
  · intro hstrict τ st₀ hst₀ hab
    obtain ⟨hst, hτ⟩ := hold τ st₀ hst₀
    exact (hmap _ τ).mpr ⟨h.live hstrict τ st₀ hst hab, hτ⟩

theorem PivotInv.releases (h : PivotInv strict s) (ha : AtTask s t σ (.releasing σ) st l) :
    ∃ s', releaseEntry (s.goto t .done) σ = some s' ∧ PivotInv strict s' := by
  have hok := ha.stateOk h
  have htasks : tasksOf (s.goto t .done) σ = l := by
    have hset := ha.set .done
    rw [if_neg (by simp [Task.state])] at hset
    exact hset
  have hothers : ∀ ρ, ρ ≠ σ → tasksOf (s.goto t .done) ρ = tasksOf s ρ := fun ρ hρ =>
    ha.tasks_of_ne rfl (Or.inr rfl) hρ
  have hgone : (s.goto t .done).state σ = some st := ha.state
  have hcard := hok.refcount
  rw [Multiset.card_cons] at hcard
  rcases hcount : st.refcount with _ | _ | count
  · omega
  · -- the last reference
    have hnone : l = 0 := hok.release_last hcount
    refine ⟨_, by
      simp only [releaseEntry, hgone, Option.bind_some, hcount]
      rfl, ?_⟩
    refine h.freed (σ := σ) ?_ ?_ ?_ ?_ ?_ ?_ ?_ ?_
    · change Function.update ((s.goto t .done).mapRemove σ st.pivot).state σ none = _
      rw [mapRemove_state]
      rfl
    · intro ρ hρ
      change tasksIn ((s.goto t .done).mapRemove σ st.pivot).task ρ = _
      rw [mapRemove_task]
      exact hothers ρ hρ
    · change tasksIn ((s.goto t .done).mapRemove σ st.pivot).task σ = _
      rw [mapRemove_task]
      exact htasks.trans hnone
    · exact mapRemove_pivot _ _ _
    · exact mapRemove_nextState _ _ _
    · exact mapRemove_nextCompaction _ _ _
    · intro p τ
      change ((s.goto t .done).mapRemove σ st.pivot).map p = some τ ↔ s.map p = some τ ∧ τ ≠ σ
      by_cases heq : p = st.pivot
      · subst heq
        exact mapRemove_map_self
      · rw [mapRemove_map_of_ne _ σ heq]
        refine ⟨fun hτ => ⟨hτ, ?_⟩, And.left⟩
        rintro rfl
        obtain ⟨st₀, pvt, hst₀, -, hm⟩ := h.mapped p τ hτ
        obtain rfl : st = st₀ := Option.some.inj (ha.state.symm.trans hst₀)
        exact heq hm.pivot.symm
    · change Applying ((s.goto t .done).mapRemove σ st.pivot).task
        ((s.goto t .done).mapRemove σ st.pivot).modifying
      rw [mapRemove_task, mapRemove_modifying]
      exact Applying.set h.applying t (by simp)
  · refine ⟨_, by
      simp only [releaseEntry, hgone, Option.bind_some, hcount]
      rfl, ?_⟩
    have hclaim : claimOf { st with refcount := count + 1 } l =
        claimOf st (.releasing σ ::ₘ l) := (claimOf_cons rfl rfl).symm
    refine h.keepsClaim (ha.background rfl hothers rfl rfl rfl rfl ⟨rfl, rfl, rfl, rfl⟩
      fun bc hbc => ⟨bc, hbc, rfl⟩) ?_ (Applying.set h.applying t (by simp)) ?_ ?_ ?_
    · change StateOk σ _ (tasksOf (s.goto t .done) σ)
      rw [htasks]
      exact hok.release hcount
    · change (claimOf _ (tasksOf (s.goto t .done) σ)).inputs = _
      rw [htasks, ha.tasks, hclaim]
    · change (claimOf _ (tasksOf (s.goto t .done) σ)).outputs = _
      rw [htasks, ha.tasks, hclaim]
    · intro m hm
      change m ∈ (claimOf _ (tasksOf (s.goto t .done) σ)).building at hm
      rw [htasks, hclaim] at hm
      rw [ha.tasks]
      exact Or.inl hm

theorem PivotInv.forget (h : PivotInv strict s) (map : PivotId K → Option Nat)
    (hmap : ∀ q τ, map q = some τ → s.map q = some τ)
    (hkept : strict → ∀ q τ st, s.map q = some τ → s.state τ = some st → st.abandoned = false →
      map q = some τ) : PivotInv strict { s with map := map } :=
  ⟨h.states, h.older, h.alive, h.applying, h.placed, h.ledger,
    fun q τ hτ => h.mapped q τ (hmap q τ hτ),
    fun hstrict τ st hst hab => hkept hstrict _ τ st (h.live hstrict τ st hst hab) hst hab⟩

theorem mapRemove_eq (s : TrunkState K) (σ : Nat) (p : PivotId K) :
    s.mapRemove σ p = { s with map := (s.mapRemove σ p).map } := by
  rw [TrunkState.mapRemove]
  split <;> rfl

theorem PivotInv.discards (h : PivotInv strict s) {count m : Nat}
    (ha : AtTask s t σ (.built σ count m) st l) (hlate : strict → st.abandoned = true) :
    PivotInv strict (((s.mapRemove σ st.pivot).setState σ
      { st with mapletCompactionFailed := true }).goto t (.releasing σ)) := by
  have hfailed := h.fails ha rfl rfl
  rw [mapRemove_eq]
  refine hfailed.forget (s.mapRemove σ st.pivot).map (fun q τ hτ => ?_)
    fun hstrict q τ st₀ hτ hst₀ hab => ?_
  · change s.map q = some τ
    by_cases hq : q = st.pivot
    · subst hq
      exact (mapRemove_map_self.mp hτ).1
    · rwa [mapRemove_map_of_ne s σ hq] at hτ
  · change s.map q = some τ at hτ
    change Function.update s.state σ _ τ = some st₀ at hst₀
    by_cases hq : q = st.pivot
    · subst hq
      refine mapRemove_map_self.mpr ⟨hτ, ?_⟩
      rintro rfl
      rw [Function.update_self] at hst₀
      rw [← Option.some.inj hst₀] at hab
      exact Bool.false_ne_true (hab.symm.trans (hlate hstrict))
    · rw [mapRemove_map_of_ne s σ hq]
      exact hτ

end Tasks

/-! ## Incorporations -/

section Incorporations

variable {s : TrunkState K} {p : PivotId K} {pvt : Pivot K}

theorem PivotInv.abandon (h : PivotInv strict s) (p : PivotId K) :
    PivotInv strict (abandonEntry s p) ∧ (abandonEntry s p).map p = none ∧
      (abandonEntry s p).pivot = s.pivot ∧ (abandonEntry s p).modifying = s.modifying ∧
      ∀ q, claims (abandonEntry s p) q = claims s q := by
  cases hmap : s.map p with
  | none =>
      have heq : abandonEntry s p = s := by simp [abandonEntry, hmap]
      rw [heq]
      exact ⟨h, hmap, rfl, rfl, fun _ => rfl⟩
  | some σ =>
      obtain ⟨st, pvt, hst, hpvt, hm⟩ := h.mapped p σ hmap
      have heq : abandonEntry s p = TrunkState.setState
          { s with map := Function.update s.map p none } σ { st with abandoned := true } := by
        simp only [abandonEntry, hmap, hst]
        exact if_pos hmap
      have hnone : (abandonEntry s p).map p = none := by
        rw [heq]
        exact Function.update_self _ _ _
      have hself : (abandonEntry s p).state σ = some { st with abandoned := true } := by
        rw [heq]
        exact Function.update_self _ _ _
      have hstates : ∀ τ, τ ≠ σ → (abandonEntry s p).state τ = s.state τ := fun τ hτ => by
        rw [heq]
        exact Function.update_of_ne hτ _ _
      have htasks : ∀ τ, tasksOf (abandonEntry s p) τ = tasksOf s τ := fun τ => by
        rw [heq]
        rfl
      have hclaims : ∀ q, claims (abandonEntry s p) q = claims s q := by
        intro q
        funext τ
        by_cases hτ : τ = σ
        · subst hτ
          rw [claims, claims, hself, hst, htasks]
          rfl
        · rw [claims, claims, hstates τ hτ, htasks]
      have ht : Touched s (abandonEntry s p) p σ { st with abandoned := true } :=
        { self := hself
          pivot_self := hm.pivot
          state := hstates
          tasks := fun τ _ => htasks τ
          before := fun st₀ hst₀ => by rw [Option.some.inj (hst₀.symm.trans hst)]; exact hm.pivot
          pivot := fun q _ => by rw [heq]; rfl
          map := fun q hq => by rw [heq]; exact Function.update_of_ne hq _ _
          nextState := by rw [heq]; exact le_rfl
          nextCompaction := by rw [heq]; exact le_rfl }
      have hpivot : (abandonEntry s p).pivot = s.pivot := by
        rw [heq]
        rfl
      refine ⟨?_, hnone, hpivot, by rw [heq]; rfl, hclaims⟩
      refine h.touched ht (htasks σ ▸ (h.states σ st hst).abandon) ?_ ?_
        ⟨pvt, hpivot ▸ hpvt, ?_⟩ ?_ ?_
      · rw [heq]
        exact h.older σ st hst
      · rw [heq]
        exact h.applying
      · rw [← ht.claims_self, hclaims]
        exact h.ledger p pvt hpvt
      · intro τ hτ
        rw [hnone] at hτ
        cases hτ
      · intro hstrict τ st₀ hst₀ hq hab
        have hτ : τ ≠ σ := by
          rintro rfl
          rw [hself] at hst₀
          rw [← Option.some.inj hst₀] at hab
          cases hab
        have hmap' := h.live hstrict τ st₀ (hstates τ hτ ▸ hst₀) hab
        rw [hq, hmap] at hmap'
        exact absurd (Option.some.inj hmap').symm hτ

theorem abandonEntry_map_of_ne (s : TrunkState K) {p q : PivotId K} (hq : q ≠ p) :
    (abandonEntry s p).map q = s.map q := by
  rw [abandonEntry]
  split
  · rfl
  · split
    · rfl
    · exact mapRemove_map_of_ne _ _ hq

theorem PivotInv.replace (h : PivotInv strict s) (hmap : s.map p = none) {pvt' : Pivot K}
    (hledger : Ledger pvt' (claims s p)) : PivotInv strict (s.setPivot p pvt') := by
  have hpivot : ∀ q, q ≠ p → (s.setPivot p pvt').pivot q = s.pivot q := fun q hq =>
    Function.update_of_ne hq _ _
  have hself : (s.setPivot p pvt').pivot p = some pvt' := Function.update_self _ _ _
  refine ⟨h.states, h.older, h.alive, h.applying, ?_, ?_, ?_, h.live⟩
  · intro τ st hst
    by_cases hq : st.pivot = p
    · rw [hq, hself]
      rfl
    · rw [hpivot _ hq]
      exact h.placed τ st hst
  · intro q pvt hpvt
    by_cases hq : q = p
    · subst hq
      obtain rfl : pvt' = pvt := Option.some.inj (hself.symm.trans hpvt)
      exact hledger
    · rw [hpivot q hq] at hpvt
      exact h.ledger q pvt hpvt
  · intro q τ hτ
    have hq : q ≠ p := by
      rintro rfl
      rw [show (s.setPivot q pvt').map q = s.map q from rfl, hmap] at hτ
      cases hτ
    obtain ⟨st, pvt, hst, hpvt, hm⟩ := h.mapped q τ hτ
    exact ⟨st, pvt, hst, (hpivot q hq).trans hpvt, hm⟩

/-- What the lookup of a state yields: the state and its tasks before the lookup took a reference, which
for a new state are none. -/
structure Looked (strict : Prop) (s s₁ : TrunkState K) (p : PivotId K) (pvt : Pivot K) (σ : Nat)
    (st old : PivotState K) (l : Multiset Task) : Prop where
  stateOk : StateOk σ old l
  tasks : tasksOf s σ = l
  state : st = { old with refcount := old.refcount + 1 }
  pivot : old.pivot = p
  abandoned : old.abandoned = false
  ubkey : old.ubkey = pvt.ubkey
  ids : ∀ bc ∈ old.bundleCompactions, bc.id < s.nextCompaction
  before : ∀ st₀, s.state σ = some st₀ → st₀ = old
  claim : (s.state σ = none ∧ s.map p = none ∧ l = 0 ∧ old.bundleCompactions = [] ∧
      old.maplet = pvt.pivotBundle.maplet) ∨
    (s.state σ = some old ∧ s.map p = some σ ∧ Mapped strict old p pvt l)
  self : s₁.map p = some σ
  map : ∀ q, q ≠ p → s₁.map q = s.map q
  lt : σ < s₁.nextState
  nextState : s.nextState ≤ s₁.nextState
  rest : s₁.state = s.state ∧ s₁.task = s.task ∧ s₁.pivot = s.pivot ∧
    s₁.nextCompaction = s.nextCompaction ∧ s₁.modifying = s.modifying ∧ s₁.failed = s.failed

theorem PivotInv.looked (h : PivotInv strict s) (hpvt : s.pivot p = some pvt) (pvt' : Pivot K)
    (hbundle : pvt'.pivotBundle = pvt.pivotBundle) (hubkey : pvt'.ubkey = pvt.ubkey) :
    ∃ σ st s₁ old l, getOrCreateEntry (s.setPivot p pvt') p pvt' = some (σ, st, s₁.setPivot p pvt') ∧
      Looked strict s s₁ p pvt σ st old l := by
  cases hmap : s.map p with
  | some σ =>
      obtain ⟨old, pvt₀, hold, hpvt₀, hm⟩ := h.mapped p σ hmap
      obtain rfl : pvt = pvt₀ := Option.some.inj (hpvt.symm.trans hpvt₀)
      refine ⟨σ, { old with refcount := old.refcount + 1 }, s, old, tasksOf s σ, ?_, ?_⟩
      · have hmap' : (s.setPivot p pvt').map p = some σ := hmap
        have hold' : (s.setPivot p pvt').state σ = some old := hold
        simp only [getOrCreateEntry, hmap', hold', Option.map_some]
      · exact
          { stateOk := h.states σ old hold
            tasks := rfl
            state := rfl
            pivot := hm.pivot
            abandoned := hm.abandoned
            ubkey := hm.ubkey
            ids := (h.older σ old hold).2
            before := fun st₀ hst₀ => Option.some.inj (hst₀.symm.trans hold)
            claim := Or.inr ⟨hold, hmap, hm⟩
            self := hmap
            map := fun _ _ => rfl
            lt := (h.older σ old hold).1
            nextState := le_rfl
            rest := ⟨rfl, rfl, rfl, rfl, rfl, rfl⟩ }
  | none =>
      have hnone : s.state s.nextState = none := by
        cases hst : s.state s.nextState with
        | none => rfl
        | some st₀ => exact absurd (h.older _ st₀ hst).1 (lt_irrefl _)
      have hidle : tasksOf s s.nextState = 0 := by
        by_contra hne
        have hsome := h.alive _ hne
        rw [hnone] at hsome
        cases hsome
      let blank : PivotState K :=
        { refcount := 0
          mapletCompactionInitiated := false
          abandoned := false
          pivot := p
          ubkey := pvt'.ubkey
          maplet := pvt'.pivotBundle.maplet
          mapletCompactionFailed := false
          totalBundles := 0
          bundleCompactions := [] }
      refine ⟨s.nextState, { blank with refcount := 1 },
        { s with
          map := Function.update s.map p (some s.nextState)
          nextState := s.nextState + 1 }, blank, 0, ?_, ?_⟩
      · have hmap' : (s.setPivot p pvt').map p = none := hmap
        simp only [getOrCreateEntry, hmap']
        rfl
      · have hok : StateOk s.nextState blank 0 :=
          { refcount := rfl
            pending := by simp [pendingTasks]
            compacting := fun _ hin => absurd hin (Multiset.notMem_zero _)
            single := by simp
            maplets := rfl
            initiated := fun hf => nomatch hf
            covered := fun _ hin => absurd hin (Multiset.notMem_zero _)
            total := rfl
            ids := List.nodup_nil
            inputs := fun _ hin => nomatch hin
            outputs := fun _ hin => nomatch hin
            full := fun i bc hbc => by simp [blank, unapplied] at hbc
            headSeen := fun _ _ hqueue => nomatch hqueue }
        exact
          { stateOk := hok
            tasks := hidle
            state := rfl
            pivot := rfl
            abandoned := rfl
            ubkey := hubkey
            ids := fun _ hin => nomatch hin
            before := fun st₀ hst₀ => by rw [hnone] at hst₀; cases hst₀
            claim := Or.inl ⟨hnone, hmap, rfl, rfl, congrArg Bundle.maplet hbundle⟩
            self := Function.update_self _ _ _
            map := fun q hq => Function.update_of_ne hq _ _
            lt := Nat.lt_succ_self _
            nextState := Nat.le_succ _
            rest := ⟨rfl, rfl, rfl, rfl, rfl, rfl⟩ }

omit [DecidableEq K] in
theorem bundleCompactionCreate_eq_some {id n : Nat} {st : PivotState K} {bc : BundleCompaction}
    (h : bundleCompactionCreate id p pvt n st = some bc) :
    st.totalBundles = n ∧ bc.inputs = pvt.inflight.drop st.totalBundles ∧ bc.inputs ≠ [] ∧
      bc.id = id ∧ bc.status = .notStarted ∧ bc.outputBranch = 0 ∧
      (bc.mergeMode = .full →
        p.2 = 0 ∧ st.bundleCompactions = [] ∧ pvt.pivotBundle.branches = []) := by
  simp only [bundleCompactionCreate] at h
  split at h
  · rename_i hcond
    obtain rfl := Option.some.inj h
    refine ⟨hcond.1, rfl, List.ne_nil_of_length_pos hcond.2, rfl, rfl, rfl, fun hfull => ?_⟩
    by_contra hnot
    rw [if_neg hnot] at hfull
    cases hfull
  · cases h

omit [DecidableEq K] in
theorem appendCompaction_eq_some {st st' : PivotState K} {bc : BundleCompaction}
    (h : appendCompaction st bc = some st') :
    st' = { st with
      bundleCompactions := st.bundleCompactions ++ [bc]
      totalBundles := st.totalBundles + bc.inputs.length } := by
  rw [appendCompaction] at h
  split at h
  · exact (Option.some.inj h).symm
  · cases h

theorem PivotInv.enqueues (h : PivotInv strict s) (hmod : s.modifying = none) (hpvt : s.pivot p = some pvt)
    {bundles : List Bundle} (hfresh : Ledger.FreshBundles pvt (claims s p) bundles) {n : Nat}
    (hn : s.map p = none ∨ n = pvt.inflight.length) {s' : TrunkState K}
    (hs' : enqueueBundleCompaction
      (s.setPivot p { pvt with inflight := pvt.inflight ++ bundles }) p
      { pvt with inflight := pvt.inflight ++ bundles } n = some s') : PivotInv strict s' := by
  obtain ⟨σ, st, s₁, old, l, hlook, hl⟩ :=
    h.looked hpvt { pvt with inflight := pvt.inflight ++ bundles } rfl rfl
  rw [enqueueBundleCompaction, hlook, Option.bind_some] at hs'
  obtain ⟨bc, hcreate, hs'⟩ := Option.bind_eq_some_iff.mp hs'
  obtain ⟨st', happend, hs'⟩ := Option.map_eq_some_iff.mp hs'
  obtain ⟨htotal, hinputs, hne, hid, hstatus, hout, hmode⟩ := bundleCompactionCreate_eq_some hcreate
  have hst' := appendCompaction_eq_some happend
  have hstate := hl.state
  subst hstate
  change old.totalBundles = n at htotal
  change bc.inputs = (pvt.inflight ++ bundles).drop old.totalBundles at hinputs
  change bc.mergeMode = .full → p.2 = 0 ∧ old.bundleCompactions = [] ∧
    pvt.pivotBundle.branches = [] at hmode
  change bc.id = s.nextCompaction at hid
  obtain ⟨hrest₁, hrest₂, hrest₃, hrest₄, hrest₅, -⟩ := hl.rest
  have hledger := h.ledger p pvt hpvt
  have hsum : (l.map Task.appliedCount).sum = 0 := hl.tasks ▸ h.noneApplied hmod σ
  have hunapplied : ∀ queue, unapplied queue l = queue := fun queue => by
    rw [unapplied, hsum, List.drop_zero]
  have holdTotal := hl.stateOk.total
  -- the state covers exactly the old bundles
  have hexact : old.bundleCompactions.flatMap (·.inputs) ++ bc.inputs = pvt.inflight ++ bundles ∧
      old.maplet = pvt.pivotBundle.maplet := by
    rcases hl.claim with ⟨-, -, -, hnil, hmaplet⟩ | ⟨-, hmap, hm⟩
    · rw [hnil] at holdTotal ⊢
      rw [hinputs, holdTotal]
      exact ⟨rfl, hmaplet⟩
    · have hlen : n = pvt.inflight.length := by
        rcases hn with hnone | hlen
        · rw [hmap] at hnone
          cases hnone
        · exact hlen
      have hcovers := hm.covers
      have hclaimed : (claimOf old l).inputs = old.bundleCompactions.flatMap (·.inputs) := by
        rw [claimOf, hunapplied]
      rw [hclaimed] at hcovers
      rcases hcovers with ⟨hall, hmaplet⟩ | ⟨-, hless⟩
      · refine ⟨?_, hmaplet⟩
        rw [hinputs, htotal, hlen, List.drop_left, hall]
      · omega
  have hbranches : ∀ b ∈ bc.inputs, b.branches ≠ [] := by
    intro b hb
    rw [hinputs] at hb
    rcases List.mem_append.mp (List.mem_of_mem_drop hb) with hb | hb
    · exact hledger.nonempty b hb
    · exact hfresh.nonempty b hb
  have hnotIn : bc.id ∉ old.bundleCompactions.map (·.id) := by
    intro hin
    obtain ⟨b, hb, heq⟩ := List.mem_map.mp hin
    have hlt := hl.ids b hb
    omega
  have hfull : bc.mergeMode = .full →
      old.pivot.2 = 0 ∧ old.bundleCompactions = [] ∧ old.maplet = 0 := by
    intro hfull
    obtain ⟨hleaf, hnil, hempty⟩ := hmode hfull
    exact ⟨hl.pivot ▸ hleaf, hnil, hexact.2.trans (hledger.maplet.mpr hempty)⟩
  have hok := hl.stateOk.append ⟨hstatus, hout⟩ hnotIn ⟨hne, hbranches⟩ hsum hfull
  have hfinal : st' = { old with
      refcount := old.refcount + 1
      bundleCompactions := old.bundleCompactions ++ [bc]
      totalBundles := old.totalBundles + bc.inputs.length } := hst'
  rw [← hfinal] at hok
  have htask : s'.task = s.task ++ [.bundle σ] := by
    rw [← hs', ← hrest₂]
    rfl
  have hself : s'.state σ = some st' := by
    rw [← hs']
    exact Function.update_self _ _ _
  have htasks : tasksOf s' σ = .bundle σ ::ₘ l := by
    have hbundle : (Task.bundle σ).state = some σ := rfl
    rw [tasksOf, htask, tasksIn_append, if_pos hbundle, ← hl.tasks, tasksOf]
  have hpivot : s'.pivot = Function.update s.pivot p
      (some { pvt with inflight := pvt.inflight ++ bundles }) := by
    rw [← hs', ← hrest₃]
    rfl
  have hmap : s'.map = s₁.map := by
    rw [← hs']
    rfl
  have hnext : s'.nextState = s₁.nextState := by
    rw [← hs']
    rfl
  have hnextC : s'.nextCompaction = s.nextCompaction + 1 := by
    rw [← hs']
    rfl
  have ht : Touched s s' p σ st' :=
    { self := hself
      pivot_self := by rw [hfinal]; exact hl.pivot
      state := fun τ hτ => by
        rw [← hs']
        change Function.update s₁.state σ (some st') τ = _
        rw [Function.update_of_ne hτ, hrest₁]
      tasks := fun τ hτ => by
        have hother : (Task.bundle σ).state ≠ some τ := fun heq =>
          hτ (Option.some.inj heq).symm
        rw [tasksOf, htask, tasksIn_append, if_neg hother, tasksOf]
      before := fun st₀ hst₀ => by rw [hl.before st₀ hst₀]; exact hl.pivot
      pivot := fun q hq => by rw [hpivot, Function.update_of_ne hq]
      map := fun q hq => by rw [hmap, hl.map q hq]
      nextState := hnext ▸ hl.nextState
      nextCompaction := hnextC ▸ Nat.le_succ _ }
  have hpvt' : s'.pivot p = some { pvt with inflight := pvt.inflight ++ bundles } := by
    rw [hpivot, Function.update_self]
  have hinputs' : (claimOf st' (.bundle σ ::ₘ l)).inputs = pvt.inflight ++ bundles := by
    rw [claimOf_cons rfl rfl, claimOf, hunapplied, hfinal, List.flatMap_append]
    simpa using hexact.1
  have hmaplet' : st'.maplet = pvt.pivotBundle.maplet := by
    rw [hfinal]
    exact hexact.2
  refine h.touched ht (htasks ▸ hok) ⟨hnext ▸ hl.lt, ?_⟩ ?_ ⟨_, hpvt', ?_⟩ ?_ ?_
  · intro b hb
    rw [hnextC]
    rw [hfinal] at hb
    rcases List.mem_append.mp hb with hb | hb
    · exact (hl.ids b hb).trans (Nat.lt_succ_self _)
    · rw [List.mem_singleton.mp hb, hid]
      exact Nat.lt_succ_self _
  · rw [htask, ← hs']
    change Applying _ s₁.modifying
    rw [hrest₅]
    exact Applying.append h.applying (by simp)
  · rw [htasks]
    refine (hledger.receive hfresh).claim hmaplet' hinputs' ?_
    rcases hl.claim with ⟨hnone, -, hl₀, hnil, -⟩ | ⟨hold, -, hm⟩
    · refine Or.inl ⟨?_, ?_, ?_⟩
      · rw [claims, hnone]
        rfl
      · rw [claimOf_cons rfl rfl, claimOf, hunapplied, hfinal, hnil]
        simp [outputsOf, hout]
      · rw [claimOf_cons rfl rfl, claimOf, hl₀]
        rfl
    · refine Or.inr ⟨claimOf old l, ?_, ?_, ?_, ?_⟩
      · have hclaim := claims_of_state hold
        rw [hl.pivot, hl.tasks] at hclaim
        exact hclaim
      · exact (hexact.2.trans hmaplet'.symm)
      · rw [claimOf_cons rfl rfl, claimOf, claimOf, hunapplied, hunapplied, hfinal]
        simp [outputsOf, hout]
      · rw [claimOf_cons rfl rfl, claimOf, claimOf]
  · intro τ hτ
    rw [hmap, hl.self] at hτ
    obtain rfl := Option.some.inj hτ
    refine ⟨st', _, hself, hpvt', ?_⟩
    rw [htasks]
    refine ⟨?_, ht.pivot_self, ?_, Or.inl ⟨hinputs', hmaplet'⟩⟩
    · rw [hfinal]
      exact hl.abandoned
    · rw [hfinal]
      exact hl.ubkey
  · intro hstrict τ st₀ hst₀ hq hab
    rw [hmap, hl.self]
    by_cases hτ : τ = σ
    · rw [hτ]
    · have hold := h.live hstrict τ st₀ (ht.state τ hτ ▸ hst₀) hab
      rw [hq] at hold
      rcases hl.claim with ⟨-, hnone, -⟩ | ⟨-, hsome, -⟩
      · rw [hold] at hnone
        cases hnone
      · exact hsome.symm.trans hold

theorem PivotInv.receives (h : PivotInv strict s) (hmod : s.modifying = none)
    {bundles : List Bundle} (hfresh : areFresh s p bundles = true) {s' : TrunkState K}
    (hs' : receiveBundles s p bundles = some s') : PivotInv strict s' := by
  obtain ⟨pvt, hpvt, hs'⟩ := Option.bind_eq_some_iff.mp hs'
  exact h.enqueues hmod hpvt (h.freshBundles hfresh hpvt).2 (Or.inr rfl) hs'

theorem PivotInv.flushes (h : PivotInv strict s) {ubkey : K} {s' : TrunkState K}
    (hs' : flushToOneChild s p ubkey = some s') : PivotInv strict s' := by
  obtain ⟨pvt, hpvt, rfl⟩ := Option.map_eq_some_iff.mp hs'
  obtain ⟨habandoned, hmap, -, -, hclaims⟩ := h.abandon p
  refine habandoned.replace hmap ?_
  rw [hclaims]
  exact (h.ledger p pvt hpvt).flush ubkey

omit [DecidableEq K] in
theorem leafSplitBundles_append (pvt : Pivot K) (bundles : List Bundle) :
    leafSplitBundles pvt bundles = leafSplitBundles pvt [] ++ bundles := by
  rw [leafSplitBundles, leafSplitBundles, List.append_nil]

omit [DecidableEq K] in
theorem freshBundles_split {claims : Nat → Option Claim} {bundles : List Bundle}
    (h : Ledger.FreshBundles pvt claims bundles) (ubkey : K) :
    Ledger.FreshBundles { emptyPivot ubkey with inflight := leafSplitBundles pvt [] } claims
      bundles := by
  refine ⟨h.nonempty, h.nodup, fun a ha => ⟨fun hin => (h.fresh a ha).1 ?_, (h.fresh a ha).2⟩⟩
  exact hin.imp_left fun hheld => Ledger.held_split pvt ubkey ▸ hheld

/-- The leaf that takes the place of a split one, before it receives anything new. -/
def splitPivot (pvt : Pivot K) (ubkey : K) : Pivot K :=
  { emptyPivot ubkey with inflight := leafSplitBundles pvt [] }

theorem restoreBalanceLeaf_eq (hpvt : s.pivot p = some pvt) (ubkey : K) (bundles : List Bundle) :
    restoreBalanceLeaf s p ubkey bundles =
      enqueueBundleCompaction
        (((abandonEntry s p).setPivot p (splitPivot pvt ubkey)).setPivot p
          { splitPivot pvt ubkey with
            inflight := (splitPivot pvt ubkey).inflight ++ bundles }) p
        { splitPivot pvt ubkey with inflight := (splitPivot pvt ubkey).inflight ++ bundles } 0 := by
  have hidem : ∀ pvt₁ pvt₂ : Pivot K, ((abandonEntry s p).setPivot p pvt₁).setPivot p pvt₂ =
      (abandonEntry s p).setPivot p pvt₂ := fun pvt₁ pvt₂ => by
    simp only [TrunkState.setPivot, Function.update_idem]
  rw [restoreBalanceLeaf, hpvt, Option.bind_some, hidem, leafSplitBundles_append]
  rfl

theorem PivotInv.replacesLeaf (h : PivotInv strict s) (hpvt : s.pivot p = some pvt) (ubkey : K)
    {bundles : List Bundle} (hfresh : areFresh s p bundles = true) :
    PivotInv strict ((abandonEntry s p).setPivot p (splitPivot pvt ubkey)) ∧
      (abandonEntry s p).map p = none ∧ (abandonEntry s p).modifying = s.modifying ∧
      Ledger.FreshBundles (splitPivot pvt ubkey)
        (claims ((abandonEntry s p).setPivot p (splitPivot pvt ubkey)) p) bundles := by
  obtain ⟨habandoned, hmap, hpivot, hmod', hclaims⟩ := h.abandon p
  have hledger := h.ledger p pvt hpvt
  refine ⟨habandoned.replace hmap (by rw [hclaims]; exact hledger.split ubkey), hmap, hmod', ?_⟩
  change Ledger.FreshBundles _ (claims (abandonEntry s p) p) bundles
  rw [hclaims]
  exact freshBundles_split (h.freshBundles hfresh hpvt).2 ubkey

theorem PivotInv.splits (h : PivotInv strict s) (hmod : s.modifying = none) {ubkey : K}
    {bundles : List Bundle} (hfresh : areFresh s p bundles = true) {s' : TrunkState K}
    (hs' : restoreBalanceLeaf s p ubkey bundles = some s') : PivotInv strict s' := by
  obtain ⟨pvt, hpvt, -⟩ := Option.bind_eq_some_iff.mp hs'
  obtain ⟨hsplit, hmap, hmod', hbundles⟩ := h.replacesLeaf hpvt ubkey hfresh
  rw [restoreBalanceLeaf_eq hpvt] at hs'
  exact hsplit.enqueues (hmod'.trans hmod) (Function.update_self _ _ _) hbundles (Or.inl hmap) hs'

theorem PivotInv.creates (h : PivotInv strict s) (hnone : s.pivot p = none) (hmap : s.map p = none)
    (ubkey : K) : PivotInv strict (s.setPivot p (emptyPivot ubkey)) := by
  refine h.replace hmap (Ledger.empty ubkey fun σ => ?_)
  cases hclaim : claims s p σ with
  | none => rfl
  | some c =>
      obtain ⟨st, hst, rfl, -⟩ := claims_eq_some.mp hclaim
      have hplaced := h.placed σ st hst
      rw [hnone] at hplaced
      cases hplaced

theorem PivotInv.remounts (h : PivotInv strict s) (hdone : ∀ τ ∈ s.task, τ = .done) :
    PivotInv strict { s with map := fun _ => none, state := fun _ => none } := by
  have hidle : ∀ σ, tasksOf s σ = 0 := by
    intro σ
    refine Multiset.eq_zero_of_forall_notMem fun τ hτ => ?_
    obtain ⟨hmem, hstate⟩ := mem_tasksIn.mp hτ
    rw [hdone τ hmem] at hstate
    cases hstate
  exact
    { states := fun _ _ hst => absurd hst (by simp)
      older := fun _ _ hst => absurd hst (by simp)
      alive := fun σ hne => absurd (hidle σ) hne
      applying := h.applying
      placed := fun _ _ hst => absurd hst (by simp)
      ledger := fun p pvt hpvt => (h.ledger p pvt hpvt).weaken fun σ c hc =>
        absurd hc (by simp [claims])
      mapped := fun _ _ hmap => absurd hmap (by simp)
      live := fun _ _ _ hst => absurd hst (by simp) }

end Incorporations

/-! ## All steps -/

section Steps

variable {s s' : TrunkState K}

/-- The results of a maplet compaction are about to be applied although its state is abandoned. -/
def appliesLate (s : TrunkState K) : Act K → Bool
  | .apply t =>
      match s.task[t]? with
      | some (.built σ count _) =>
          (s.state σ).any fun st => st.abandoned && (matchingPivot s st count).isSome
      | _ => false
  | _ => false

theorem PivotInv.findsMatch (h : PivotInv strict s) (hstrict : strict) {t σ count m : Nat}
    {st : PivotState K} {l : Multiset Task} (ha : AtTask s t σ (.built σ count m) st l)
    (hab : st.abandoned = false) : ∃ pvt, matchingPivot s st count = some pvt := by
  have hok := ha.stateOk h
  obtain ⟨hpos, hfin, -⟩ := hok.covered _ (Multiset.mem_cons_self _ _)
  obtain ⟨st₀, pvt, hst₀, hpvt, hm⟩ := h.mapped _ σ (h.live hstrict σ st ha.state hab)
  obtain rfl : st = st₀ := Option.some.inj (ha.state.symm.trans hst₀)
  obtain ⟨hall, hmaplet⟩ := hm.covers.resolve_right fun hless => hless.1 hstrict
  rw [ha.tasks, claimOf, unapplied_built hok] at hall
  obtain ⟨head, rest, hqueue, -⟩ := (hfin.mono hpos).head
  obtain ⟨b, bs, hinputs⟩ := List.exists_cons_of_ne_nil
    (hok.inputs head (hqueue ▸ List.mem_cons_self)).1
  have hlen : (inputBundles st.bundleCompactions count).length ≤ pvt.inflight.length := by
    rw [← hall]
    exact ((List.take_sublist _ _).flatMap _).length_le
  have hfirst : pvt.inflight.head?.bind (·.branches.head?) =
      st.bundleCompactions.head?.bind fun bc => bc.inputs.head?.bind (·.branches.head?) := by
    rw [← hall, hqueue]
    simp [hinputs]
  refine ⟨pvt, ?_⟩
  rw [matchingPivot, hpvt, Option.filter_some, if_pos]
  simp [pivotMatchesCompaction, hlen, hm.ubkey, hmaplet, hfirst]

theorem PivotInv.applyStep (h : PivotInv strict s) {t σ count m : Nat} {st : PivotState K}
    {l : Multiset Task} (ha : AtTask s t σ (.built σ count m) st l) (hmod : s.modifying = none)
    (hlate : strict → appliesLate s (.apply t) = false) :
    ∃ s', applyMaplet s t σ count m = some s' ∧ PivotInv strict s' := by
  have hok := ha.stateOk h
  obtain ⟨hpos, hfin, -⟩ := hok.covered _ (Multiset.mem_cons_self _ _)
  have hk := inputBundles_pos hok hpos hfin
  have hcond : ¬ (count = 0 ∨ inputBundles st.bundleCompactions count = []) := by
    rintro (hzero | hnil)
    · omega
    · rw [hnil] at hk
      cases hk
  have hearly : strict → (matchingPivot s st count).isSome = true → st.abandoned = false := by
    intro hstrict hsome
    have hnot := hlate hstrict
    simp only [appliesLate, ha.task, ha.state, Option.any_some, hsome, Bool.and_true] at hnot
    exact hnot
  cases hmatch : matchingPivot s st count with
  | none =>
      refine ⟨_, by
        simp only [applyMaplet, ha.state, Option.bind_some, if_neg hcond, hmatch]
        rfl, ?_⟩
      refine h.discards ha fun hstrict => ?_
      cases hab : st.abandoned with
      | true => rfl
      | false =>
          obtain ⟨pvt, hsome⟩ := h.findsMatch hstrict ha hab
          rw [hmatch] at hsome
          cases hsome
  | some pvt =>
      refine ⟨_, by
        simp only [applyMaplet, ha.state, Option.bind_some, if_neg hcond, hmatch]
        rfl, ?_⟩
      exact h.applies ha (h.matched ha hmatch)
        (fun hstrict => hearly hstrict (by rw [hmatch]; rfl)) hmod rfl rfl rfl rfl rfl rfl rfl

omit [DecidableEq K] in
theorem AtTask.stateOf {t σ : Nat} {τ : Task} {st : PivotState K} {l : Multiset Task}
    (ha : AtTask s t σ τ st l) : stateOf s t = some st := by
  rw [Trunk.stateOf, ha.task, Option.bind_some, ha.ofState, Option.bind_some, ha.state]

theorem PivotInv.goesOn (h : PivotInv strict s) {t : Nat} (hen : canGoOn s t = true) :
    ∃ s', perform s (.next t) = some s' ∧ PivotInv strict s' := by
  simp only [perform]
  cases hτ : s.task[t]? with
  | none => simp [canGoOn, hτ] at hen
  | some τ =>
      rw [Option.bind_some]
      cases τ with
      | bundle σ =>
          obtain ⟨st, l, ha⟩ := h.atTask hτ rfl
          exact ⟨_, by rw [nextOf, ha.state, Option.map_some], h.bundleStarts ha⟩
      | picking σ =>
          obtain ⟨st, l, ha⟩ := h.atTask hτ rfl
          exact h.picks ha
      | maplet σ =>
          obtain ⟨st, l, ha⟩ := h.atTask hτ rfl
          refine ⟨_, by rw [nextOf, ha.state, Option.map_some], ?_⟩
          split
          · exact h.fails ha rfl rfl
          · exact h.mapletStarts ha
      | building σ count m =>
          obtain ⟨st, l, ha⟩ := h.atTask hτ rfl
          refine ⟨_, rfl, h.loopDone ha ?_⟩
          simpa [canGoOn, hτ, ha.stateOf] using hen
      | applied σ count =>
          obtain ⟨st, l, ha⟩ := h.atTask hτ rfl
          exact h.pops ha
      | releasing σ =>
          obtain ⟨st, l, ha⟩ := h.atTask hτ rfl
          exact h.releases ha
      | done => simp [canGoOn, hτ] at hen
      | compacting σ id => simp [canGoOn, hτ] at hen
      | ended σ id => simp [canGoOn, hτ] at hen
      | built σ count m => simp [canGoOn, hτ] at hen

/-- What an incorporation does to a pivot that receives bundles. -/
def enqueuesCompaction : Act K → Bool
  | .receive _ _ => true
  | .split _ _ _ => true
  | _ => false

theorem PivotInv.performs (h : PivotInv strict s) {a : Act K} (hen : enabled s a = true)
    (hlate : strict → appliesLate s a = false) (hnot : enqueuesCompaction a = false) :
    ∃ s', perform s a = some s' ∧ PivotInv strict s' := by
  cases a with
  | create p ubkey =>
      simp only [enabled, Bool.and_eq_true, Option.isNone_iff_eq_none] at hen
      exact ⟨_, rfl, h.creates hen.1.2 hen.2 ubkey⟩
  | receive p bundles => cases hnot
  | flush p ubkey =>
      simp only [enabled, Bool.and_eq_true] at hen
      obtain ⟨pvt, hpvt⟩ := Option.isSome_iff_exists.mp hen.1.2
      exact ⟨_, by rw [perform, flushToOneChild, hpvt, Option.map_some],
        h.flushes (by rw [flushToOneChild, hpvt, Option.map_some])⟩
  | split p ubkey bundles => cases hnot
  | next t => exact h.goesOn hen
  | compacted t outputBranch =>
      cases hτ : s.task[t]? with
      | none => simp [enabled, hτ] at hen
      | some τ =>
          cases τ with
          | compacting σ id =>
              obtain ⟨st, l, ha⟩ := h.atTask hτ rfl
              simp only [enabled, hτ, ha.stateOf, Option.all_some, Bool.or_eq_true, beq_iff_eq] at hen
              exact ⟨_, by simp only [perform, hτ, endCompaction, ha.state, Option.map_some],
                h.ends ha (Or.inl rfl) hen⟩
          | _ => simp [enabled, hτ] at hen
  | compactionFails t =>
      cases hτ : s.task[t]? with
      | none => simp [enabled, hτ] at hen
      | some τ =>
          cases τ with
          | compacting σ id =>
              obtain ⟨st, l, ha⟩ := h.atTask hτ rfl
              exact ⟨_, by simp only [perform, hτ, endCompaction, ha.state, Option.map_some],
                h.ends ha (Or.inr ⟨rfl, rfl⟩) (Or.inl rfl)⟩
          | _ => simp [enabled, hτ] at hen
  | decide t reused =>
      cases hτ : s.task[t]? with
      | none => simp [enabled, hτ] at hen
      | some τ =>
          cases τ with
          | ended σ id =>
              obtain ⟨st, l, ha⟩ := h.atTask hτ rfl
              have hdecides := decideCompaction.eq_1 s t σ id reused
              rw [ha.state, Option.map_some] at hdecides
              exact ⟨_, by rw [perform, hτ]; exact hdecides, h.decides ha hdecides⟩
          | _ => simp [enabled, hτ] at hen
  | add t filter =>
      cases hτ : s.task[t]? with
      | none => simp [enabled, hτ] at hen
      | some τ =>
          cases τ with
          | building σ count m =>
              obtain ⟨st, l, ha⟩ := h.atTask hτ rfl
              simp only [enabled, hτ, ha.stateOf, Option.all_some, Bool.and_eq_true,
                Bool.not_eq_true'] at hen
              obtain ⟨hends, hfresh⟩ := hen
              cases hbc : st.bundleCompactions[count]? with
              | none => simp [loopEnds, hbc] at hends
              | some bc =>
                  have hst : bc.status = .succeeded := by simpa [loopEnds, hbc] using hends
                  exact ⟨_, by simp only [perform, hτ, addToMaplet, ha.state, Option.bind_some, hbc,
                    hst, if_true], h.adds ha hbc hst hfresh⟩
          | _ => simp [enabled, hτ] at hen
  | apply t =>
      cases hτ : s.task[t]? with
      | none => simp [enabled, hτ] at hen
      | some τ =>
          cases τ with
          | built σ count m =>
              obtain ⟨st, l, ha⟩ := h.atTask hτ rfl
              have hmod : s.modifying = none := by simpa [enabled, hτ] using hen
              obtain ⟨s', hs', hinv⟩ := h.applyStep ha hmod hlate
              exact ⟨s', by rw [perform, hτ]; exact hs', hinv⟩
          | _ => simp [enabled, hτ] at hen
  | mapletFails t =>
      cases hτ : s.task[t]? with
      | none => simp [enabled, hτ] at hen
      | some τ =>
          cases τ with
          | building σ count m =>
              obtain ⟨st, l, ha⟩ := h.atTask hτ rfl
              exact ⟨_, by simp only [perform, hτ, failMaplet, ha.state, Option.map_some],
                h.fails ha rfl rfl⟩
          | built σ count m =>
              obtain ⟨st, l, ha⟩ := h.atTask hτ rfl
              exact ⟨_, by simp only [perform, hτ, failMaplet, ha.state, Option.map_some],
                h.fails ha rfl rfl⟩
          | _ => simp [enabled, hτ] at hen
  | remount =>
      simp only [enabled, Bool.and_eq_true, List.all_eq_true, beq_iff_eq] at hen
      exact ⟨_, rfl, h.remounts hen.2⟩

theorem PivotInv.perform (h : PivotInv strict s) {a : Act K} (hen : enabled s a = true)
    (hlate : strict → appliesLate s a = false) (hs' : perform s a = some s') :
    PivotInv strict s' := by
  cases hact : enqueuesCompaction a with
  | false =>
      obtain ⟨s₁, hs₁, hinv⟩ := h.performs hen hlate hact
      rwa [← Option.some.inj (hs₁.symm.trans hs')]
  | true =>
      cases a with
      | receive p bundles =>
          simp only [enabled, Bool.and_eq_true, Option.isNone_iff_eq_none] at hen
          exact h.receives hen.1.1 hen.2 hs'
      | split p ubkey bundles =>
          simp only [enabled, Bool.and_eq_true, Option.isNone_iff_eq_none] at hen
          exact h.splits hen.1.1.1 hen.1.2 hs'
      | _ => cases hact

theorem PivotInv.trunkNext (h : PivotInv strict s) {a : Act K}
    (hlate : strict → appliesLate s a = false) (hs' : trunkNext s a = some s') :
    PivotInv strict s' := by
  rw [Trunk.trunkNext] at hs'
  split at hs'
  · rename_i hcond
    rw [Bool.and_eq_true] at hcond
    split at hs'
    · rename_i s₁ hs₁
      exact Option.some.inj hs' ▸ h.perform hcond.2 hlate hs₁
    · obtain rfl := Option.some.inj hs'
      exact ⟨h.states, h.older, h.alive, h.applying, h.placed, h.ledger, h.mapped, h.live⟩
  · cases hs'

theorem pivotInv_newTrunk (low high : K) : PivotInv strict (newTrunk low high) where
  states _ _ hst := absurd hst (by simp [newTrunk])
  older _ _ hst := absurd hst (by simp [newTrunk])
  alive σ hne := absurd rfl hne
  applying t σ count ht := by simp [newTrunk] at ht
  placed _ _ hst := absurd hst (by simp [newTrunk])
  ledger p pvt hpvt := by
    have hclaims : ∀ σ, claims (newTrunk low high) p σ = none := fun σ => by simp [claims, newTrunk]
    simp only [newTrunk] at hpvt
    split at hpvt
    · exact Option.some.inj hpvt ▸ Ledger.empty high hclaims
    · cases hpvt
  mapped _ _ hmap := absurd hmap (by simp [newTrunk])
  live _ _ _ hst := absurd hst (by simp [newTrunk])

end Steps

end Trunk
end TreePass
