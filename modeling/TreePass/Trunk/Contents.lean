import TreePass.Trunk.MergedKeys
import TreePass.Trunk.MapletPipeline

/-!
# What the branches hold

A run of the trunk together with what its branches hold.  A branch does not change while anything
refers to it; what is brought to a pivot is a branch of an application's messages; what a bundle
compaction leaves is the drain of a merge iterator over its inputs, for the keys of the pivot.

* `ContentStep` is what may happen to the contents in a step.
* `storeSystem` has the runs with contents.
* `ContentInv`: the branches of a pivot and of its compactions are in order, and a compaction that has
  succeeded has the merge of its inputs as its output, however long it waits.
-/

namespace TreePass
namespace Trunk

open Lib Lib.System Merge TreePass.Core

variable {K : Type} [LinearOrder K]

/-! ## Contents -/

abbrev Contents (K : Type) := PivotId K → Nat → List (Tuple K)

/-- The tuples of a branch are in order, and their messages are those of an application. -/
structure WellFormed (tuples : List (Tuple K)) : Prop where
  sorted : tuples.Pairwise fun a b => a.key < b.key
  user : ∀ t ∈ tuples, isUserMessage t.msg

/-- The iterators of `bundle_compaction_task` over the input branches, for the keys from `low` up to
`high`. -/
def inputIterators (content : Nat → List (Tuple K)) (low high : K) (bc : BundleCompaction) :
    List (Cursor (Tuple K)) :=
  (bc.inputs.flatMap (·.branches)).map fun branch =>
    Cursor.atFirst ((content branch).filter fun t => decide (low ≤ t.key ∧ t.key < high))

/-- The merge of `bundle_compaction_task`. -/
def compactionMerge (cfg : DataConfig K) (content : Nat → List (Tuple K)) (low high : K)
    (bc : BundleCompaction) : Result (List (Option (Tuple K))) :=
  let inputs := inputIterators content low high bc
  mergeDrain cfg ((inputs.flatMap (·.remaining true)).length + 1) inputs bc.mergeMode true

/-- The compaction whose merge ends with a step, its state and its output branch. -/
def completed (s : TrunkState K) : Act K → Option (PivotState K × BundleCompaction × Nat)
  | .compacted t outputBranch =>
      match s.task[t]? with
      | some (.compacting σ id) =>
          (s.state σ).bind fun st =>
            (st.bundleCompactions.find? fun bc => bc.id = id).map fun bc => (st, bc, outputBranch)
      | _ => none
  | _ => none

def brought : Act K → Option (PivotId K × List Bundle)
  | .receive p bundles => some (p, bundles)
  | .split p _ bundles => some (p, bundles)
  | _ => none

/-- **The contents in a step.** -/
structure ContentStep (cfg : DataConfig K) (s : TrunkState K) (c : Contents K) (a : Act K)
    (c' : Contents K) : Prop where
  kept : ∀ p, ∀ branch ∈ usedAt s p, c' p branch = c p branch
  brought : ∀ p bundles, brought a = some (p, bundles) →
    ∀ branch ∈ bundles.flatMap (·.branches), WellFormed (c' p branch)
  written : ∀ st bc outputBranch, completed s a = some (st, bc, outputBranch) →
    ∃ tuples, compactionMerge cfg (c st.pivot) st.pivot.1 st.ubkey bc = pure (tuples.map some) ∧
      if outputBranch = 0 then tuples = [] else c' st.pivot outputBranch = tuples

/-- All runs from a new trunk on, with what the branches hold. -/
def storeSystem (cfg : DataConfig K) (low high : K) : System (TrunkState K × Contents K) (Act K) where
  init r := r.1 = newTrunk low high
  step r a r' := trunkNext r.1 a = some r'.1 ∧ ContentStep cfg r.1 r.2 a r'.2

/-- What a compaction in a queue relies on: its inputs are in order, and once it has succeeded its
output branch, if there is one, holds the merge of its inputs. -/
structure QueueOk (cfg : DataConfig K) (content : Nat → List (Tuple K)) (low high : K)
    (bc : BundleCompaction) : Prop where
  mode : bc.mergeMode ≠ .raw
  inputs : ∀ branch ∈ bc.inputs.flatMap (·.branches), WellFormed (content branch)
  output : bc.status = .succeeded → ∃ tuples,
    compactionMerge cfg content low high bc = pure (tuples.map some) ∧
      if bc.outputBranch = 0 then tuples = [] else content bc.outputBranch = tuples

/-- **The invariant of the contents.** -/
structure ContentInv (cfg : DataConfig K) (s : TrunkState K) (c : Contents K) : Prop where
  held : ∀ p pvt, s.pivot p = some pvt → ∀ branch ∈ pvt.held, WellFormed (c p branch)
  queue : ∀ σ st, s.state σ = some st → ∀ bc ∈ st.bundleCompactions,
    QueueOk cfg (c st.pivot) st.pivot.1 st.ubkey bc
  leaf : ∀ σ st, s.state σ = some st → ∀ bc ∈ st.bundleCompactions, bc.mergeMode = .full →
    st.pivot.2 = 0

/-! ## The output of a compaction -/

section Outputs

variable {cfg : DataConfig K} {content content' : Nat → List (Tuple K)} {low high : K}
  {bc : BundleCompaction}

theorem inputIterators_congr
    (h : ∀ branch ∈ bc.inputs.flatMap (·.branches), content' branch = content branch) :
    inputIterators content' low high bc = inputIterators content low high bc :=
  List.map_congr_left fun branch hbranch => by rw [h branch hbranch]

theorem compactionMerge_congr {bc' : BundleCompaction} (hinputs : bc'.inputs = bc.inputs)
    (hmode : bc'.mergeMode = bc.mergeMode)
    (h : ∀ branch ∈ bc.inputs.flatMap (·.branches), content' branch = content branch) :
    compactionMerge cfg content' low high bc' = compactionMerge cfg content low high bc := by
  have hiter : inputIterators content' low high bc' = inputIterators content low high bc := by
    rw [← inputIterators_congr h, inputIterators, inputIterators, hinputs]
  rw [compactionMerge, compactionMerge, hiter, hmode]

theorem inputIterators_sorted
    (h : ∀ branch ∈ bc.inputs.flatMap (·.branches), WellFormed (content branch)) :
    ∀ c ∈ inputIterators content low high bc, c.items.Pairwise fun a b => a.key < b.key := by
  intro c hc
  obtain ⟨branch, hbranch, rfl⟩ := List.mem_map.mp hc
  exact (h branch hbranch).sorted.filter _

theorem mergeSpec_of_compactionMerge
    (hwf : ∀ branch ∈ bc.inputs.flatMap (·.branches), WellFormed (content branch))
    (hmode : bc.mergeMode ≠ .raw) {tuples : List (Tuple K)}
    (h : compactionMerge cfg content low high bc = pure (tuples.map some)) :
    mergeSpec cfg (decide (bc.mergeMode = .full)) true (inputIterators content low high bc) =
      some tuples := by
  have hordered : ∀ c ∈ inputIterators content low high bc,
      c.items.Pairwise fun a b => a.key < b.key := inputIterators_sorted hwf
  have harity : (inputIterators content low high bc).length < maxMergeArity := by
    by_contra hge
    rw [compactionMerge, mergeDrain, mergeIteratorCreate, if_pos (by omega)] at h
    cases h
  have hfuel : (inputPending true (inputArray (inputIterators content low high bc))).length <
      ((inputIterators content low high bc).flatMap (·.remaining true)).length + 1 := by
    rw [← inputPending_untagged, List.length_map]
    exact Nat.lt_succ_self _
  rw [compactionMerge, mergeDrain_eq_modeEmissions cfg _ harity hordered hfuel, modeEmissions,
    if_neg hmode, emissions_eq_mergeSpec cfg _ hordered] at h
  cases hspec : mergeSpec cfg (decide (bc.mergeMode = .full)) true
      (inputIterators content low high bc) with
  | none =>
      rw [hspec] at h
      cases h
  | some out =>
      rw [hspec, Option.map_some, callback_some] at h
      have hmap : out.map some = tuples.map some := Except.ok.inj (Option.some.inj h)
      rw [List.map_injective_iff.mpr (Option.some_injective _) hmap]

def inputMessages (content : Nat → List (Tuple K)) (bc : BundleCompaction) (k : K) : List Message :=
  (bc.inputs.flatMap (·.branches)).reverse.filterMap fun branch => messageIn (content branch) k

theorem messageIn_filter {tuples : List (Tuple K)} {p : K → Bool} {k : K} (hk : p k = true) :
    messageIn (tuples.filter fun t => p t.key) k = messageIn tuples k := by
  rw [messageIn, messageIn, List.find?_filter]
  congr 2
  funext t
  by_cases hkey : t.key = k
  · simp [hkey, hk]
  · simp [hkey]

theorem messagesFor_inputIterators {k : K} (hlow : low ≤ k) (hhigh : k < high) :
    messagesFor true (inputIterators content low high bc) k = inputMessages content bc k := by
  rw [messagesFor, inputIterators, inputMessages, ← List.map_reverse, List.filterMap_map]
  congr 1
  funext branch
  change (((Cursor.atFirst _).remaining true).find? _).map _ = _
  rw [Cursor.remaining_atFirst]
  exact messageIn_filter (p := fun k => decide (low ≤ k ∧ k < high)) (by simp [hlow, hhigh])

theorem messageIn_user {tuples : List (Tuple K)} (h : WellFormed tuples) {k : K} {m : Message}
    (hm : messageIn tuples k = some m) : isUserMessage m := by
  obtain ⟨t, ht, rfl⟩ := Option.map_eq_some_iff.mp hm
  exact h.user t (List.mem_of_find?_eq_some ht)

theorem inputMessages_user
    (h : ∀ branch ∈ bc.inputs.flatMap (·.branches), WellFormed (content branch)) {k : K} :
    ∀ m ∈ inputMessages content bc k, isUserMessage m := by
  intro m hm
  obtain ⟨branch, hbranch, hm⟩ := List.mem_filterMap.mp hm
  exact messageIn_user (h branch (List.mem_reverse.mp hbranch)) hm

theorem mergeSpec_range {full : Bool} {out : List (Tuple K)}
    (hout : mergeSpec cfg full true (inputIterators content low high bc) = some out) :
    ∀ t ∈ out, low ≤ t.key ∧ t.key < high := by
  intro t ht
  have hkept := mergeSpec_at hout t.key
  have hin : messageIn out t.key = some t.msg := by
    have hsorted := mergeSpec_sorted hout
    exact Option.map_eq_some_iff.mpr ⟨t, (find_key_eq_some_iff hsorted).mpr ⟨ht, rfl⟩, rfl⟩
  rw [hin] at hkept
  have hne : messagesFor true (inputIterators content low high bc) t.key ≠ [] := by
    intro hnil
    rw [hnil] at hkept
    cases hkept
  have hmem : t.key ∈ inputKeys true (inputIterators content low high bc) := by
    by_contra hnot
    exact hne (messagesFor_eq_nil.mpr hnot)
  obtain ⟨c, hc, hkey⟩ := List.mem_flatMap.mp hmem
  obtain ⟨u, hu, hsame⟩ := List.mem_map.mp hkey
  obtain ⟨branch, -, rfl⟩ := List.mem_map.mp hc
  rw [Cursor.remaining_atFirst, List.mem_filter, decide_eq_true_eq, hsame] at hu
  exact hu.2

theorem output_at (hwf : ∀ branch ∈ bc.inputs.flatMap (·.branches), WellFormed (content branch))
    (hmode : bc.mergeMode ≠ .raw) {tuples : List (Tuple K)}
    (h : compactionMerge cfg content low high bc = pure (tuples.map some)) {k : K} (hlow : low ≤ k)
    (hhigh : k < high) :
    keptMessage cfg (decide (bc.mergeMode = .full)) k (inputMessages content bc k) =
      some (messageIn tuples k) := by
  have hat := mergeSpec_at (mergeSpec_of_compactionMerge hwf hmode h) k
  rwa [messagesFor_inputIterators hlow hhigh] at hat

omit [LinearOrder K] in
theorem keptMessage_user (hmerge : MergeAssoc cfg) {full : Bool} {k : K} {msgs : List Message}
    (hmsgs : ∀ m ∈ msgs, isUserMessage m) {kept : Option Message}
    (hkept : keptMessage cfg full k msgs = some kept) : AllSome isUserMessage kept := by
  cases full with
  | true =>
      rw [keptMessage_true] at hkept
      have hnone : ∀ m ∈ ([] : List Message), isUserMessage m := fun m hm => absurd hm List.not_mem_nil
      exact (finalFold_of_final hmerge hnone hmsgs hkept).2
  | false =>
      rw [keptMessage_false] at hkept
      obtain ⟨result, hresult, huser⟩ := foldAll_total (hmerge k) hmsgs
      rw [hresult] at hkept
      exact Option.some.inj hkept ▸ huser

theorem output_wellFormed (hmerge : MergeAssoc cfg)
    (hwf : ∀ branch ∈ bc.inputs.flatMap (·.branches), WellFormed (content branch))
    (hmode : bc.mergeMode ≠ .raw) {tuples : List (Tuple K)}
    (h : compactionMerge cfg content low high bc = pure (tuples.map some)) : WellFormed tuples := by
  have hspec := mergeSpec_of_compactionMerge hwf hmode h
  have hsorted := mergeSpec_sorted hspec
  refine ⟨hsorted, fun t ht => ?_⟩
  obtain ⟨hlow, hhigh⟩ := mergeSpec_range hspec t ht
  have hkept := output_at hwf hmode h hlow hhigh
  have hin : messageIn tuples t.key = some t.msg :=
    Option.map_eq_some_iff.mpr ⟨t, (find_key_eq_some_iff hsorted).mpr ⟨ht, rfl⟩, rfl⟩
  exact keptMessage_user hmerge (inputMessages_user hwf) hkept t.msg hin

end Outputs

/-! ## What a step does to a queue -/

section Queues

variable {strict : Prop} {s s' : TrunkState K}

/-- A compaction in a queue after a step that enqueues none: it was in the queue of the state before. -/
structure Inherits (s : TrunkState K) (a : Act K) (σ : Nat) (st' : PivotState K)
    (bc' : BundleCompaction) (st : PivotState K) (bc : BundleCompaction) : Prop where
  state : s.state σ = some st
  pivot : st'.pivot = st.pivot
  ubkey : st'.ubkey = st.ubkey
  mem : bc ∈ st.bundleCompactions
  inputs : bc'.inputs = bc.inputs
  mode : bc'.mergeMode = bc.mergeMode
  output : bc'.status = .succeeded → (bc.status = .succeeded ∧ bc'.outputBranch = bc.outputBranch) ∨
    completed s a = some (st, bc, bc'.outputBranch)

def InheritsAll (s : TrunkState K) (a : Act K) (s' : TrunkState K) : Prop :=
  ∀ σ st', s'.state σ = some st' → ∀ bc' ∈ st'.bundleCompactions, ∃ st bc, Inherits s a σ st' bc' st bc

omit [LinearOrder K] in
theorem inherits_of_subset {a : Act K} {σ : Nat} {st st' : PivotState K} (hst : s.state σ = some st)
    (hsame : st'.pivot = st.pivot ∧ st'.ubkey = st.ubkey)
    (hqueue : ∀ bc ∈ st'.bundleCompactions, bc ∈ st.bundleCompactions) :
    ∀ bc' ∈ st'.bundleCompactions, ∃ st bc, Inherits s a σ st' bc' st bc := fun bc' hbc' =>
  ⟨st, bc', hst, hsame.1, hsame.2, hqueue bc' hbc', rfl, rfl, fun h => Or.inl ⟨h, rfl⟩⟩

omit [LinearOrder K] in
theorem inheritsAll_of_states {a : Act K} (h : s'.state = s.state) : InheritsAll s a s' :=
  fun _ _ hst => inherits_of_subset (h ▸ hst) ⟨rfl, rfl⟩ fun _ hbc => hbc

theorem CarriedStep.inherits {a : Act K} (hc : CarriedStep strict s a s') (h : PivotInv strict s) :
    InheritsAll s a s' := by
  intro σ st' hst' bc' hbc'
  obtain ⟨st, hcarried⟩ := hc σ st' hst'
  have hst := hcarried.before
  obtain ⟨hpivot, hubkey⟩ := hcarried.same
  rcases hcarried.queue with hsub | ⟨id, status, o, hqueue, hdone⟩
  · exact inherits_of_subset hst ⟨hpivot, hubkey⟩ hsub bc' hbc'
  rw [hqueue] at hbc'
  obtain ⟨bc, hbc, ⟨hid, rfl⟩ | ⟨-, rfl⟩⟩ := mem_setCompaction hbc'
  swap
  · exact ⟨st, bc', hst, hpivot, hubkey, hbc, rfl, rfl, fun h => Or.inl ⟨h, rfl⟩⟩
  refine ⟨st, bc, hst, hpivot, hubkey, hbc, rfl, rfl, fun hstatus => Or.inr ?_⟩
  obtain ⟨t, l, rfl, ha⟩ := hdone hstatus
  have hfind : (st.bundleCompactions.find? fun bc => bc.id = id) = some bc := by
    obtain ⟨bc₀, hbc₀⟩ : ∃ bc₀, (st.bundleCompactions.find? fun bc => bc.id = id) = some bc₀ := by
      cases hcase : st.bundleCompactions.find? fun bc => bc.id = id with
      | some bc₀ => exact ⟨bc₀, rfl⟩
      | none => exact absurd (List.find?_eq_none.mp hcase bc hbc) (by simp [hid])
    have hid₀ : bc₀.id = id := by simpa using List.find?_some hbc₀
    rw [hbc₀, List.inj_on_of_nodup_map (ha.stateOk h).ids (List.mem_of_find?_eq_some hbc₀) hbc
      (hid₀.trans hid.symm)]
  simp only [completed, ha.task, ha.state, Option.bind_some, hfind, Option.map_some]

theorem PivotInv.enqueued_queue (h : PivotInv strict s) {p : PivotId K} {pvt : Pivot K}
    (hpvt : s.pivot p = some pvt) {bundles : List Bundle} {n : Nat}
    (hs' : enqueueBundleCompaction
      (s.setPivot p { pvt with inflight := pvt.inflight ++ bundles }) p
      { pvt with inflight := pvt.inflight ++ bundles } n = some s') :
    s'.pivot = Function.update s.pivot p (some { pvt with inflight := pvt.inflight ++ bundles }) ∧
      ∀ σ st', s'.state σ = some st' → ∀ bc' ∈ st'.bundleCompactions,
        (∃ st, s.state σ = some st ∧ st'.pivot = st.pivot ∧ st'.ubkey = st.ubkey ∧
          bc' ∈ st.bundleCompactions) ∨
        (st'.pivot = p ∧ bc'.mergeMode ≠ .raw ∧ bc'.status = .notStarted ∧
          (bc'.mergeMode = .full → p.2 = 0) ∧ ∀ b ∈ bc'.inputs, b ∈ pvt.inflight ++ bundles) := by
  obtain ⟨σ, st, s₁, old, l, hlook, hl⟩ :=
    h.looked hpvt { pvt with inflight := pvt.inflight ++ bundles } rfl rfl
  rw [enqueueBundleCompaction, hlook, Option.bind_some] at hs'
  obtain ⟨bc, hcreate, hs'⟩ := Option.bind_eq_some_iff.mp hs'
  obtain ⟨st', happend, rfl⟩ := Option.map_eq_some_iff.mp hs'
  obtain ⟨-, hinputs, -, -, hstatus, -, hfull⟩ := bundleCompactionCreate_eq_some hcreate
  have hraw : bc.mergeMode ≠ .raw := by
    simp only [bundleCompactionCreate] at hcreate
    split at hcreate
    · rw [← Option.some.inj hcreate]
      change (if _ then _ else _) ≠ _
      split <;> simp
    · cases hcreate
  have hst' := appendCompaction_eq_some happend
  obtain ⟨hrest₁, -, hrest₃, -⟩ := hl.rest
  refine ⟨congrArg (Function.update · _ _) hrest₃, fun ρ st₁ hst₁ bc' hbc' => ?_⟩
  change Function.update s₁.state σ _ ρ = some st₁ at hst₁
  rcases update_eq_some hst₁ with ⟨rfl, rfl⟩ | ⟨hρ, hst₁⟩
  · have hsame : st₁.pivot = old.pivot ∧ st₁.ubkey = old.ubkey ∧
        st₁.bundleCompactions = old.bundleCompactions ++ [bc] := by
      rw [hst', hl.state]
      exact ⟨rfl, rfl, rfl⟩
    rw [hsame.2.2] at hbc'
    rcases List.mem_append.mp hbc' with hbc' | hbc'
    · rcases hl.claim with ⟨-, -, -, hnil, -⟩ | ⟨hold, -, -⟩
      · rw [hnil] at hbc'
        cases hbc'
      · exact Or.inl ⟨old, hold, hsame.1, hsame.2.1, hbc'⟩
    · obtain rfl := List.mem_singleton.mp hbc'
      refine Or.inr ⟨hsame.1.trans hl.pivot, hraw, hstatus, fun h => (hfull h).1, fun b hb => ?_⟩
      rw [hinputs] at hb
      exact List.mem_of_mem_drop hb
  · rw [hrest₁] at hst₁
    exact Or.inl ⟨st₁, hst₁, rfl, rfl, hbc'⟩

end Queues

/-! ## What a step does to a pivot -/

section Pivots

variable {strict : Prop} {s s' : TrunkState K}

/-- A branch at a pivot after a step that brings none was there before, or is the output of a compaction
that has succeeded. -/
def HeldBefore (s s' : TrunkState K) : Prop :=
  ∀ p pvt', s'.pivot p = some pvt' → ∀ branch ∈ pvt'.held,
    (∃ pvt, s.pivot p = some pvt ∧ branch ∈ pvt.held) ∨
      ∃ σ st, s.state σ = some st ∧ st.pivot = p ∧ ∃ bc ∈ st.bundleCompactions,
        bc.status = .succeeded ∧ bc.outputBranch = branch ∧ branch ≠ 0

omit [LinearOrder K] in
theorem heldBefore_of_pivot (h : s'.pivot = s.pivot) : HeldBefore s s' := fun _ pvt' hpvt' _ hbranch =>
  Or.inl ⟨pvt', h ▸ hpvt', hbranch⟩

theorem heldBefore_of_update {p : PivotId K} {pvt' : Pivot K}
    (hpivot : s'.pivot = Function.update s.pivot p (some pvt'))
    (hself : ∀ branch ∈ pvt'.held, (∃ pvt, s.pivot p = some pvt ∧ branch ∈ pvt.held) ∨
      ∃ σ st, s.state σ = some st ∧ st.pivot = p ∧ ∃ bc ∈ st.bundleCompactions,
        bc.status = .succeeded ∧ bc.outputBranch = branch ∧ branch ≠ 0) : HeldBefore s s' := by
  intro q pvt₁ hpvt₁ branch hbranch
  rw [hpivot] at hpvt₁
  rcases update_eq_some hpvt₁ with ⟨rfl, rfl⟩ | ⟨hq, hpvt₁⟩
  · exact hself branch hbranch
  · exact Or.inl ⟨pvt₁, hpvt₁, hbranch⟩

omit [LinearOrder K] in
theorem mem_held_applyToPivot {pvt : Pivot K} {m n : Nat} {outputs : List Nat} {branch : Nat}
    (h : branch ∈ (applyToPivot pvt m outputs n).held) : branch ∈ pvt.held ∨ branch ∈ outputs := by
  rcases List.mem_append.mp h with h | h
  · rcases List.mem_append.mp h with h | h
    · exact Or.inl (List.mem_append_left _ h)
    · exact Or.inr h
  · obtain ⟨b, hb, hbranch⟩ := List.mem_flatMap.mp h
    exact Or.inl (List.mem_append_right _
      (List.mem_flatMap.mpr ⟨b, List.mem_of_mem_drop hb, hbranch⟩))

theorem PivotInv.heldBefore_perform (h : PivotInv strict s) {a : Act K}
    (hnot : enqueuesCompaction a = false) (hs' : Trunk.perform s a = some s') : HeldBefore s s' := by
  cases a with
  | create p ubkey =>
      obtain rfl := Option.some.inj hs'
      exact heldBefore_of_update rfl fun _ hbranch => absurd hbranch List.not_mem_nil
  | receive p bundles => cases hnot
  | flush p ubkey =>
      obtain ⟨pvt, -, rfl⟩ := Option.map_eq_some_iff.mp hs'
      obtain ⟨-, -, hpivot, -⟩ := h.abandon p
      exact heldBefore_of_update (congrArg (Function.update · _ _) hpivot)
        fun _ hbranch => absurd hbranch List.not_mem_nil
  | split p ubkey bundles => cases hnot
  | next t =>
      obtain ⟨τ, -, hnext⟩ := Option.bind_eq_some_iff.mp hs'
      by_cases hrel : ∃ σ, τ = .releasing σ
      · obtain ⟨σ, rfl⟩ := hrel
        obtain ⟨st, -, hnext⟩ := Option.bind_eq_some_iff.mp hnext
        split at hnext
        · cases hnext
        · obtain rfl := Option.some.inj hnext
          exact heldBefore_of_pivot (mapRemove_pivot _ _ _)
        · obtain rfl := Option.some.inj hnext
          exact heldBefore_of_pivot rfl
      · exact heldBefore_of_pivot (sameTable_nextOf hnext fun σ heq => hrel ⟨σ, heq⟩).pivot
  | apply t =>
      rw [Trunk.perform] at hs'
      split at hs'
      · rename_i σ count m hτ
        obtain ⟨st, l, ha⟩ := h.atTask hτ rfl
        obtain ⟨-, hfin, -⟩ := (ha.stateOk h).covered _ (Multiset.mem_cons_self _ _)
        rw [applyMaplet, ha.state, Option.bind_some] at hs'
        split at hs'
        · cases hs'
        · split at hs'
          · obtain rfl := Option.some.inj hs'
            exact heldBefore_of_pivot (mapRemove_pivot _ _ _)
          · rename_i pvt hmatch
            obtain rfl := Option.some.inj hs'
            have hpvt := (h.matched ha hmatch).pivot
            refine heldBefore_of_update rfl fun branch hbranch => ?_
            rcases mem_held_applyToPivot hbranch with hheld | hout
            · exact Or.inl ⟨pvt, hpvt, hheld⟩
            · obtain ⟨hmem, hne⟩ := List.mem_filter.mp hout
              obtain ⟨bc, hbc, rfl⟩ := List.mem_map.mp hmem
              exact Or.inr ⟨σ, st, ha.state, rfl, bc, List.mem_of_mem_take hbc,
                hfin.succeeded bc hbc, rfl, by simpa using hne⟩
      · cases hs'
  | remount =>
      obtain rfl := Option.some.inj hs'
      exact heldBefore_of_pivot rfl
  | _ => exact heldBefore_of_pivot (sameTable_perform hs' trivial).pivot

end Pivots

/-! ## The invariant is kept -/

section Invariant

variable {cfg : DataConfig K} {strict : Prop} {s s' : TrunkState K} {c c' : Contents K}

theorem held_subset_usedAt {p : PivotId K} {pvt : Pivot K} (hpvt : s.pivot p = some pvt) {branch : Nat}
    (hbranch : branch ∈ pvt.held) : branch ∈ usedAt s p := by
  rcases List.mem_append.mp hbranch with hbranch | hbranch
  · exact mem_usedAt_of_pivot hpvt (Or.inl rfl) (List.mem_cons_of_mem _ hbranch)
  · obtain ⟨b, hb, hbranch⟩ := List.mem_flatMap.mp hbranch
    exact mem_usedAt_of_pivot hpvt (Or.inr hb) (List.mem_cons_of_mem _ hbranch)

theorem PivotInv.used (h : PivotInv strict s) {σ : Nat} {st : PivotState K} (hst : s.state σ = some st)
    {bc : BundleCompaction} (hbc : bc ∈ st.bundleCompactions) :
    (∀ branch ∈ bc.inputs.flatMap (·.branches), branch ∈ usedAt s st.pivot) ∧
      bc.outputBranch ∈ usedAt s st.pivot := by
  have hlt := (h.older σ st hst).1
  refine ⟨fun branch hbranch => ?_, mem_usedAt_of_state hst hlt (output_mem_addrs hbc)⟩
  obtain ⟨b, hb, hbranch⟩ := List.mem_flatMap.mp hbranch
  exact mem_usedAt_of_state hst hlt (input_mem_addrs hbc hb hbranch)

theorem ContentInv.queue_step (hc : ContentInv cfg s c) (h : PivotInv strict s) {a : Act K}
    (hcontent : ContentStep cfg s c a c') {σ : Nat} {st' : PivotState K} {bc' : BundleCompaction}
    {st : PivotState K} {bc : BundleCompaction} (hi : Inherits s a σ st' bc' st bc) :
    QueueOk cfg (c' st'.pivot) st'.pivot.1 st'.ubkey bc' := by
  have hok := hc.queue σ st hi.state bc hi.mem
  obtain ⟨hin, hout⟩ := h.used hi.state hi.mem
  have hkept : ∀ branch ∈ bc.inputs.flatMap (·.branches),
      c' st.pivot branch = c st.pivot branch := fun branch hbranch =>
    hcontent.kept _ branch (hin branch hbranch)
  have hmerge : compactionMerge cfg (c' st.pivot) st.pivot.1 st.ubkey bc' =
      compactionMerge cfg (c st.pivot) st.pivot.1 st.ubkey bc :=
    compactionMerge_congr hi.inputs hi.mode hkept
  rw [hi.pivot, hi.ubkey]
  refine ⟨hi.mode ▸ hok.mode, fun branch hbranch => ?_, fun hstatus => ?_⟩
  · rw [hi.inputs] at hbranch
    rw [hkept branch hbranch]
    exact hok.inputs branch hbranch
  · rw [hmerge]
    rcases hi.output hstatus with ⟨hold, hbranch⟩ | hdone
    · obtain ⟨tuples, htuples, hcase⟩ := hok.output hold
      refine ⟨tuples, htuples, ?_⟩
      rw [hbranch, hcontent.kept _ _ hout]
      exact hcase
    · exact hcontent.written st bc _ hdone

theorem QueueOk.output_wellFormed (hmerge : MergeAssoc cfg) {content : Nat → List (Tuple K)}
    {low high : K} {bc : BundleCompaction} (h : QueueOk cfg content low high bc)
    (hstatus : bc.status = .succeeded) (hne : bc.outputBranch ≠ 0) :
    WellFormed (content bc.outputBranch) := by
  obtain ⟨tuples, htuples, hcase⟩ := h.output hstatus
  rw [if_neg hne] at hcase
  rw [hcase]
  exact Trunk.output_wellFormed hmerge h.inputs h.mode htuples

theorem ContentInv.idle (hc : ContentInv cfg s c) (hmerge : MergeAssoc cfg) (h : PivotInv strict s)
    {a : Act K} (hcontent : ContentStep cfg s c a c') (hinherits : InheritsAll s a s')
    (hheld : HeldBefore s s') : ContentInv cfg s' c' where
  held p pvt' hpvt' branch hbranch := by
    rcases hheld p pvt' hpvt' branch hbranch with ⟨pvt, hpvt, hold⟩ |
      ⟨σ, st, hst, rfl, bc, hbc, hstatus, rfl, hne⟩
    · rw [hcontent.kept p branch (held_subset_usedAt hpvt hold)]
      exact hc.held p pvt hpvt branch hold
    · rw [hcontent.kept _ _ (h.used hst hbc).2]
      exact (hc.queue σ st hst bc hbc).output_wellFormed hmerge hstatus hne
  queue σ st' hst' bc' hbc' := by
    obtain ⟨st, bc, hi⟩ := hinherits σ st' hst' bc' hbc'
    exact hc.queue_step h hcontent hi
  leaf σ st' hst' bc' hbc' hfull := by
    obtain ⟨st, bc, hi⟩ := hinherits σ st' hst' bc' hbc'
    rw [hi.pivot]
    exact hc.leaf σ st hi.state bc hi.mem (hi.mode ▸ hfull)

theorem ContentInv.brings (hc : ContentInv cfg s c) (h : PivotInv strict s) {a : Act K}
    (hcontent : ContentStep cfg s c a c') {s₁ : TrunkState K} (h₁ : PivotInv strict s₁)
    (hinherits : InheritsAll s a s₁) (hheld : HeldBefore s s₁)
    (houtputs : ∀ σ st, s.state σ = some st → ∀ bc ∈ st.bundleCompactions, bc.status = .succeeded →
      bc.outputBranch ≠ 0 → WellFormed (c st.pivot bc.outputBranch)) {p : PivotId K} {pvt : Pivot K}
    (hpvt : s₁.pivot p = some pvt) {bundles : List Bundle} (hbrought : brought a = some (p, bundles))
    {n : Nat} (hs' : enqueueBundleCompaction
      (s₁.setPivot p { pvt with inflight := pvt.inflight ++ bundles }) p
      { pvt with inflight := pvt.inflight ++ bundles } n = some s') : ContentInv cfg s' c' := by
  have hold : ∀ q pvt₁, s₁.pivot q = some pvt₁ → ∀ branch ∈ pvt₁.held, WellFormed (c' q branch) := by
    intro q pvt₁ hpvt₁ branch hbranch
    rcases hheld q pvt₁ hpvt₁ branch hbranch with ⟨pvt₀, hpvt₀, hin⟩ |
      ⟨σ, st, hst, rfl, bc, hbc, hstatus, rfl, hne⟩
    · rw [hcontent.kept q branch (held_subset_usedAt hpvt₀ hin)]
      exact hc.held q pvt₀ hpvt₀ branch hin
    · rw [hcontent.kept _ _ (h.used hst hbc).2]
      exact houtputs σ st hst bc hbc hstatus hne
  have hnew : ∀ b ∈ pvt.inflight ++ bundles, ∀ branch ∈ b.branches, WellFormed (c' p branch) := by
    intro b hb branch hbranch
    rcases List.mem_append.mp hb with hb | hb
    · exact hold p pvt hpvt branch
        (List.mem_append_right _ (List.mem_flatMap.mpr ⟨b, hb, hbranch⟩))
    · exact hcontent.brought p bundles hbrought branch (List.mem_flatMap.mpr ⟨b, hb, hbranch⟩)
  obtain ⟨hpivot, hqueue⟩ := h₁.enqueued_queue hpvt hs'
  refine ⟨fun q pvt' hpvt' branch hbranch => ?_, fun σ st' hst' bc' hbc' => ?_,
    fun σ st' hst' bc' hbc' hfull => ?_⟩
  · rw [hpivot] at hpvt'
    rcases update_eq_some hpvt' with ⟨rfl, rfl⟩ | ⟨hq, hpvt'⟩
    · rcases List.mem_append.mp hbranch with hbranch | hbranch
      · exact hold q pvt hpvt branch (List.mem_append_left _ hbranch)
      · obtain ⟨b, hb, hbranch⟩ := List.mem_flatMap.mp hbranch
        exact hnew b hb branch hbranch
    · exact hold q pvt' hpvt' branch hbranch
  · rcases hqueue σ st' hst' bc' hbc' with ⟨st₁, hst₁, hsame, hubkey, hbc₁⟩ |
      ⟨hp, hmode, hstatus, -, hinputs⟩
    · obtain ⟨st, bc, hi⟩ := hinherits σ st₁ hst₁ bc' hbc₁
      rw [hsame, hubkey]
      exact hc.queue_step h hcontent hi
    · refine ⟨hmode, fun branch hbranch => ?_, fun hsucceeded => ?_⟩
      · obtain ⟨b, hb, hbranch⟩ := List.mem_flatMap.mp hbranch
        rw [hp]
        exact hnew b (hinputs b hb) branch hbranch
      · rw [hstatus] at hsucceeded
        cases hsucceeded
  · rcases hqueue σ st' hst' bc' hbc' with ⟨st₁, hst₁, hsame, -, hbc₁⟩ | ⟨hp, -, -, hleaf, -⟩
    · obtain ⟨st, bc, hi⟩ := hinherits σ st₁ hst₁ bc' hbc₁
      rw [hsame, hi.pivot]
      exact hc.leaf σ st hi.state bc hi.mem (hi.mode ▸ hfull)
    · rw [hp]
      exact hleaf hfull

theorem ContentInv.trunkNext (hc : ContentInv cfg s c) (hmerge : MergeAssoc cfg) (h : PivotInv strict s)
    {a : Act K} (hcontent : ContentStep cfg s c a c') (hs' : trunkNext s a = some s') :
    ContentInv cfg s' c' := by
  have houtputs : ∀ σ st, s.state σ = some st → ∀ bc ∈ st.bundleCompactions,
      bc.status = .succeeded → bc.outputBranch ≠ 0 → WellFormed (c st.pivot bc.outputBranch) :=
    fun σ st hst bc hbc hstatus hne => (hc.queue σ st hst bc hbc).output_wellFormed hmerge hstatus hne
  rw [Trunk.trunkNext] at hs'
  split at hs'
  swap
  · cases hs'
  rename_i hcond
  rw [Bool.and_eq_true] at hcond
  obtain ⟨-, hen⟩ := hcond
  split at hs'
  swap
  · obtain rfl := Option.some.inj hs'
    exact hc.idle hmerge h hcontent (inheritsAll_of_states rfl) (heldBefore_of_pivot rfl)
  rename_i s₁ hs₁
  obtain rfl := Option.some.inj hs'
  cases hact : enqueuesCompaction a with
  | false =>
      exact hc.idle hmerge h hcontent ((h.carried_perform hact hs₁).inherits h) (h.heldBefore_perform hact hs₁)
  | true =>
      cases a with
      | receive p bundles =>
          obtain ⟨pvt, hpvt, hreceive⟩ := Option.bind_eq_some_iff.mp hs₁
          exact hc.brings h hcontent h (inheritsAll_of_states rfl) (heldBefore_of_pivot rfl) houtputs
            hpvt rfl hreceive
      | split p ubkey bundles =>
          simp only [enabled, Bool.and_eq_true, Option.isNone_iff_eq_none] at hen
          obtain ⟨pvt, hpvt, -⟩ := Option.bind_eq_some_iff.mp hs₁
          obtain ⟨hsplit, -, -, -⟩ := h.replacesLeaf hpvt ubkey hen.1.2
          obtain ⟨-, -, hpivot, -, -⟩ := h.abandon p
          rw [perform, restoreBalanceLeaf_eq hpvt] at hs₁
          have hnew : ((abandonEntry s p).setPivot p (splitPivot pvt ubkey)).pivot p =
              some (splitPivot pvt ubkey) := Function.update_self _ _ _
          refine hc.brings h hcontent hsplit ((h.carried_abandonEntry p).inherits h)
            (heldBefore_of_update (congrArg (Function.update · _ _) hpivot) fun branch hbranch => ?_)
            houtputs hnew rfl hs₁
          refine Or.inl ⟨pvt, hpvt, ?_⟩
          rwa [splitPivot, Ledger.held_split] at hbranch
      | _ => cases hact

end Invariant

end Trunk
end TreePass
