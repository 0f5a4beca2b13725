import TreePass.Core.Runs
import TreePass.Trunk.Contents

/-!
# Dropping deletes

A full merge drops deletes and finalises updates.  That is right only where nothing older is left: the
mode is chosen when a compaction is created, and takes effect when its result is applied.

* `pivotLookup` is what a lookup does at a pivot, `finishLookup` the rest of it; `scanInputs` are
  the inputs of a scan.
* `finalFold_compacted`: the outputs of a queue stand for its inputs, as long as only the first
  compaction is full and nothing is older than it.
* `drops_safely`: so it is whenever results are applied, in every run.
-/

namespace TreePass
namespace Trunk

open Lib Lib.System Merge TreePass.Core

variable {K : Type} [LinearOrder K]

/-! ## Lookups and scans -/

/-- The branches of a pivot in a lookup, newest first, as in `trunk_merge_lookup` and
`trunk_ondisk_bundle_merge_lookup`: the in-flight bundles and then the pivot bundle, each from its last
branch on.  A branch without the key changes nothing, so the maplets are left out. -/
def lookupBranches (cfg : DataConfig K) (content : Nat → List (Tuple K)) (k : K) :
    List Nat → Option Message → Option (Option Message)
  | [], result => some result
  | branch :: branches, result =>
      (mergeUnder cfg k result (messageIn (content branch) k)).bind fun result =>
        if isDefinitive result then some result else lookupBranches cfg content k branches result

def pivotLookup (cfg : DataConfig K) (content : Nat → List (Tuple K)) (pvt : Pivot K) (k : K)
    (result : Option Message) : Option (Option Message) :=
  lookupBranches cfg content k pvt.held.reverse result

/-- The rest of a lookup: what the levels below have, then the finalisation. -/
def finishLookup (cfg : DataConfig K) (k : K) (older : List Message) (result : Option Message) :
    Option (Option Message) :=
  (older.foldlM (fun acc m => mergeUnder cfg k acc (some m)) result).bind fun result =>
    (mergeFinal cfg k result).map Core.normalize

def scanInputs (forwards : Bool) (range : K → Bool) (branches : List (List (Tuple K))) :
    List (Cursor (Tuple K)) :=
  branches.map fun tuples =>
    let tuples := tuples.filter fun t => range t.key
    if forwards then Cursor.atFirst tuples else Cursor.atLast tuples

def outputMessage (content : Nat → List (Tuple K)) (bc : BundleCompaction) (k : K) : Option Message :=
  if bc.outputBranch = 0 then none else messageIn (content bc.outputBranch) k

/-- **The results of a maplet compaction may be applied.**  `st` is its state, `pvt` the pivot, `count`
the number of compactions it applies, `newMaplet` their maplet. -/
structure AppliesSafely (cfg : DataConfig K) (content : Nat → List (Tuple K)) (st : PivotState K)
    (pvt : Pivot K) (count newMaplet : Nat) : Prop where
  /-- A full compaction is of a leaf, and nothing there is older than its inputs. -/
  full : ∀ i bc, i < count → st.bundleCompactions[i]? = some bc → bc.mergeMode = .full →
    i = 0 ∧ st.pivot.2 = 0 ∧ pvt.pivotBundle.branches = [] ∧ bc.inputs <+: pvt.inflight
  /-- All others leave the fold of what they merge, with deletes and updates. -/
  others : ∀ bc ∈ st.bundleCompactions.take count, bc.mergeMode ≠ .full →
    bc.mergeMode = .intermediate ∧ ∀ k, st.pivot.1 ≤ k → k < st.ubkey →
      foldAll (mergeOp cfg k) (inputMessages content bc k) = some (outputMessage content bc k)
  /-- No lookup notices, whatever it has found above and will find below the pivot. -/
  lookup : ∀ k, st.pivot.1 ≤ k → k < st.ubkey → ∀ result, AllSome isUserMessage result →
    ∀ older : List Message, (∀ m ∈ older, isUserMessage m) → (st.pivot.2 = 0 → older = []) →
      (pivotLookup cfg content pvt k result).bind (finishLookup cfg k older) =
        (pivotLookup cfg content (applyToPivot pvt newMaplet
          (outputBranches st.bundleCompactions count)
          (inputBundles st.bundleCompactions count).length) k result).bind (finishLookup cfg k older)
  /-- No scan notices. -/
  scan : ∀ forwards (range : K → Bool), (∀ k, range k = true → st.pivot.1 ≤ k ∧ k < st.ubkey) →
    ∀ newer older : List (List (Tuple K)), (∀ tuples ∈ newer, WellFormed tuples) →
      (∀ tuples ∈ older, WellFormed tuples) → (st.pivot.2 = 0 → older = []) →
      mergeSpec cfg true forwards (scanInputs forwards range (older ++ pvt.held.map content ++ newer)) =
        mergeSpec cfg true forwards (scanInputs forwards range (older ++
          (applyToPivot pvt newMaplet (outputBranches st.bundleCompactions count)
            (inputBundles st.bundleCompactions count).length).held.map content ++ newer))

/-! ## Lookups are folds -/

section Lookups

variable {cfg : DataConfig K} {content : Nat → List (Tuple K)} {k : K}

def heldMessages (content : Nat → List (Tuple K)) (pvt : Pivot K) (k : K) : List Message :=
  pvt.held.reverse.filterMap fun branch => messageIn (content branch) k

omit [LinearOrder K] in
theorem foldlM_of_isDefinitive {result : Option Message} (h : isDefinitive result = true)
    (msgs : List Message) :
    msgs.foldlM (fun acc m => mergeUnder cfg k acc (some m)) result = some result := by
  induction msgs with
  | nil => rfl
  | cons m msgs ih =>
      obtain ⟨r, rfl⟩ : ∃ r, result = some r := by
        cases result with
        | none => cases h
        | some r => exact ⟨r, rfl⟩
      have hdef : r.isDefinitive = true := h
      rw [List.foldlM_cons, mergeUnder, combine_some_some, DataConfig.dataMergeTuples, if_pos hdef]
      exact ih

theorem lookupBranches_eq (branches : List Nat) : ∀ result older,
    (lookupBranches cfg content k branches result).bind (finishLookup cfg k older) =
      finishLookup cfg k (branches.filterMap (fun branch => messageIn (content branch) k) ++ older)
        result := by
  induction branches with
  | nil => intro result older; rfl
  | cons branch branches ih =>
      intro result older
      rw [lookupBranches, List.filterMap_cons]
      cases hfound : messageIn (content branch) k with
      | none =>
          rw [mergeUnder, combine_none_right, Option.bind_some]
          dsimp only
          by_cases hdef : isDefinitive result = true
          · rw [if_pos hdef, Option.bind_some, finishLookup, finishLookup, foldlM_of_isDefinitive hdef,
              foldlM_of_isDefinitive hdef]
          · rw [if_neg hdef, ih]
      | some m =>
          rw [List.cons_append, finishLookup, List.foldlM_cons]
          cases hmerged : mergeUnder cfg k result (some m) with
          | none => rfl
          | some r =>
              rw [Option.bind_some]
              change _ = finishLookup cfg k _ r
              by_cases hdef : isDefinitive r = true
              · rw [if_pos hdef, Option.bind_some, finishLookup, finishLookup,
                  foldlM_of_isDefinitive hdef, foldlM_of_isDefinitive hdef]
              · rw [if_neg hdef, ih]

/-- **A lookup is the final fold** of what it has found, of what the pivot holds and of what is below. -/
theorem pivotLookup_eq (pvt : Pivot K) (result : Option Message) (older : List Message) :
    (pivotLookup cfg content pvt k result).bind (finishLookup cfg k older) =
      finalFold cfg k (result.toList ++ heldMessages content pvt k ++ older) := by
  rw [pivotLookup, lookupBranches_eq, finishLookup, finalFold, foldAll, List.append_assoc]
  cases result with
  | none => rfl
  | some r => rfl

end Lookups

/-! ## Inputs and outputs of a queue -/

section Queues

variable {cfg : DataConfig K} {content : Nat → List (Tuple K)} {low high : K} {k : K}

theorem QueueOk.outputMessage_eq {bc : BundleCompaction} (h : QueueOk cfg content low high bc)
    (hstatus : bc.status = .succeeded) (hlow : low ≤ k) (hhigh : k < high) :
    keptMessage cfg (decide (bc.mergeMode = .full)) k (inputMessages content bc k) =
      some (outputMessage content bc k) := by
  obtain ⟨tuples, htuples, hcase⟩ := h.output hstatus
  rw [output_at h.inputs h.mode htuples hlow hhigh, outputMessage]
  by_cases hzero : bc.outputBranch = 0
  · rw [if_pos hzero] at hcase ⊢
    rw [hcase]
    rfl
  · rw [if_neg hzero] at hcase ⊢
    rw [hcase]

theorem QueueOk.outputMessage_user (hmerge : MergeAssoc cfg) {bc : BundleCompaction}
    (h : QueueOk cfg content low high bc) (hstatus : bc.status = .succeeded) :
    ∀ m ∈ (outputMessage content bc k).toList, isUserMessage m := by
  intro m hm
  rw [Option.mem_toList, outputMessage] at hm
  by_cases hzero : bc.outputBranch = 0
  · rw [if_pos hzero] at hm
    cases hm
  · rw [if_neg hzero] at hm
    exact messageIn_user (h.output_wellFormed hmerge hstatus hzero) hm

/-- The compactions of a queue that are to be applied. -/
structure QueueDone (cfg : DataConfig K) (content : Nat → List (Tuple K)) (low high : K)
    (queue : List BundleCompaction) : Prop where
  ok : ∀ bc ∈ queue, QueueOk cfg content low high bc
  succeeded : ∀ bc ∈ queue, bc.status = .succeeded

theorem QueueDone.tail {bc : BundleCompaction} {queue : List BundleCompaction}
    (h : QueueDone cfg content low high (bc :: queue)) : QueueDone cfg content low high queue :=
  ⟨fun b hb => h.ok b (List.mem_cons_of_mem _ hb), fun b hb => h.succeeded b (List.mem_cons_of_mem _ hb)⟩

def queueInputs (content : Nat → List (Tuple K)) (queue : List BundleCompaction) (k : K) :
    List Message := queue.reverse.flatMap fun bc => inputMessages content bc k

def queueOutputs (content : Nat → List (Tuple K)) (queue : List BundleCompaction) (k : K) :
    List Message := queue.reverse.flatMap fun bc => (outputMessage content bc k).toList

theorem queueInputs_cons (bc : BundleCompaction) (queue : List BundleCompaction) :
    queueInputs content (bc :: queue) k =
      queueInputs content queue k ++ inputMessages content bc k := by
  simp [queueInputs]

theorem queueOutputs_cons (bc : BundleCompaction) (queue : List BundleCompaction) :
    queueOutputs content (bc :: queue) k =
      queueOutputs content queue k ++ (outputMessage content bc k).toList := by
  simp [queueOutputs]

theorem QueueDone.outputs_user (hmerge : MergeAssoc cfg) {queue : List BundleCompaction}
    (h : QueueDone cfg content low high queue) : ∀ m ∈ queueOutputs content queue k, isUserMessage m := by
  intro m hm
  obtain ⟨bc, hbc, hm⟩ := List.mem_flatMap.mp hm
  have hbc := List.mem_reverse.mp hbc
  exact (h.ok bc hbc).outputMessage_user hmerge (h.succeeded bc hbc) m hm

theorem QueueOk.fold_eq {bc : BundleCompaction} (h : QueueOk cfg content low high bc)
    (hstatus : bc.status = .succeeded) (hnot : bc.mergeMode ≠ .full) (hlow : low ≤ k)
    (hhigh : k < high) :
    foldAll (mergeOp cfg k) (inputMessages content bc k) = some (outputMessage content bc k) := by
  have hkept := h.outputMessage_eq hstatus hlow hhigh
  rwa [decide_eq_false hnot, keptMessage_false] at hkept

theorem QueueDone.finalFold_others (hmerge : MergeAssoc cfg) (hlow : low ≤ k) (hhigh : k < high)
    {queue : List BundleCompaction} (h : QueueDone cfg content low high queue)
    (hnot : ∀ bc ∈ queue, bc.mergeMode ≠ .full) {newer : List Message}
    (hnewer : ∀ m ∈ newer, isUserMessage m) :
    ∀ {older : List Message}, (∀ m ∈ older, isUserMessage m) →
      finalFold cfg k (newer ++ queueInputs content queue k ++ older) =
        finalFold cfg k (newer ++ queueOutputs content queue k ++ older) := by
  induction queue with
  | nil => intro older _; rfl
  | cons bc queue ih =>
      intro older holder
      have hok := h.ok bc List.mem_cons_self
      have hstatus := h.succeeded bc List.mem_cons_self
      have hinputs : ∀ m ∈ inputMessages content bc k, isUserMessage m := inputMessages_user hok.inputs
      have houtput : ∀ m ∈ (outputMessage content bc k).toList, isUserMessage m :=
        hok.outputMessage_user hmerge hstatus
      have hbelow : ∀ m ∈ inputMessages content bc k ++ older, isUserMessage m := fun m hm =>
        (List.mem_append.mp hm).elim (hinputs m) (holder m)
      have habove : ∀ m ∈ newer ++ queueOutputs content queue k, isUserMessage m := fun m hm =>
        (List.mem_append.mp hm).elim (hnewer m) (h.tail.outputs_user hmerge m)
      have hsame : foldAll (mergeOp cfg k) (inputMessages content bc k) =
          foldAll (mergeOp cfg k) (outputMessage content bc k).toList := by
        rw [hok.fold_eq hstatus (hnot bc List.mem_cons_self) hlow hhigh]
        cases outputMessage content bc k <;> rfl
      calc finalFold cfg k (newer ++ queueInputs content (bc :: queue) k ++ older)
          = finalFold cfg k (newer ++ queueInputs content queue k ++
              (inputMessages content bc k ++ older)) := by
            rw [queueInputs_cons, List.append_assoc, List.append_assoc, List.append_assoc]
        _ = finalFold cfg k (newer ++ queueOutputs content queue k ++
              (inputMessages content bc k ++ older)) :=
            ih h.tail (fun b hb => hnot b (List.mem_cons_of_mem _ hb)) hbelow
        _ = finalFold cfg k (newer ++ queueOutputs content queue k ++ inputMessages content bc k ++
              older) := by rw [List.append_assoc (newer ++ _)]
        _ = finalFold cfg k (newer ++ queueOutputs content queue k ++
              (outputMessage content bc k).toList ++ older) :=
            finalFold_of_fold hmerge habove hinputs houtput holder hsame
        _ = finalFold cfg k (newer ++ queueOutputs content (bc :: queue) k ++ older) := by
            rw [queueOutputs_cons, ← List.append_assoc newer]

/-- **The outputs of a queue stand for its inputs**, as long as only the first compaction is full, and
nothing is older than a full one. -/
theorem QueueDone.finalFold_compacted (hmerge : MergeAssoc cfg) (hlow : low ≤ k) (hhigh : k < high)
    {queue : List BundleCompaction} (h : QueueDone cfg content low high queue) {newer older : List Message}
    (hfull : ∀ i bc, queue[i]? = some bc → bc.mergeMode = .full → i = 0 ∧ older = [])
    (hnewer : ∀ m ∈ newer, isUserMessage m) (holder : ∀ m ∈ older, isUserMessage m) :
    finalFold cfg k (newer ++ queueInputs content queue k ++ older) =
      finalFold cfg k (newer ++ queueOutputs content queue k ++ older) := by
  cases queue with
  | nil => rfl
  | cons bc queue =>
      have hrest : ∀ b ∈ queue, b.mergeMode ≠ .full := by
        intro b hb hmode
        obtain ⟨i, hi⟩ := List.mem_iff_getElem?.mp hb
        exact absurd (hfull (i + 1) b hi hmode).1 (Nat.succ_ne_zero i)
      by_cases hmode : bc.mergeMode = .full
      · obtain ⟨-, rfl⟩ := hfull 0 bc rfl hmode
        have hok := h.ok bc List.mem_cons_self
        have hstatus := h.succeeded bc List.mem_cons_self
        have hinputs : ∀ m ∈ inputMessages content bc k, isUserMessage m :=
          inputMessages_user hok.inputs
        have habove : ∀ m ∈ newer ++ queueOutputs content queue k, isUserMessage m := fun m hm =>
          (List.mem_append.mp hm).elim (hnewer m) (h.tail.outputs_user hmerge m)
        have hkept := hok.outputMessage_eq hstatus hlow hhigh
        rw [decide_eq_true hmode, keptMessage_true] at hkept
        rw [queueInputs_cons, queueOutputs_cons, List.append_nil, List.append_nil, ← List.append_assoc,
          ← List.append_assoc, h.tail.finalFold_others hmerge hlow hhigh hrest hnewer hinputs]
        exact (finalFold_of_final hmerge habove hinputs hkept).1
      · refine h.finalFold_others hmerge hlow hhigh (fun b hb => ?_) hnewer holder
        rcases List.mem_cons.mp hb with rfl | hb
        · exact hmode
        · exact hrest b hb

theorem filterMap_reverse_flatMap {α : Type} (l : List α) (branches : α → List Nat) (g : Nat → Option Message) :
    (l.flatMap branches).reverse.filterMap g =
      l.reverse.flatMap fun x => (branches x).reverse.filterMap g := by
  induction l with
  | nil => rfl
  | cons x l ih => simp [ih, List.filterMap_append]

theorem heldMessages_inputs {pvt : Pivot K} {queue : List BundleCompaction} {rest : List Bundle}
    (hinflight : pvt.inflight = queue.flatMap (·.inputs) ++ rest) :
    heldMessages content pvt k =
      (rest.flatMap (·.branches)).reverse.filterMap (fun branch => messageIn (content branch) k) ++
        queueInputs content queue k ++
          pvt.pivotBundle.branches.reverse.filterMap fun branch => messageIn (content branch) k := by
  have hqueue : ((queue.flatMap (·.inputs)).flatMap (·.branches)).reverse.filterMap
      (fun branch => messageIn (content branch) k) = queueInputs content queue k := by
    rw [List.flatMap_assoc, filterMap_reverse_flatMap]
    rfl
  rw [heldMessages, Pivot.held, hinflight, List.flatMap_append, List.reverse_append, List.reverse_append,
    List.filterMap_append, List.filterMap_append, hqueue]

theorem filterMap_outputs (queue : List BundleCompaction) :
    ((queue.map (·.outputBranch)).filter (· ≠ 0)).reverse.filterMap
      (fun branch => messageIn (content branch) k) = queueOutputs content queue k := by
  induction queue with
  | nil => rfl
  | cons bc queue ih =>
      rw [queueOutputs_cons, List.map_cons]
      by_cases hzero : bc.outputBranch = 0
      · rw [List.filter_cons_of_neg (by simpa using hzero), ih, outputMessage, if_pos hzero]
        exact (List.append_nil _).symm
      · rw [List.filter_cons_of_pos (by simpa using hzero), List.reverse_cons, List.filterMap_append, ih,
          outputMessage, if_neg hzero]
        congr 1

theorem heldMessages_outputs {pvt : Pivot K} {queue : List BundleCompaction} {rest : List Bundle}
    (hinflight : pvt.inflight = queue.flatMap (·.inputs) ++ rest) (newMaplet : Nat) :
    heldMessages content (applyToPivot pvt newMaplet ((queue.map (·.outputBranch)).filter (· ≠ 0))
      (queue.flatMap (·.inputs)).length) k =
      (rest.flatMap (·.branches)).reverse.filterMap (fun branch => messageIn (content branch) k) ++
        queueOutputs content queue k ++
          pvt.pivotBundle.branches.reverse.filterMap fun branch => messageIn (content branch) k := by
  rw [← filterMap_outputs, heldMessages, Pivot.held, applyToPivot, hinflight, List.drop_left,
    List.reverse_append, List.reverse_append, List.filterMap_append, List.filterMap_append,
    List.append_assoc]

end Queues

/-! ## Scans -/

section Scans

variable {forwards : Bool} {range : K → Bool} {k : K}

theorem messagesFor_scanInputs {branches : List (List (Tuple K))}
    (hwf : ∀ tuples ∈ branches, WellFormed tuples) :
    messagesFor forwards (scanInputs forwards range branches) k =
      if range k = true then branches.reverse.filterMap fun tuples => messageIn tuples k else [] := by
  have hcursor : ∀ tuples ∈ branches, (((if forwards then Cursor.atFirst
      (tuples.filter fun t => range t.key) else Cursor.atLast
        (tuples.filter fun t => range t.key)).remaining forwards).find? fun t => t.key = k).map
          (·.msg) = if range k = true then messageIn tuples k else none := by
    intro tuples htuples
    have hsorted : (tuples.filter fun t => range t.key).Pairwise fun a b => a.key < b.key :=
      (hwf tuples htuples).sorted.filter _
    have hforwards : ((tuples.filter fun t => range t.key).find? fun t => t.key = k).map (·.msg) =
        if range k = true then messageIn tuples k else none := by
      by_cases hrange : range k = true
      · rw [if_pos hrange]
        exact messageIn_filter hrange
      · rw [if_neg hrange, Option.map_eq_none_iff, List.find?_eq_none]
        intro t ht hkey
        have hkey : t.key = k := by simpa using hkey
        exact hrange (hkey ▸ (List.mem_filter.mp ht).2)
    cases forwards with
    | true =>
        rw [if_pos rfl, Cursor.remaining_atFirst]
        exact hforwards
    | false =>
        rw [if_neg (by simp), Cursor.remaining_atLast, ← hforwards]
        have hreversed : (tuples.filter fun t => range t.key).reverse.Pairwise
            fun a b => keyLt false a.key b.key := List.pairwise_reverse.mpr hsorted
        have hstraight : (tuples.filter fun t => range t.key).Pairwise
            fun a b => keyLt true a.key b.key := hsorted
        congr 1
        refine Option.ext fun t => ?_
        rw [find_key_eq_some_iff hreversed, find_key_eq_some_iff hstraight, List.mem_reverse]
  rw [messagesFor, scanInputs, ← List.map_reverse, List.filterMap_map]
  by_cases hrange : range k = true
  · rw [if_pos hrange]
    refine List.filterMap_congr fun tuples htuples => ?_
    have hfound := hcursor tuples (List.mem_reverse.mp htuples)
    rw [if_pos hrange] at hfound
    exact hfound
  · rw [if_neg hrange, List.filterMap_eq_nil_iff]
    intro tuples htuples
    have hfound := hcursor tuples (List.mem_reverse.mp htuples)
    rw [if_neg hrange] at hfound
    exact hfound

theorem filterMap_messageIn_user {branches : List (List (Tuple K))}
    (hwf : ∀ tuples ∈ branches, WellFormed tuples) :
    ∀ m ∈ branches.reverse.filterMap fun tuples => messageIn tuples k, isUserMessage m := by
  intro m hm
  obtain ⟨tuples, htuples, hm⟩ := List.mem_filterMap.mp hm
  exact messageIn_user (hwf tuples (List.mem_reverse.mp htuples)) hm

end Scans

/-! ## Applications -/

section Applications

variable {cfg : DataConfig K} {content : Nat → List (Tuple K)} {st : PivotState K} {pvt : Pivot K}
  {count newMaplet : Nat}

/-- What is known when the results of a maplet compaction are applied. -/
structure Applicable (cfg : DataConfig K) (content : Nat → List (Tuple K)) (st : PivotState K)
    (pvt : Pivot K) (count : Nat) : Prop where
  done : QueueDone cfg content st.pivot.1 st.ubkey (st.bundleCompactions.take count)
  inflight : ∃ rest, pvt.inflight = inputBundles st.bundleCompactions count ++ rest
  full : ∀ i bc, i < count → st.bundleCompactions[i]? = some bc → bc.mergeMode = .full →
    i = 0 ∧ st.pivot.2 = 0 ∧ pvt.pivotBundle.branches = [] ∧ bc.inputs <+: pvt.inflight
  held : ∀ branch ∈ pvt.held, WellFormed (content branch)

def appliedPivot (st : PivotState K) (pvt : Pivot K) (count newMaplet : Nat) : Pivot K :=
  applyToPivot pvt newMaplet (outputBranches st.bundleCompactions count)
    (inputBundles st.bundleCompactions count).length

theorem Applicable.held_applied (h : Applicable cfg content st pvt count) (hmerge : MergeAssoc cfg) :
    ∀ branch ∈ (appliedPivot st pvt count newMaplet).held, WellFormed (content branch) := by
  intro branch hbranch
  rcases mem_held_applyToPivot hbranch with hold | hnew
  · exact h.held branch hold
  · obtain ⟨hmem, hne⟩ := List.mem_filter.mp hnew
    obtain ⟨bc, hbc, rfl⟩ := List.mem_map.mp hmem
    exact (h.done.ok bc hbc).output_wellFormed hmerge (h.done.succeeded bc hbc) (by simpa using hne)

theorem Applicable.messages_user (h : Applicable cfg content st pvt count) {branches : List Nat}
    (hin : ∀ branch ∈ branches, branch ∈ pvt.held) {k : K} :
    ∀ m ∈ branches.reverse.filterMap fun branch => messageIn (content branch) k, isUserMessage m := by
  intro m hm
  obtain ⟨branch, hbranch, hm⟩ := List.mem_filterMap.mp hm
  exact messageIn_user (h.held branch (hin branch (List.mem_reverse.mp hbranch))) hm

theorem Applicable.finalFold_eq (h : Applicable cfg content st pvt count) (hmerge : MergeAssoc cfg)
    {k : K} (hlow : st.pivot.1 ≤ k) (hhigh : k < st.ubkey) {newer older : List Message}
    (hnewer : ∀ m ∈ newer, isUserMessage m) (holder : ∀ m ∈ older, isUserMessage m)
    (hleaf : st.pivot.2 = 0 → older = []) :
    finalFold cfg k (newer ++ heldMessages content pvt k ++ older) =
      finalFold cfg k (newer ++ heldMessages content (appliedPivot st pvt count newMaplet) k ++
        older) := by
  obtain ⟨rest, hinflight⟩ := h.inflight
  have hinputs : pvt.inflight = (st.bundleCompactions.take count).flatMap (·.inputs) ++ rest :=
    hinflight
  have hrest : ∀ branch ∈ rest.flatMap (·.branches), branch ∈ pvt.held := by
    intro branch hbranch
    rw [Pivot.held, hinputs, List.flatMap_append]
    exact List.mem_append_right _ (List.mem_append_right _ hbranch)
  have hbundle : ∀ branch ∈ pvt.pivotBundle.branches, branch ∈ pvt.held := fun branch hbranch =>
    List.mem_append_left _ hbranch
  have hfull : ∀ i bc, (st.bundleCompactions.take count)[i]? = some bc → bc.mergeMode = .full →
      i = 0 ∧ (pvt.pivotBundle.branches.reverse.filterMap fun branch => messageIn (content branch) k) ++
        older = [] := by
    intro i bc hbc hmode
    rw [List.getElem?_take] at hbc
    split at hbc
    · rename_i hi
      obtain ⟨hzero, hheight, hempty, -⟩ := h.full i bc hi hbc hmode
      exact ⟨hzero, by rw [hempty, hleaf hheight]; rfl⟩
    · cases hbc
  have hrestUser : ∀ m ∈ (rest.flatMap (·.branches)).reverse.filterMap fun branch =>
      messageIn (content branch) k, isUserMessage m := h.messages_user hrest
  have hbundleUser : ∀ m ∈ pvt.pivotBundle.branches.reverse.filterMap fun branch =>
      messageIn (content branch) k, isUserMessage m := h.messages_user hbundle
  have hcompacted := h.done.finalFold_compacted hmerge hlow hhigh hfull
    (fun m hm => (List.mem_append.mp hm).elim (hnewer m) (hrestUser m))
    (fun m hm => (List.mem_append.mp hm).elim (hbundleUser m) (holder m))
  have hafter : heldMessages content (applyToPivot pvt newMaplet
      (((st.bundleCompactions.take count).map (·.outputBranch)).filter (· ≠ 0))
      ((st.bundleCompactions.take count).flatMap (·.inputs)).length) k = _ :=
    heldMessages_outputs hinputs newMaplet
  rw [heldMessages_inputs hinputs]
  refine Eq.trans ?_ (hcompacted.trans ?_)
  · simp only [List.append_assoc]
  · rw [appliedPivot, outputBranches, inputBundles, hafter]
    simp only [List.append_assoc]

theorem messagesFor_scan {forwards : Bool} {range : K → Bool} {newer older : List (List (Tuple K))}
    (hwf : ∀ tuples ∈ older ++ pvt.held.map content ++ newer, WellFormed tuples) (k : K) :
    messagesFor forwards (scanInputs forwards range (older ++ pvt.held.map content ++ newer)) k =
      if range k = true then newer.reverse.filterMap (fun tuples => messageIn tuples k) ++
        heldMessages content pvt k ++ older.reverse.filterMap (fun tuples => messageIn tuples k)
      else [] := by
  rw [messagesFor_scanInputs hwf, List.reverse_append, List.reverse_append, List.filterMap_append,
    List.filterMap_append, ← List.map_reverse, List.filterMap_map, List.append_assoc]
  rfl

theorem Applicable.mergeSpec_eq (h : Applicable cfg content st pvt count) (hmerge : MergeAssoc cfg)
    {forwards : Bool} {range : K → Bool}
    (hrange : ∀ k, range k = true → st.pivot.1 ≤ k ∧ k < st.ubkey)
    {newer older : List (List (Tuple K))} (hnewer : ∀ tuples ∈ newer, WellFormed tuples)
    (holder : ∀ tuples ∈ older, WellFormed tuples) (hleaf : st.pivot.2 = 0 → older = []) :
    mergeSpec cfg true forwards (scanInputs forwards range (older ++ pvt.held.map content ++ newer)) =
      mergeSpec cfg true forwards (scanInputs forwards range
        (older ++ (appliedPivot st pvt count newMaplet).held.map content ++ newer)) := by
  have hwf : ∀ pvt₁ : Pivot K, (∀ branch ∈ pvt₁.held, WellFormed (content branch)) →
      ∀ tuples ∈ older ++ pvt₁.held.map content ++ newer, WellFormed tuples := by
    intro pvt₁ hpvt₁ tuples htuples
    rcases List.mem_append.mp htuples with htuples | htuples
    · rcases List.mem_append.mp htuples with htuples | htuples
      · exact holder tuples htuples
      · obtain ⟨branch, hbranch, rfl⟩ := List.mem_map.mp htuples
        exact hpvt₁ branch hbranch
    · exact hnewer tuples htuples
  have hbefore := hwf pvt h.held
  have hafter := hwf (appliedPivot st pvt count newMaplet) (h.held_applied hmerge)
  have huser : ∀ branches : List (List (Tuple K)), (∀ tuples ∈ branches, WellFormed tuples) → ∀ k,
      ∀ m ∈ messagesFor forwards (scanInputs forwards range branches) k, isUserMessage m := by
    intro branches hbranches k m hm
    rw [messagesFor_scanInputs hbranches] at hm
    split at hm
    · exact filterMap_messageIn_user hbranches m hm
    · cases hm
  refine mergeSpec_congr hmerge (huser _ hbefore) (huser _ hafter) fun k => ?_
  rw [messagesFor_scan hbefore, messagesFor_scan hafter]
  by_cases hk : range k = true
  · rw [if_pos hk, if_pos hk]
    obtain ⟨hlow, hhigh⟩ := hrange k hk
    refine h.finalFold_eq hmerge hlow hhigh (filterMap_messageIn_user hnewer)
      (filterMap_messageIn_user holder) fun hheight => ?_
    rw [hleaf hheight]
    rfl
  · rw [if_neg hk, if_neg hk]

theorem Applicable.appliesSafely (h : Applicable cfg content st pvt count) (hmerge : MergeAssoc cfg) :
    AppliesSafely cfg content st pvt count newMaplet where
  full := h.full
  others bc hbc hnot := by
    refine ⟨?_, fun k hlow hhigh => (h.done.ok bc hbc).fold_eq (h.done.succeeded bc hbc) hnot hlow hhigh⟩
    have hraw := (h.done.ok bc hbc).mode
    cases hmode : bc.mergeMode with
    | raw => exact absurd hmode hraw
    | intermediate => rfl
    | full => exact absurd hmode hnot
  lookup k hlow hhigh result hresult older holder hleaf := by
    rw [pivotLookup_eq, pivotLookup_eq]
    exact h.finalFold_eq hmerge hlow hhigh (fun m hm => hresult m (Option.mem_toList.mp hm)) holder hleaf
  scan forwards range hrange newer older hnewer holder hleaf :=
    h.mergeSpec_eq hmerge hrange hnewer holder hleaf

theorem ContentInv.applicable {s : TrunkState K} {c : Contents K} {strict : Prop}
    (hc : ContentInv cfg s c) (h : PivotInv strict s) {t σ m : Nat}
    (hτ : s.task[t]? = some (.built σ count m)) (hst : s.state σ = some st)
    (hmatch : matchingPivot s st count = some pvt) : Applicable cfg (c st.pivot) st pvt count := by
  obtain ⟨st₀, l, ha⟩ := h.atTask hτ rfl
  obtain rfl := Option.some.inj (hst.symm.trans ha.state)
  have hok := ha.stateOk h
  obtain ⟨-, hfin, -⟩ := hok.covered _ (Multiset.mem_cons_self _ _)
  have hm := h.matched ha hmatch
  have hledger := h.ledger _ pvt hm.pivot
  have hunapplied := unapplied_built hok
  obtain ⟨rest, hrest⟩ := hm.fits
  refine ⟨⟨fun bc hbc => hc.queue σ st hst bc (List.mem_of_mem_take hbc), hfin.succeeded⟩,
    ⟨(st.bundleCompactions.drop count).flatMap (·.inputs) ++ rest, ?_⟩, ?_, hc.held _ pvt hm.pivot⟩
  · rw [inputBundles, ← List.append_assoc, ← List.flatMap_append, List.take_append_drop, hrest]
  · intro i bc _ hbc hmode
    obtain ⟨rfl, hleaf, hmaplet⟩ := hok.full i bc (by rw [hunapplied]; exact hbc) hmode
    refine ⟨rfl, hleaf, hledger.maplet.mp (hm.maplet ▸ hmaplet), ?_⟩
    cases hqueue : st.bundleCompactions with
    | nil =>
        rw [hqueue] at hbc
        cases hbc
    | cons b tail =>
        rw [hqueue] at hbc hrest
        obtain rfl : b = bc := Option.some.inj hbc
        rw [← hrest, List.flatMap_cons, List.append_assoc]
        exact List.prefix_append _ _

end Applications

/-! ## Runs -/

section Runs

variable {cfg : DataConfig K}

def FullOnLeaves (r : TrunkState K × Contents K) : Prop :=
  ∀ σ st, r.1.state σ = some st → ∀ bc ∈ st.bundleCompactions, bc.mergeMode = .full → st.pivot.2 = 0

def StepSafe (cfg : DataConfig K) (r : TrunkState K × Contents K) (a : Act K) : Prop :=
  ∀ t σ count newMaplet st pvt, a = .apply t → r.1.task[t]? = some (.built σ count newMaplet) →
    r.1.state σ = some st → matchingPivot r.1 st count = some pvt →
      AppliesSafely cfg (r.2 st.pivot) st pvt count newMaplet

/-- **Dropping deletes is safe.**  In every run, whatever fails, is abandoned, split or mounted again, a
full merge is of a leaf, and whenever results are applied nothing is older than the inputs of a full
one, so that no lookup and no scan notices; all other merges keep deletes and updates. -/
theorem drops_safely (hmerge : MergeAssoc cfg) {low high : K} {c₀ : Contents K}
    {tr : List ((TrunkState K × Contents K) × Act K)} {r : TrunkState K × Contents K}
    (hrun : (storeSystem cfg low high).Run (newTrunk low high, c₀) tr r) :
    Visits FullOnLeaves tr r ∧ Guarded (StepSafe cfg) tr := by
  have hall : Guarded (fun _ _ => True) tr := fun _ _ => trivial
  have hvisits : Visits (fun r => PivotInv False r.1 ∧ ContentInv cfg r.1 r.2) tr r := by
    refine hrun.invariant ⟨pivotInv_newTrunk low high, ?_, ?_, ?_⟩ ?_ hall
    · intro p pvt hpvt branch hbranch
      simp only [newTrunk] at hpvt
      split at hpvt
      · rw [← Option.some.inj hpvt] at hbranch
        exact absurd hbranch List.not_mem_nil
      · cases hpvt
    · intro σ st hst
      cases hst
    · intro σ st hst
      cases hst
    · rintro r a r' ⟨hinv, hcontent⟩ - ⟨hnext, hstep⟩
      exact ⟨hinv.trunkNext (fun hf => hf.elim) hnext, hcontent.trunkNext hmerge hinv hstep hnext⟩
  refine ⟨hvisits.mono fun r h => h.2.leaf, fun step hstep => ?_⟩
  obtain ⟨hinv, hcontent⟩ := hvisits.1 step hstep
  intro t σ count newMaplet st pvt _ hτ hst hmatch
  exact (hcontent.applicable hinv hτ hst hmatch).appliesSafely hmerge

end Runs

/-! ## A run -/

theorem storeRun_of_run {cfg : DataConfig K} {low high : K} {c : Contents K} {s s' : TrunkState K}
    {tr : List (TrunkState K × Act K)} (hrun : (compactionSystem low high).Run s tr s')
    (hsteps : ∀ step ∈ tr, ContentStep cfg step.1 c step.2 c) :
    (storeSystem cfg low high).Run (s, c) (tr.map fun step => ((step.1, c), step.2)) (s', c) := by
  induction hrun with
  | nil => exact Run.nil
  | snoc hprev hlast ih =>
      rw [List.map_append]
      exact Run.snoc (ih fun step hstep => hsteps step (List.mem_append_left _ hstep))
        ⟨hlast, hsteps _ (List.mem_append_right _ List.mem_cons_self)⟩

def deletedContents : Contents Nat := fun _ branch =>
  match branch with
  | 1 => [⟨5, ⟨.insert, [1]⟩⟩, ⟨7, ⟨.insert, [2]⟩⟩]
  | 2 => [⟨5, ⟨.delete, []⟩⟩]
  | 3 => [⟨7, ⟨.insert, [2]⟩⟩]
  | _ => []

/-- The branches are incorporated into the root, compacted, and the result is applied. -/
def appliedDelete : List (Act Nat) :=
  [.receive (0, 0) [⟨9, [1, 2]⟩], .next 0, .next 0, .compacted 0 3, .decide 0 false, .next 1, .add 1 6,
    .next 1, .apply 1]

theorem wellFormed_deletedContents (p : PivotId Nat) (branch : Nat) :
    WellFormed (deletedContents p branch) := by
  unfold deletedContents
  split <;> exact ⟨by decide, by decide⟩

def writes (cfg : DataConfig Nat) (c : Contents Nat) (s : TrunkState Nat) (a : Act Nat) : Bool :=
  match completed s a with
  | none => true
  | some (st, bc, outputBranch) =>
      match (compactionMerge cfg (c st.pivot) st.pivot.1 st.ubkey bc).run with
      | some (.ok tuples) => outputBranch != 0 && tuples == (c st.pivot outputBranch).map some
      | _ => false

theorem writes_sound {cfg : DataConfig Nat} {c : Contents Nat} {s : TrunkState Nat} {a : Act Nat}
    {st : PivotState Nat} {bc : BundleCompaction} {outputBranch : Nat}
    (hdone : completed s a = some (st, bc, outputBranch)) (h : writes cfg c s a = true) :
    outputBranch ≠ 0 ∧ compactionMerge cfg (c st.pivot) st.pivot.1 st.ubkey bc =
      pure ((c st.pivot outputBranch).map some) := by
  rw [writes, hdone] at h
  dsimp only at h
  split at h
  · rename_i tuples hmerge
    obtain ⟨hne, heq⟩ := Bool.and_eq_true_iff.mp h
    refine ⟨by simpa using hne, ?_⟩
    rw [← beq_iff_eq.mp heq]
    exact hmerge
  · cases h

/-- The delete and what it deletes are gone, and the other key is kept. -/
theorem drops_deleted_key : ∃ tr r,
    (storeSystem appendConfig 0 100).Run (newTrunk 0 100, deletedContents) tr r ∧
      Visits FullOnLeaves tr r ∧ Guarded (StepSafe appendConfig) tr ∧
      (r.1.pivot (0, 0)).map Pivot.held = some [3] := by
  have hend : (exec trunkNext (newTrunk 0 100) appliedDelete).map
      (fun r => r.1.all (fun step => writes appendConfig deletedContents step.1 step.2) &&
        (r.2.pivot (0, 0)).map Pivot.held == some [3]) = some true := by decide +kernel
  obtain ⟨r, hexec, hr⟩ := Option.map_eq_some_iff.mp hend
  rw [Bool.and_eq_true, List.all_eq_true, beq_iff_eq] at hr
  have hsteps : ∀ step ∈ r.1,
      ContentStep appendConfig step.1 deletedContents step.2 deletedContents := by
    refine fun step hstep => ⟨fun _ _ _ => rfl,
      fun p _ _ branch _ => wellFormed_deletedContents p branch, fun st bc outputBranch hdone => ?_⟩
    obtain ⟨hne, hmerge⟩ := writes_sound hdone (hr.1 step hstep)
    exact ⟨_, hmerge, by rw [if_neg hne]⟩
  have hbare : (compactionSystem 0 100).Run (newTrunk 0 100) r.1 r.2 := run_of_exec hexec
  have hrun := storeRun_of_run hbare hsteps
  obtain ⟨hfull, hsafe⟩ := drops_safely mergeAssoc_append hrun
  exact ⟨_, _, hrun, hfull, hsafe, hr.2⟩

end Trunk
end TreePass
