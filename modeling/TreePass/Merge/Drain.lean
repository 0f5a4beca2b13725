import TreePass.Merge.Spec

/-!
# Draining a merge iterator

The simulation between the iterator and the list of tuples its queue represents: resolving equal
keys consumes one group, advancing moves to the next emission, setting up sorts the inputs.  From
these one-step facts `mergeDrain_eq` follows: draining in one direction yields the
specification, and a raw merge yields every tuple of every input exactly once in key order.
-/

namespace TreePass
namespace Merge

open Lib

variable {K : Type} [LinearOrder K] (cfg : DataConfig K)

@[simp] theorem callback_some {α : Type} (a : α) : callback (some a) = (pure a : Result α) := rfl

@[simp] theorem callback_none {α : Type} :
    callback (none : Option α) = (throw PlatformStatus.noMemory : Result α) := rfl

@[simp] theorem throw_bind_result {α β : Type} (e : PlatformStatus) (f : α → Result β) :
    (throw e : Result α) >>= f = throw e := rfl

/-! ## Resolving equal keys -/

theorem headNextKeyEqual_iff {it : MergeIterator K} {t : Tagged K} {L : List (Tagged K)}
    (hrep : Represents it.forwards it.live (t :: L)) :
    it.headNextKeyEqual = true ↔ ∃ x rest, L = x :: rest ∧ x.key = t.key := by
  cases hlive : it.live with
  | nil => cases (represents_nil_iff hrep).mp hlive
  | cons o others =>
      rw [hlive] at hrep
      obtain ⟨L', hL⟩ := head_represents hrep
      obtain ⟨rfl, rfl⟩ := List.cons.inj hL
      rw [MergeIterator.headNextKeyEqual, hlive]
      exact head_flag_represents hrep

theorem exists_second {it : MergeIterator K} {t x : Tagged K} {L : List (Tagged K)}
    (hrep : Represents it.forwards it.live (t :: x :: L)) (hkey : x.key = t.key) :
    ∃ first second others, it.live = first :: second :: others ∧ second.tag = x := by
  cases hlive : it.live with
  | nil => cases (represents_nil_iff hrep).mp hlive
  | cons o others =>
      rw [hlive] at hrep
      obtain ⟨L', hL⟩ := head_represents hrep
      obtain ⟨rfl, rfl⟩ := List.cons.inj hL
      obtain ⟨second, others', rfl, -⟩ := second_le hrep (by simp) hkey
      exact ⟨o, second, others', rfl, second_eq hrep hkey⟩

theorem restOfGroup_cons {k : K} {x : Tagged K} {L : List (Tagged K)} (h : x.key = k) :
    restOfGroup k (x :: L) = x :: restOfGroup k L :=
  List.takeWhile_cons_of_pos (by simpa using h)

theorem nextGroup_cons {k : K} {x : Tagged K} {L : List (Tagged K)} (h : x.key = k) :
    nextGroup k (x :: L) = nextGroup k L :=
  List.dropWhile_cons_of_pos (by simpa using h)

theorem group_end {k : K} {L : List (Tagged K)} (h : ¬ ∃ x rest, L = x :: rest ∧ x.key = k) :
    restOfGroup k L = [] ∧ nextGroup k L = L := by
  cases L with
  | nil => exact ⟨rfl, rfl⟩
  | cons x rest =>
      have hx : x.key ≠ k := fun hk => h ⟨x, rest, rfl, hk⟩
      exact ⟨List.takeWhile_cons_of_neg (by simpa using hx),
        List.dropWhile_cons_of_neg (by simpa using hx)⟩

/-- **One group.**  From a queue whose first two keys are equal, the resolve loop folds the rest
of the group under the accumulated message and stops at the last tuple of the group. -/
theorem mergeResolveEqualKeys_spec (fuel : Nat) :
    ∀ (it : MergeIterator K) (t : Tagged K) (L : List (Tagged K)) (acc : Message),
      Represents it.forwards it.live (t :: L) → it.headNextKeyEqual = true → L.length ≤ fuel →
      ∃ it' last, Frame it it' ∧ Represents it'.forwards it'.live (last :: nextGroup t.key L) ∧
        mergeResolveEqualKeys cfg fuel it ⟨t.key, acc⟩ =
          callback ((cfg.foldUnder t.key acc ((restOfGroup t.key L).map (·.msg))).map
            fun m => (it', (⟨t.key, m⟩ : Tuple K))) := by
  induction fuel with
  | zero =>
      intro it t L acc hrep hflag hfuel
      obtain ⟨x, rest, rfl, -⟩ := (headNextKeyEqual_iff hrep).mp hflag
      simp at hfuel
  | succ fuel ih =>
      intro it t L acc hrep hflag hfuel
      obtain ⟨x, rest, rfl, hkey⟩ := (headNextKeyEqual_iff hrep).mp hflag
      obtain ⟨first, second, others, hlive, rfl⟩ := exists_second hrep hkey
      have hadvance := advance_represents hrep
      have hforwards := (advance_frame it).forwards
      rw [← hforwards] at hadvance
      have hsecond : second.currKey = t.key := hkey
      rw [restOfGroup_cons hkey, nextGroup_cons hkey, List.map_cons, DataConfig.foldUnder_cons]
      by_cases hmore : (advanceAndResortMinRitor it).headNextKeyEqual = true
      · have hlen : rest.length ≤ fuel := by
          simp only [List.length_cons] at hfuel
          omega
        have hnext := fun buffer => ih (advanceAndResortMinRitor it) second.tag rest buffer hadvance
          hmore hlen
        change second.tag.key = t.key at hkey
        rw [hkey] at hnext
        cases hmerge : cfg.dataMergeTuples t.key second.tag.msg acc with
        | none =>
            obtain ⟨it', last, hframe, hrep', -⟩ := hnext acc
            refine ⟨it', last, (advance_frame it).trans hframe, hrep', ?_⟩
            have hmerge' : cfg.dataMergeTuples t.key second.currData acc = none := hmerge
            simp only [mergeResolveEqualKeys, hlive, hmerge', callback_none, throw_bind_result,
              Option.bind_none, Option.map_none]
        | some buffer =>
            obtain ⟨it', last, hframe, hrep', hresult⟩ := hnext buffer
            refine ⟨it', last, (advance_frame it).trans hframe, hrep', ?_⟩
            have hmerge' : cfg.dataMergeTuples t.key second.currData acc = some buffer := hmerge
            simp only [mergeResolveEqualKeys, hlive, hmerge', callback_some, pure_bind, hmore,
              if_true, hsecond, Option.bind_some]
            exact hresult
      · have hend : ¬ ∃ x rest', rest = x :: rest' ∧ x.key = t.key := by
          rw [← hkey]
          exact fun h => hmore ((headNextKeyEqual_iff hadvance).mpr h)
        obtain ⟨hgroup, hrest⟩ := group_end hend
        refine ⟨advanceAndResortMinRitor it, second.tag, advance_frame it, ?_, ?_⟩
        · rw [hrest]
          exact hadvance
        · have hmessage : second.tag.msg = second.currData := rfl
          simp only [mergeResolveEqualKeys, hlive, hgroup, List.map_nil, hmessage, hsecond]
          cases cfg.dataMergeTuples t.key second.currData acc with
          | none => rfl
          | some buffer => simp [hmore]

/-! ## One emission -/

/-- The flags of a merge iterator are those of its mode. -/
structure HasMode (it : MergeIterator K) (mode : MergeBehavior) : Prop where
  mergeMessages : it.mergeMessages = decide (mode ≠ .raw)
  finalizeUpdates : it.finalizeUpdates = decide (mode = .full)
  emitDeletes : it.emitDeletes = decide (mode ≠ .full)

omit [LinearOrder K] in
theorem HasMode.of_frame {it it' : MergeIterator K} {mode : MergeBehavior} (h : HasMode it mode)
    (hframe : Frame it it') : HasMode it' mode :=
  ⟨hframe.mergeMessages.trans h.mergeMessages, hframe.finalizeUpdates.trans h.finalizeUpdates,
    hframe.emitDeletes.trans h.emitDeletes⟩

/-- The message of the first emission: in raw mode the first tuple's own. -/
def groupMessage (mode : MergeBehavior) (t : Tagged K) (L : List (Tagged K)) : Option Message :=
  if mode = .raw then some t.msg
  else mergedMessage cfg (decide (mode = .full)) t.key
    (t.msg :: (restOfGroup t.key L).map (·.msg))

def groupRest (mode : MergeBehavior) (t : Tagged K) (L : List (Tagged K)) : List (Tagged K) :=
  if mode = .raw then L else nextGroup t.key L

/-- What a drain in a mode emits along the sorted list of the remaining tuples. -/
def modeEmissions (mode : MergeBehavior) (L : List (Tagged K)) : Option (List (Tuple K)) :=
  if mode = .raw then some (L.map (·.toTuple)) else emissions cfg (decide (mode = .full)) L

theorem groupRest_length_le (mode : MergeBehavior) (t : Tagged K) (L : List (Tagged K)) :
    (groupRest mode t L).length ≤ L.length := by
  rw [groupRest]
  split
  · exact Nat.le_refl _
  · exact nextGroup_length_le _ _

theorem modeEmissions_nil (mode : MergeBehavior) : modeEmissions cfg mode ([] : List (Tagged K)) =
    some [] := by
  rw [modeEmissions, emissions]
  split <;> rfl

theorem modeEmissions_cons (mode : MergeBehavior) (t : Tagged K) (L : List (Tagged K)) :
    modeEmissions cfg mode (t :: L) =
      (groupMessage cfg mode t L).bind fun m =>
        (modeEmissions cfg mode (groupRest mode t L)).map fun rest =>
          if isDropped (decide (mode = .full)) m then rest else ⟨t.key, m⟩ :: rest := by
  cases mode with
  | raw => simp [modeEmissions, groupMessage, groupRest, isDropped]
  | intermediate => simp [modeEmissions, groupMessage, groupRest, emissions]
  | full => simp [modeEmissions, groupMessage, groupRest, emissions]

omit [LinearOrder K] in
theorem mergeFinalize_spec {it : MergeIterator K} {mode : MergeBehavior} (hmode : HasMode it mode)
    (k : K) (m : Message) :
    mergeFinalizeUpdatesAndDiscardDeletes cfg it ⟨k, m⟩ =
      callback ((if m.type ≠ .insert ∧ decide (mode = .full) = true then
          cfg.dataMergeTuplesFinal k m else some m).map
        fun m => ((⟨k, m⟩ : Tuple K), isDropped (decide (mode = .full)) m)) := by
  have hemit : ∀ m : Message, (m.type == .delete && !it.emitDeletes) =
      isDropped (decide (mode = .full)) m := by
    intro m
    rw [hmode.emitDeletes, isDropped]
    congr 1
    by_cases h : mode = .full <;> simp [h]
  rw [mergeFinalizeUpdatesAndDiscardDeletes, hmode.finalizeUpdates]
  simp only [hemit]
  split
  · cases cfg.dataMergeTuplesFinal k m <;> rfl
  · rfl

/-- **One emission.**  On a nonempty queue `advance_one_loop` computes the first emission and
leaves the queue on the last tuple of its group. -/
theorem advanceOneLoop_cons {mode : MergeBehavior} {fuel : Nat} {it : MergeIterator K} {t : Tagged K}
    {L : List (Tagged K)} (hrep : Represents it.forwards it.live (t :: L)) (hmode : HasMode it mode)
    (hfuel : L.length ≤ fuel) :
    ∃ it' last, Frame it it' ∧
      Represents it'.forwards it'.live (last :: groupRest mode t L) ∧
      advanceOneLoop cfg fuel it = callback ((groupMessage cfg mode t L).map fun m =>
        (it'.withCurr (some ⟨t.key, m⟩), isDropped (decide (mode = .full)) m)) := by
  cases hlive : it.live with
  | nil => cases (represents_nil_iff hrep).mp hlive
  | cons o others =>
      have hrep' := hrep
      rw [hlive] at hrep'
      obtain ⟨L', hL⟩ := head_represents hrep'
      obtain ⟨rfl, rfl⟩ := List.cons.inj hL
      let start : MergeIterator K := it.withCurr (some o.currTuple)
      have hmodeStart : HasMode start mode := ⟨hmode.1, hmode.2, hmode.3⟩
      have hframeStart : Frame it start := ⟨rfl, rfl, rfl, rfl, rfl, rfl⟩
      have hmessages : start.mergeMessages = decide (mode ≠ .raw) := hmode.mergeMessages
      rw [advanceOneLoop, hlive]
      simp only
      rw [hmessages]
      by_cases hraw : mode = .raw
      · subst hraw
        refine ⟨it, o.tag, Frame.refl it, hrep, ?_⟩
        simp only [groupMessage, isDropped, if_true, Option.map_some, callback_some, reduceCtorEq,
          decide_false, Bool.and_false]
        rfl
      · have hgroupRest : groupRest mode o.tag L = nextGroup o.currKey L := by
          rw [groupRest, if_neg hraw]
          rfl
        have hgroupMessage : groupMessage cfg mode o.tag L =
            (cfg.foldUnder o.currKey o.currData ((restOfGroup o.currKey L).map (·.msg))).bind fun m =>
              if m.type ≠ .insert ∧ decide (mode = .full) = true then
                cfg.dataMergeTuplesFinal o.currKey m else some m := by
          rw [groupMessage, if_neg hraw]
          rfl
        rw [hgroupRest, hgroupMessage]
        simp only [ne_eq, hraw, not_false_eq_true, decide_true, Bool.not_true, Bool.false_eq_true,
          if_false]
        by_cases hflag : o.nextKeyEqual = true
        · -- The next tuple has the same key: resolve the group first.
          have hhead : start.headNextKeyEqual = true := by
            change it.headNextKeyEqual = true
            rw [MergeIterator.headNextKeyEqual, hlive]
            exact hflag
          obtain ⟨it', last, hframe, hrepLast, hresult⟩ :=
            mergeResolveEqualKeys_spec cfg fuel start o.tag L o.currData hrep hhead hfuel
          refine ⟨it', last, hframeStart.trans hframe, hrepLast, ?_⟩
          have hresult' : mergeResolveEqualKeys cfg fuel start o.currTuple = _ := hresult
          have hmode' := hmodeStart.of_frame hframe
          rw [if_pos hflag, hresult']
          change _ = callback (Option.map _ ((cfg.foldUnder o.tag.key o.currData
            ((restOfGroup o.tag.key L).map (·.msg))).bind _))
          cases cfg.foldUnder o.tag.key o.currData ((restOfGroup o.tag.key L).map (·.msg)) with
          | none => rfl
          | some m =>
              simp only [Option.map_some, callback_some, pure_bind, Option.bind_some]
              rw [mergeFinalize_spec cfg hmode']
              change _ = callback (Option.map _ (if m.type ≠ .insert ∧ _ then
                cfg.dataMergeTuplesFinal o.tag.key m else some m))
              cases (if m.type ≠ .insert ∧ decide (mode = .full) = true then
                cfg.dataMergeTuplesFinal o.tag.key m else some m) <;> rfl
        · have hend : ¬ ∃ x rest, L = x :: rest ∧ x.key = o.currKey := fun h =>
            hflag ((head_flag_represents hrep').mpr h)
          obtain ⟨hgroup, hrest⟩ := group_end hend
          refine ⟨start, o.tag, hframeStart, ?_, ?_⟩
          · rw [hrest]
            exact hrep
          · rw [if_neg hflag, hgroup]
            simp only [List.map_nil, DataConfig.foldUnder_nil, Option.bind_some, pure_bind]
            change mergeFinalizeUpdatesAndDiscardDeletes cfg start ⟨o.currKey, o.currData⟩ >>= _ = _
            rw [mergeFinalize_spec cfg hmodeStart]
            cases (if o.currData.type ≠ .insert ∧ decide (mode = .full) = true then
              cfg.dataMergeTuplesFinal o.currKey o.currData else some o.currData) <;> rfl

/-! ## The run of a drain -/

theorem advanceOneLoop_nil (fuel : Nat) {it : MergeIterator K} (hlive : it.live = []) :
    ∃ it', advanceOneLoop cfg fuel it = pure (it', false) ∧ it'.canCurr = false := by
  rw [advanceOneLoop, hlive]
  cases it.forwards with
  | true => exact ⟨_, rfl, Bool.false_and _⟩
  | false => exact ⟨_, rfl, Bool.and_false _⟩

/-- Where a drain stands between two calls: out of range with nothing left to yield, or on a
current tuple, with fewer than `n` more tuples behind the one its group ended with. -/
inductive Positioned (mode : MergeBehavior) (forwards : Bool) (n : Nat) (it : MergeIterator K) :
    Option (List (Tuple K)) → Prop
  | done : it.canCurr = false → Positioned mode forwards n it (some [])
  | at {last : Tagged K} {R : List (Tagged K)} {x : Tuple K} :
      Represents it.forwards it.live (last :: R) → HasMode it mode → it.forwards = forwards →
      it.canCurr = true → it.curr = some x → R.length < n →
      Positioned mode forwards n it ((modeEmissions cfg mode R).map (x :: ·))

theorem Positioned.mono {mode : MergeBehavior} {forwards : Bool} {n m : Nat} {it : MergeIterator K}
    {out : Option (List (Tuple K))} (h : Positioned cfg mode forwards n it out) (hle : n ≤ m) :
    Positioned cfg mode forwards m it out := by
  cases h with
  | done hdone => exact Positioned.done hdone
  | «at» h₁ h₂ h₃ h₄ h₅ h₆ => exact Positioned.at h₁ h₂ h₃ h₄ h₅ (by omega)

/-- A computation that fails when the emissions do, and else reaches a state positioned on
them. -/
def Settles (mode : MergeBehavior) (forwards : Bool) (n : Nat) (run : Result (MergeIterator K))
    (out : Option (List (Tuple K))) : Prop :=
  (run = throw .noMemory ∧ out = none) ∨
    ∃ it, run = pure it ∧ Positioned cfg mode forwards n it out

/-- `advance_one_loop` with the retry both its callers make. -/
def advanceWithRetry (fuel : Nat) (it : MergeIterator K) : Result (MergeIterator K) := do
  let (it, retry) ← advanceOneLoop cfg fuel it
  if retry then mergeAdvanceHelper cfg fuel it else pure it

theorem mergeAdvanceHelper_succ (fuel : Nat) (it : MergeIterator K) :
    mergeAdvanceHelper cfg (fuel + 1) it =
      advanceWithRetry cfg fuel (advanceAndResortMinRitor (it.withCurr none)) := rfl

/-- **Skipping deletes.**  Whatever is dropped on the way, advancing with retries settles on the
emissions of the queue. -/
theorem advanceWithRetry_settles {mode : MergeBehavior} {forwards : Bool} (n : Nat) :
    ∀ (fuel : Nat) (it : MergeIterator K) (L : List (Tagged K)),
      Represents it.forwards it.live L → HasMode it mode → it.forwards = forwards →
      (L ≠ [] → it.canCurr = true) → L.length ≤ n → n ≤ fuel →
      Settles cfg mode forwards n (advanceWithRetry cfg fuel it) (modeEmissions cfg mode L) := by
  induction n with
  | zero =>
      intro fuel it L hrep _ _ _ hlen _
      obtain rfl := List.length_eq_zero_iff.mp (Nat.le_zero.mp hlen)
      obtain ⟨it', hloop, hdone⟩ :=
        advanceOneLoop_nil cfg fuel ((represents_nil_iff hrep).mpr rfl)
      refine Or.inr ⟨it', ?_, modeEmissions_nil cfg mode ▸ Positioned.done hdone⟩
      simp [advanceWithRetry, hloop]
  | succ n ih =>
      intro fuel it L hrep hmode hforwards hcan hlen hfuel
      cases L with
      | nil =>
          obtain ⟨it', hloop, hdone⟩ :=
            advanceOneLoop_nil cfg fuel ((represents_nil_iff hrep).mpr rfl)
          refine Or.inr ⟨it', ?_, modeEmissions_nil cfg mode ▸ Positioned.done hdone⟩
          simp [advanceWithRetry, hloop]
      | cons t L =>
          have hlenL : L.length ≤ n := by simpa using hlen
          obtain ⟨it', last, hframe, hrepLast, hloop⟩ :=
            advanceOneLoop_cons cfg hrep hmode (le_trans hlenL (by omega : n ≤ fuel))
          have hrest : (groupRest mode t L).length ≤ n :=
            le_trans (groupRest_length_le mode t L) hlenL
          have hcan' : it'.canCurr = true := by
            rw [MergeIterator.canCurr, hframe.canNext, hframe.canPrev]
            exact hcan (by simp)
          have hforwards' := hframe.forwards.trans hforwards
          have hmode' := hmode.of_frame hframe
          rw [advanceWithRetry, hloop, modeEmissions_cons]
          cases groupMessage cfg mode t L with
          | none => exact Or.inl ⟨rfl, rfl⟩
          | some m =>
              simp only [Option.map_some, callback_some, pure_bind, Option.bind_some]
              cases hdrop : isDropped (decide (mode = .full)) m with
              | false =>
                  refine Or.inr ⟨it'.withCurr (some ⟨t.key, m⟩), rfl, ?_⟩
                  simp only [Bool.false_eq_true, if_false]
                  exact Positioned.at hrepLast ⟨hmode'.1, hmode'.2, hmode'.3⟩ hforwards' hcan' rfl
                    (Nat.lt_succ_of_le hrest)
              | true =>
                  -- The tuple is dropped: advance past its group and try again.
                  simp only [if_true, Option.map_id']
                  obtain ⟨fuel, rfl⟩ : ∃ f, fuel = f + 1 := ⟨fuel - 1, by omega⟩
                  rw [mergeAdvanceHelper_succ]
                  let start := (it'.withCurr (some ⟨t.key, m⟩)).withCurr none
                  have hstart : Represents start.forwards start.live
                      (last :: groupRest mode t L) := hrepLast
                  have hadvance := advance_represents hstart
                  have hframe' := advance_frame start
                  rw [← hframe'.forwards] at hadvance
                  have hmodeStart : HasMode start mode := ⟨hmode'.1, hmode'.2, hmode'.3⟩
                  have hcanNext : (advanceAndResortMinRitor start).canCurr = true := by
                    rw [MergeIterator.canCurr, hframe'.canNext, hframe'.canPrev]
                    exact hcan'
                  rcases ih fuel (advanceAndResortMinRitor start) (groupRest mode t L) hadvance
                    (hmodeStart.of_frame hframe') (hframe'.forwards.trans hforwards')
                    (fun _ => hcanNext) hrest (by omega) with ⟨hfail, hnone⟩ | ⟨it'', hrun, hpos⟩
                  · exact Or.inl ⟨hfail, hnone⟩
                  · exact Or.inr ⟨it'', hrun, hpos.mono cfg (Nat.le_succ n)⟩

theorem mergeStep_eq_helper {fuel : Nat} {it : MergeIterator K} {forwards : Bool}
    (h : it.forwards = forwards) :
    mergeStep cfg forwards fuel it = mergeAdvanceHelper cfg fuel it := by
  cases forwards with
  | true => simp [mergeStep, mergeNext, h]
  | false => simp [mergeStep, mergePrev, h]

/-- **The run of a drain.**  From a positioned iterator the drain yields what it is positioned
on. -/
theorem drainLoop_eq {mode : MergeBehavior} {forwards : Bool} (fuel : Nat) :
    ∀ (n : Nat) (it : MergeIterator K) (out : Option (List (Tuple K))),
      Positioned cfg mode forwards n it out → n < fuel →
      drainLoop cfg forwards fuel it = callback (out.map fun l => l.map some) := by
  induction fuel with
  | zero => intro n it out _ hlt; omega
  | succ fuel ih =>
      intro n it out hpos hlt
      cases hpos with
      | done hdone => simp [drainLoop, hdone]
      | «at» hrep hmode hforwards hcan hcurr hlen =>
          rename_i last R x
          have hstart : Represents (it.withCurr none).forwards (it.withCurr none).live (last :: R) :=
            hrep
          have hadvance := advance_represents hstart
          have hframe := advance_frame (it.withCurr none)
          rw [← hframe.forwards] at hadvance
          have hmode' : HasMode (it.withCurr none) mode := ⟨hmode.1, hmode.2, hmode.3⟩
          have hcan' : (advanceAndResortMinRitor (it.withCurr none)).canCurr = true := by
            rw [MergeIterator.canCurr, hframe.canNext, hframe.canPrev]
            exact hcan
          obtain ⟨fuel, rfl⟩ : ∃ f, fuel = f + 1 := ⟨fuel - 1, by omega⟩
          have hsettles := advanceWithRetry_settles cfg R.length fuel
            (advanceAndResortMinRitor (it.withCurr none)) R hadvance (hmode'.of_frame hframe)
            (hframe.forwards.trans hforwards) (fun _ => hcan') (le_refl _) (by omega)
          rw [drainLoop, if_pos hcan, mergeStep_eq_helper cfg hforwards, mergeAdvanceHelper_succ, hcurr]
          rcases hsettles with ⟨hfail, hnone⟩ | ⟨it', hrun, hnext⟩
          · rw [hfail, hnone]
            rfl
          · rw [hrun, pure_bind, ih _ it' _ hnext (by omega)]
            cases modeEmissions cfg mode R <;> rfl

/-! ## Setting up -/

omit [LinearOrder K] in
theorem killDead_perm (fuel : Nat) :
    ∀ array : List (InputIterator K), array.length ≤ fuel →
      (killDead fuel array).1.Perm
        (array.filterMap fun i => i.itor.curr.map (setCurrOrderedIterator i)) := by
  induction fuel with
  | zero =>
      intro array hlen
      obtain rfl := List.length_eq_zero_iff.mp (Nat.le_zero.mp hlen)
      exact List.Perm.nil
  | succ fuel ih =>
      intro array hlen
      cases array with
      | nil => exact List.Perm.nil
      | cons i rest =>
          have hlen' : rest.length ≤ fuel := by simpa using hlen
          rw [killDead]
          cases hcurr : i.itor.curr with
          | some t =>
              simp only [List.filterMap_cons, hcurr, Option.map_some]
              exact (ih rest hlen').cons _
          | none =>
              simp only [List.filterMap_cons, hcurr, Option.map_none]
              cases hlast : rest.getLast? with
              | none =>
                  obtain rfl := List.getLast?_eq_none_iff.mp hlast
                  simpa using ih [] (Nat.zero_le _)
              | some last =>
                  obtain ⟨front, rfl⟩ := List.getLast?_eq_some_iff.mp hlast
                  have hswap : (last :: (front ++ [last]).dropLast).Perm (front ++ [last]) := by
                    rw [List.dropLast_concat]
                    exact (List.perm_append_singleton last front).symm
                  refine (ih _ ?_).trans (hswap.filterMap _)
                  simpa using hlen'

theorem map_unflagged_initNextKeyEqual :
    ∀ l : List (OrderedIterator K),
      (initNextKeyEqual l).map OrderedIterator.unflagged = l.map OrderedIterator.unflagged
  | [] => rfl
  | [_] => rfl
  | o :: second :: rest => by
      rw [initNextKeyEqual, List.map_cons, map_unflagged_initNextKeyEqual (second :: rest)]
      rfl

theorem headKeyIs_initNextKeyEqual (k : K) (l : List (OrderedIterator K)) :
    headKeyIs k (initNextKeyEqual l) = headKeyIs k l := by
  rcases l with _ | ⟨o, _ | ⟨second, rest⟩⟩ <;> rfl

theorem flagsExact_initNextKeyEqual :
    ∀ l : List (OrderedIterator K), (∀ o, l.getLast? = some o → o.nextKeyEqual = false) →
      FlagsExact (initNextKeyEqual l)
  | [], _ => trivial
  | [o], h => ⟨h o rfl, trivial⟩
  | o :: second :: rest, h => by
      have hrest := flagsExact_initNextKeyEqual (second :: rest) (by simpa using h)
      refine ⟨?_, hrest⟩
      rw [headKeyIs_initNextKeyEqual]
      change (compare o.currKey second.currKey == .eq) = (second.currKey == o.currKey)
      rw [Bool.eq_iff_iff, beq_iff_eq, beq_iff_eq, compare_eq_iff_eq]
      exact eq_comm

theorem mergeComp_ne_gt_iff {forwards : Bool} (a b : OrderedIterator K) :
    mergeComp forwards a b ≠ .gt ↔ ¬ tagBefore forwards b.tag a.tag :=
  not_congr (bsearchComp_gt_iff a b forwards)

instance (forwards : Bool) :
    Std.Total fun a b : OrderedIterator K => mergeComp forwards a b ≠ .gt :=
  ⟨fun a b => by
    rw [mergeComp_ne_gt_iff, mergeComp_ne_gt_iff]
    by_cases h : tagBefore forwards b.tag a.tag
    · exact Or.inr (tagBefore_asymm h)
    · exact Or.inl h⟩

instance (forwards : Bool) :
    IsTrans (OrderedIterator K) fun a b => mergeComp forwards a b ≠ .gt :=
  ⟨fun a b c hab hbc => (mergeComp_ne_gt_iff a c).mpr
    (not_tagBefore_trans ((mergeComp_ne_gt_iff a b).mp hab) ((mergeComp_ne_gt_iff b c).mp hbc))⟩

def aliveIn (array : List (InputIterator K)) : List (OrderedIterator K) :=
  array.filterMap fun i => i.itor.curr.map (setCurrOrderedIterator i)

omit [LinearOrder K] in
theorem mem_aliveIn {array : List (InputIterator K)} {o : OrderedIterator K} :
    o ∈ aliveIn array ↔ ∃ i ∈ array, ∃ t, i.itor.curr = some t ∧ o = setCurrOrderedIterator i t := by
  rw [aliveIn, List.mem_filterMap]
  constructor
  · rintro ⟨i, hi, ho⟩
    obtain ⟨t, ht, rfl⟩ := Option.map_eq_some_iff.mp ho
    exact ⟨i, hi, t, ht, rfl⟩
  · rintro ⟨i, hi, t, ht, rfl⟩
    exact ⟨i, hi, by rw [ht]; rfl⟩

omit [LinearOrder K] in
theorem allPending_aliveIn (forwards : Bool) (array : List (InputIterator K)) :
    allPending forwards (aliveIn array) = inputPending forwards array := by
  induction array with
  | nil => rfl
  | cons i array ih =>
      rw [inputPending, List.flatMap_cons, ← inputPending, ← ih, aliveIn, List.filterMap_cons]
      cases hcurr : i.itor.curr with
      | none =>
          rw [pending_eq_nil hcurr]
          rfl
      | some t => rfl

/-- **Setting up sorts.**  From inputs that are sorted, differently numbered and have their flags
cleared, the setup builds a queue of all their remaining tuples. -/
theorem setup_represents (forwards : Bool) {array : List (InputIterator K)}
    (hseqs : array.Pairwise fun a b => a.seq ≠ b.seq)
    (hordered : ∀ i ∈ array, i.itor.items.Pairwise fun a b => a.key < b.key)
    (hflags : ∀ i ∈ array, i.nextKeyEqual = false) :
    Represents forwards
      (initNextKeyEqual ((killDead array.length array).1.insertionSort
        fun one two => mergeComp forwards one two ≠ .gt))
      (sortTagged forwards (inputPending forwards array)) := by
  let live := (killDead array.length array).1
  let sorted := live.insertionSort fun one two => mergeComp forwards one two ≠ .gt
  have hperm : sorted.Perm (aliveIn array) :=
    (List.perm_insertionSort _ _).trans (killDead_perm array.length array (Nat.le_refl _))
  have halive : (aliveIn array).Pairwise fun a b => a.seq ≠ b.seq := by
    rw [aliveIn, List.pairwise_filterMap]
    refine hseqs.imp ?_
    intro a b hab x hx y hy
    obtain ⟨t, -, rfl⟩ := Option.map_eq_some_iff.mp hx
    obtain ⟨u, -, rfl⟩ := Option.map_eq_some_iff.mp hy
    exact hab
  have hsortedSeqs : sorted.Pairwise fun a b => a.seq ≠ b.seq :=
    (hperm.pairwise_iff fun h => Ne.symm h).mpr halive
  have hweak : sorted.Pairwise fun a b => mergeComp forwards a b ≠ .gt :=
    List.pairwise_insertionSort _ _
  have hinv : QueueInv forwards sorted := by
    refine ⟨?_, hsortedSeqs, ?_, ?_⟩
    · refine (hweak.and hsortedSeqs).imp ?_
      rintro a b ⟨hab, hseq⟩
      have htotal : tagBefore forwards a.tag b.tag ∨ tagBefore forwards b.tag a.tag :=
        tagBefore_total hseq
      exact htotal.resolve_right ((mergeComp_ne_gt_iff a b).mp hab)
    · intro o ho
      obtain ⟨i, hi, t, ht, rfl⟩ := mem_aliveIn.mp (hperm.mem_iff.mp ho)
      exact ht
    · intro o ho
      obtain ⟨i, hi, t, ht, rfl⟩ := mem_aliveIn.mp (hperm.mem_iff.mp ho)
      exact hordered i hi
  have hexact : FlagsExact (initNextKeyEqual sorted) := by
    apply flagsExact_initNextKeyEqual
    intro o ho
    obtain ⟨i, hi, t, ht, rfl⟩ :=
      mem_aliveIn.mp (hperm.mem_iff.mp (List.mem_of_getLast? ho))
    exact hflags i hi
  have hunflagged := map_unflagged_initNextKeyEqual sorted
  refine ⟨queueInv_congr hunflagged hinv, hexact,
    sortTagged_sorted (inputPending_comparable hseqs hordered), ?_⟩
  rw [allPending_congr hunflagged]
  refine (sortTagged_perm _).trans ?_
  rw [← allPending_aliveIn]
  exact (hperm.flatMap_right _).symm

omit [LinearOrder K] in
theorem any_canCurr {forwards : Bool} {array : List (InputIterator K)}
    (h : inputPending forwards array ≠ []) :
    array.any (·.itor.canNext) = true ∧ array.any (·.itor.canPrev) = true := by
  obtain ⟨x, hx⟩ := List.exists_mem_of_ne_nil _ h
  obtain ⟨i, hi, hxi⟩ := List.mem_flatMap.mp hx
  have hcurr : i.itor.curr.isSome = true := by
    cases hcase : i.itor.curr with
    | none =>
        rw [pending_eq_nil hcase] at hxi
        cases hxi
    | some t => rfl
  obtain ⟨hnext, hprev⟩ := Bool.and_eq_true _ _ ▸ Cursor.canCurr_iff.mpr hcurr
  exact ⟨List.any_eq_true.mpr ⟨i, hi, hnext⟩, List.any_eq_true.mpr ⟨i, hi, hprev⟩⟩

theorem mergeIteratorCreate_settles (mode : MergeBehavior) (forwards : Bool) (fuel : Nat)
    {inputs : List (Cursor (Tuple K))} (harity : inputs.length < maxMergeArity)
    (hordered : ∀ c ∈ inputs, c.items.Pairwise fun a b => a.key < b.key)
    (hfuel : (inputPending forwards (inputArray inputs)).length ≤ fuel) :
    Settles cfg mode forwards (inputPending forwards (inputArray inputs)).length
      (mergeIteratorCreate cfg fuel inputs mode forwards)
      (modeEmissions cfg mode
        (sortTagged forwards (inputPending forwards (inputArray inputs)))) := by
  have hordered' : ∀ i ∈ inputArray inputs, i.itor.items.Pairwise fun a b => a.key < b.key := by
    intro i hi
    obtain ⟨seq, c, hget, rfl⟩ := mem_inputArray.mp hi
    exact hordered c (List.mem_of_getElem? hget)
  have hflags : ∀ i ∈ inputArray inputs, i.nextKeyEqual = false := by
    intro i hi
    obtain ⟨seq, c, -, rfl⟩ := mem_inputArray.mp hi
    rfl
  have hrep := setup_represents forwards inputArray_seqs hordered' hflags
  have hlen : (sortTagged forwards (inputPending forwards (inputArray inputs))).length =
      (inputPending forwards (inputArray inputs)).length := (sortTagged_perm _).length_eq
  rw [mergeIteratorCreate, if_neg (by omega)]
  change Settles cfg mode forwards _ (advanceWithRetry cfg fuel _) _
  refine advanceWithRetry_settles cfg _ fuel _ _ hrep ⟨rfl, rfl, rfl⟩ rfl ?_ (le_of_eq hlen) hfuel
  intro hne
  have hne' : inputPending forwards (inputArray inputs) ≠ [] := by
    intro hnil
    exact hne (List.length_eq_zero_iff.mp (by rw [hlen, hnil]; rfl))
  obtain ⟨hnext, hprev⟩ := any_canCurr hne'
  exact Bool.and_eq_true _ _ ▸ ⟨hnext, hprev⟩

theorem mergeDrain_eq_modeEmissions (mode : MergeBehavior) {forwards : Bool} {fuel : Nat}
    {inputs : List (Cursor (Tuple K))} (harity : inputs.length < maxMergeArity)
    (hordered : ∀ c ∈ inputs, c.items.Pairwise fun a b => a.key < b.key)
    (hfuel : (inputPending forwards (inputArray inputs)).length < fuel) :
    mergeDrain cfg fuel inputs mode forwards =
      callback ((modeEmissions cfg mode
        (sortTagged forwards (inputPending forwards (inputArray inputs)))).map
          fun l => l.map some) := by
  rw [mergeDrain]
  rcases mergeIteratorCreate_settles cfg mode forwards fuel
    harity hordered (le_of_lt hfuel) with ⟨hfail, hnone⟩ | ⟨it, hrun, hpos⟩
  · rw [hfail, hnone]
    rfl
  · rw [hrun, pure_bind]
    exact drainLoop_eq cfg fuel _ it _ hpos hfuel

omit [LinearOrder K] in
theorem inputPending_untagged (forwards : Bool) (inputs : List (Cursor (Tuple K))) :
    (inputPending forwards (inputArray inputs)).map (·.toTuple) =
      inputs.flatMap (·.remaining forwards) := by
  have huntag : ∀ i : InputIterator K,
      (pending forwards i).map (·.toTuple) = i.itor.remaining forwards := by
    intro i
    rw [pending, List.map_map]
    exact List.map_id _
  have hitors : (inputArray inputs).map (·.itor) = inputs := by
    apply List.ext_getElem
    · simp [inputArray]
    · intro n _ _
      simp [inputArray]
  rw [inputPending, List.map_flatMap]
  simp only [huntag]
  conv_rhs => rw [← hitors, List.flatMap_map]

/-- **A drain yields the merged union.**  For any number of sorted inputs the iterator accepts, in
either direction and whatever the merge callbacks do, draining ends.

* In the merging modes it yields the specification: the keys that occur in some input, each once
  and strictly ordered in the direction of travel, with their folded messages; it fails exactly
  when the specification does, that is when a callback fails on the way.
* In raw mode it yields every remaining tuple of every input exactly once, in key order. -/
theorem mergeDrain_yields (mode : MergeBehavior) (forwards : Bool) (fuel : Nat)
    (inputs : List (Cursor (Tuple K))) (harity : inputs.length < maxMergeArity)
    (hordered : ∀ c ∈ inputs, c.items.Pairwise fun a b => a.key < b.key)
    (hfuel : (inputs.flatMap (·.remaining forwards)).length < fuel) :
    (mode ≠ .raw → mergeDrain cfg fuel inputs mode forwards =
        callback ((mergeSpec cfg (decide (mode = .full)) forwards inputs).map
          fun l => l.map some)) ∧
      (keysInOrder forwards (inputKeys forwards inputs)).Pairwise (keyLt forwards) ∧
      (∀ k, k ∈ keysInOrder forwards (inputKeys forwards inputs) ↔
        ∃ c ∈ inputs, ∃ t ∈ c.remaining forwards, t.key = k) ∧
      (mode = .raw → ∃ out : List (Tuple K),
        mergeDrain cfg fuel inputs mode forwards = pure (out.map some) ∧
        out.Perm (inputs.flatMap (·.remaining forwards)) ∧
        out.Pairwise fun a b => ¬ keyLt forwards b.key a.key) := by
  have hfuel' : (inputPending forwards (inputArray inputs)).length < fuel := by
    rw [← inputPending_untagged, List.length_map] at hfuel
    exact hfuel
  have hdrain := mergeDrain_eq_modeEmissions cfg mode harity hordered hfuel'
  refine ⟨?_, keysInOrder_sorted _, ?_, ?_⟩
  · intro hmode
    rw [hdrain, modeEmissions, if_neg hmode, emissions_eq_mergeSpec cfg _ hordered]
  · intro k
    rw [mem_keysInOrder, inputKeys, List.mem_flatMap]
    simp only [List.mem_map]
  · rintro rfl
    have hordered' : ∀ i ∈ inputArray inputs, i.itor.items.Pairwise fun a b => a.key < b.key := by
      intro i hi
      obtain ⟨seq, c, hget, rfl⟩ := mem_inputArray.mp hi
      exact hordered c (List.mem_of_getElem? hget)
    have hsorted : (sortTagged forwards (inputPending forwards (inputArray inputs))).Pairwise
        (tagBefore forwards) :=
      sortTagged_sorted (inputPending_comparable inputArray_seqs hordered')
    refine ⟨_, hdrain, ?_, ?_⟩
    · rw [← inputPending_untagged]
      exact (sortTagged_perm _).map _
    · refine List.pairwise_map.mpr (hsorted.imp ?_)
      rintro a b (h | ⟨h, -⟩) hlt
      · exact keyLt_irrefl _ (keyLt_trans h hlt)
      · exact keyLt_ne hlt h.symm

/-- Two inputs that share a key, drained in a full merge: the newer input deletes key 1 and
overwrites key 2. -/
theorem mergeDrain_yields_two_inputs :
    let cfg : DataConfig Nat := ⟨fun _ _ new => some new, fun _ oldest => some oldest⟩
    let older := Cursor.atFirst
      [(⟨1, ⟨.insert, [10]⟩⟩ : Tuple Nat), ⟨2, ⟨.insert, [20]⟩⟩, ⟨3, ⟨.insert, [30]⟩⟩]
    let newer := Cursor.atFirst [(⟨1, ⟨.delete, []⟩⟩ : Tuple Nat), ⟨2, ⟨.insert, [21]⟩⟩]
    mergeDrain cfg 6 [older, newer] .full true =
      pure [some ⟨2, ⟨.insert, [21]⟩⟩, some ⟨3, ⟨.insert, [30]⟩⟩] := by
  intro cfg older newer
  exact (mergeDrain_yields cfg .full true 6 [older, newer] (by decide) (by decide) (by decide)).1
    (by decide)

end Merge
end TreePass
