import TreePass.Btree.LookupPath

/-!
# The asynchronous lookup follows the path of the synchronous one

`Rests st s p` says what is left of a descent between two calls: the rest of the path is `p`.  One
call takes some pages of this rest (`nodeAsync_spec`); what it asks of the cache is what the
synchronous descent asks, but for the one release it makes first after a yield, which depends on
the stack slot of `node_is_warm` (`SlotHolds`).  A sequence of calls with enough pages ends the
lookup (`runCalls_spec`), whatever the points are at which it yields.
-/

namespace TreePass
namespace Btree

variable {K : Type} [LinearOrder K] (outcomes : LookupOutcomes) (type : PageType)
  (kind : LookupKind) (merge : MergeOutcomes) (rootAddr : Addr) (target : Key K)

/-! ## Between two calls -/

/-- What is left of a descent is the path `p`. -/
def Rests (st : AsyncLookup) (s : Reader K) (p : Path K) : Prop :=
  match st.label with
  | .init => False
  | .root => st.node = rootAddr ∧ st.isWarm = true ∧ ∃ q,
      path outcomes type target st.stopAtHeight ((s.pages rootAddr).height - st.stopAtHeight)
        rootAddr true s.pages = some q ∧ p = q.after [.get rootAddr true]
  | .child => ∃ w q, takenWarm st.node s.calls = some w ∧
      path outcomes type target st.stopAtHeight (st.h - 1 - st.stopAtHeight) st.childNode st.isWarm
        (finishTurn type w st s).2.pages = some q ∧ st.stopAtHeight < st.h ∧
      p = q.after [releaseCall type st.node w, .get st.childNode st.isWarm]
  | .done => p = ⟨st.node, st.isWarm, s.pages, []⟩

def AsyncLookup.need (st : AsyncLookup) (s : Reader K) : Nat :=
  match st.label with
  | .init => 0
  | .root => (s.pages st.node).height - st.stopAtHeight + 1
  | .child => st.h - st.stopAtHeight
  | .done => 0

/-- **The stack slot holds.**  A call that goes on with a page of a branch finds in its stack slot
the warmth with which the node before was taken. -/
def SlotHolds (resume : Resume) (st : AsyncLookup) (s : Reader K) : Prop :=
  type = .branch → st.label = .child → 0 < resume.pages →
    takenWarm st.node s.calls = some resume.nodeIsWarm

/-- What no part of `btree_lookup_node_async` changes. -/
def AsyncLookup.SameFrame (st st' : AsyncLookup) : Prop :=
  st'.outer = st.outer ∧ st'.inner = st.inner ∧ st'.stopAtHeight = st.stopAtHeight ∧
    st'.asyncResult = st.asyncResult ∧ st'.result = st.result

theorem AsyncLookup.SameFrame.refl (st : AsyncLookup) : st.SameFrame st := ⟨rfl, rfl, rfl, rfl, rfl⟩

theorem AsyncLookup.SameFrame.trans {st st' st'' : AsyncLookup} (h : st.SameFrame st')
    (h' : st'.SameFrame st'') : st.SameFrame st'' :=
  ⟨h'.1.trans h.1, h'.2.1.trans h.2.1, h'.2.2.1.trans h.2.2.1, h'.2.2.2.1.trans h.2.2.2.1,
    h'.2.2.2.2.trans h.2.2.2.2⟩

/-! ## The loop -/

/-- A part of a descent: it asks `asked` of the cache where `due` is on the path, and leaves `p'`. -/
structure Advances (st st' : AsyncLookup) (s s' : Reader K) (p p' : Path K)
    (asked due : List CacheCall) : Prop where
  calls_eq : s'.calls = asked ++ s.calls
  rests : Rests outcomes type rootAddr target st' s' p'
  path_eq : p = p'.after due
  length_eq : asked.length = due.length
  frame : st.SameFrame st'
  label : st'.label ≠ .init

theorem startTurn_spec {n : Nat} {st : AsyncLookup} {s : Reader K} {p : Path K}
    (hheight : st.h = st.stopAtHeight + (n + 1))
    (hpath : path outcomes type target st.stopAtHeight (n + 1) st.node st.isWarm s.pages = some p) :
    ∃ st' s' q, startTurn outcomes type target st s = some (st', s') ∧ s'.calls = s.calls ∧
      st.SameFrame st' ∧ st'.node = st.node ∧ st'.h = st.h ∧
      (∀ w, path outcomes type target st.stopAtHeight n st'.childNode st'.isWarm
        (finishTurn type w st' s').2.pages = some q) ∧
      p = q.after [releaseCall type st.node st.isWarm, .get st'.childNode st'.isWarm] := by
  cases hentry : (s.pages st.node).getIndexEntry ((s.pages st.node).childIndex target) with
  | none =>
      rw [path, hentry] at hpath
      exact Option.noConfusion rfl (heq_of_eq hpath)
  | some entry =>
      have hh : st.stopAtHeight + n + 1 = st.h := by omega
      have hinternal : decide (st.stopAtHeight < st.h - 1) = decide (0 < n) := by
        rw [decide_eq_decide]
        omega
      rw [path_succ outcomes type target st.stopAtHeight st.isWarm hentry, hh,
        Option.map_eq_some_iff] at hpath
      obtain ⟨q, hq, rfl⟩ := hpath
      rw [startTurn, hentry]
      refine ⟨_, _, q, rfl, rfl, ⟨rfl, rfl, rfl, rfl, rfl⟩, rfl, rfl, fun w => ?_, rfl⟩
      rw [finishTurn, hinternal]
      exact hq

theorem nodeLoop_spec (n pages : Nat) {st : AsyncLookup} {s : Reader K} {p : Path K}
    (hheight : st.h = st.stopAtHeight + n)
    (hwarm : takenWarm st.node s.calls = some st.isWarm)
    (hpath : path outcomes type target st.stopAtHeight n st.node st.isWarm s.pages = some p) :
    ∃ st' s' p' calls, nodeLoop outcomes type target n pages st s = some (st', s') ∧
      Advances outcomes type rootAddr target st st' s s' p p' calls calls ∧
      st'.need s' = n - pages := by
  induction n generalizing pages st s p with
  | zero =>
      rw [path, Option.some.injEq] at hpath
      refine ⟨{ st with label := .done }, s, p, [], rfl,
        ⟨rfl, hpath.symm, p.after_nil.symm, rfl, ⟨rfl, rfl, rfl, rfl, rfl⟩, ?_⟩,
        (Nat.zero_sub pages).symm⟩
      exact fun h => Label.noConfusion h
  | succ n ih =>
      obtain ⟨st₁, s₁, q, hstart, hcalls, hframe, hnode, hh, hq, rfl⟩ :=
        startTurn_spec outcomes type target hheight hpath
      have hstop : st₁.stopAtHeight = st.stopAtHeight := hframe.2.2.1
      rw [nodeLoop, hstart]
      cases pages with
      | zero =>
          refine ⟨{ st₁ with label := .child }, s₁, _, [], rfl,
            ⟨hcalls, ?_, (Path.after_nil _).symm, rfl, hframe, fun h => Label.noConfusion h⟩, ?_⟩
          · refine ⟨st.isWarm, q, ?_, ?_, ?_, ?_⟩
            · rw [hcalls]
              exact hnode ▸ hwarm
            · have hturns : st₁.h - 1 - st₁.stopAtHeight = n := by omega
              have hrest := hq st.isWarm
              rw [← hstop] at hrest
              change path outcomes type target st₁.stopAtHeight (st₁.h - 1 - st₁.stopAtHeight) _ _ _ = _
              rw [hturns]
              exact hrest
            · change st₁.stopAtHeight < st₁.h
              omega
            · rw [← hnode]
          · change st₁.h - st₁.stopAtHeight = _
            omega
      | succ pages =>
          have hnext : takenWarm (finishTurn type st.isWarm st₁ s₁).1.node
              (finishTurn type st.isWarm st₁ s₁).2.calls = some st₁.isWarm := by
            rw [finishTurn]
            dsimp only
            rw [takenWarm_release, takenWarm_get]
          have hpath' := hq st.isWarm
          rw [← hstop] at hpath'
          obtain ⟨st', s', p', calls, hloop, hadvance, hneed⟩ :=
            @ih pages (finishTurn type st.isWarm st₁ s₁).1 (finishTurn type st.isWarm st₁ s₁).2 q
              (by change st₁.h - 1 = st₁.stopAtHeight + n; omega) hnext hpath'
          refine ⟨st', s', p', calls ++ [releaseCall type st.node st.isWarm,
            .get st₁.childNode st₁.isWarm], hloop,
            ⟨?_, hadvance.rests, ?_, rfl, hframe.trans hadvance.frame, hadvance.label⟩, ?_⟩
          · rw [hadvance.calls_eq, List.append_assoc, ← hcalls, ← hnode]
            rfl
          · rw [← Path.after_after, ← hadvance.path_eq]
          · rw [hneed]
            omega

theorem pollRoot_spec (pages : Nat) {st : AsyncLookup} {s : Reader K} {q : Path K}
    (hnode : st.node = rootAddr) (hwarm : st.isWarm = true)
    (hstop : st.stopAtHeight ≤ (s.pages rootAddr).height)
    (hpath : path outcomes type target st.stopAtHeight
      ((s.pages rootAddr).height - st.stopAtHeight) rootAddr true s.pages = some q) :
    ∃ st' s' p' calls, pollRoot outcomes type target pages st s = some (st', s') ∧
      Advances outcomes type rootAddr target st st' s s' (q.after [.get rootAddr true]) p' calls
        calls ∧
      st'.need s' = (s.pages rootAddr).height - st.stopAtHeight + 1 - pages := by
  subst hnode
  cases pages with
  | zero =>
      refine ⟨{ st with label := .root }, s, _, [], rfl,
        ⟨rfl, ⟨rfl, hwarm, q, hpath, rfl⟩, (Path.after_nil _).symm, rfl,
          ⟨rfl, rfl, rfl, rfl, rfl⟩, fun h => Label.noConfusion h⟩, rfl⟩
  | succ pages =>
      have htaken : takenWarm st.node (CacheCall.get st.node st.isWarm :: s.calls) = some st.isWarm :=
        takenWarm_get st.node st.isWarm s.calls
      rw [← hwarm] at hpath
      obtain ⟨st', s', p', calls, hloop, hadvance, hneed⟩ :=
        @nodeLoop_spec K _ outcomes type st.node target
          ((s.pages st.node).height - st.stopAtHeight) pages
          { st with h := (s.pages st.node).height }
          { s with calls := .get st.node st.isWarm :: s.calls } q (by dsimp only; omega) htaken hpath
      refine ⟨st', s', p', calls ++ [.get st.node true], hloop,
        ⟨?_, hadvance.rests, ?_, rfl, hadvance.frame, hadvance.label⟩, ?_⟩
      · rw [hadvance.calls_eq, List.append_assoc, ← hwarm]
        rfl
      · rw [← Path.after_after, ← hadvance.path_eq]
      · rw [hneed]
        omega

/-- **One call** of `btree_lookup_node_async` after a yield: it asks for what is on the path if and
only if the stack slot holds. -/
theorem nodeAsync_spec (resume : Resume) {st : AsyncLookup} {s : Reader K} {p : Path K}
    (hstop : st.stopAtHeight = 0) (hrest : Rests outcomes type rootAddr target st s p)
    (hneed : 0 < st.need s) :
    ∃ st' s' p' asked due,
      btreeLookupNodeAsync outcomes type rootAddr target resume st s = some (st', s') ∧
      Advances outcomes type rootAddr target st st' s s' p p' asked due ∧
      (asked = due ↔ SlotHolds type resume st s) ∧ st'.need s' = st.need s - resume.pages := by
  cases hlabel : st.label with
  | init =>
      rw [AsyncLookup.need, hlabel] at hneed
      exact absurd hneed (Nat.lt_irrefl 0)
  | done =>
      rw [AsyncLookup.need, hlabel] at hneed
      exact absurd hneed (Nat.lt_irrefl 0)
  | root =>
      rw [Rests, hlabel] at hrest
      obtain ⟨hnode, hwarm, q, hpath, rfl⟩ := hrest
      obtain ⟨st', s', p', calls, hpoll, hadvance, hleft⟩ :=
        pollRoot_spec outcomes type rootAddr target resume.pages hnode hwarm (by omega) hpath
      refine ⟨st', s', p', calls, calls, ?_, hadvance, iff_of_true rfl ?_, ?_⟩
      · rw [btreeLookupNodeAsync, hlabel]
        exact hpoll
      · intro _ hchild
        rw [hlabel] at hchild
        exact Label.noConfusion hchild
      · rw [hleft, AsyncLookup.need, hlabel, hnode]
  | child =>
      have hfull := hrest
      rw [Rests, hlabel] at hrest
      obtain ⟨w, q, htaken, hpath, hlt, rfl⟩ := hrest
      rw [btreeLookupNodeAsync, hlabel]
      cases hpages : resume.pages with
      | zero =>
          refine ⟨st, s, _, [], [], rfl, ⟨rfl, hfull, (Path.after_nil _).symm, rfl,
            AsyncLookup.SameFrame.refl st, ?_⟩, iff_of_true rfl ?_, rfl⟩
          · rw [hlabel]
            exact fun h => Label.noConfusion h
          · intro _ _ hpos
            rw [hpages] at hpos
            exact absurd hpos (Nat.lt_irrefl 0)
      | succ pages =>
          have hnext : takenWarm (finishTurn type resume.nodeIsWarm st s).1.node
              (finishTurn type resume.nodeIsWarm st s).2.calls = some st.isWarm := by
            rw [finishTurn]
            dsimp only
            rw [takenWarm_release, takenWarm_get]
          obtain ⟨st', s', p', calls, hloop, hadvance, hleft⟩ :=
            @nodeLoop_spec K _ outcomes type rootAddr target (st.h - 1 - st.stopAtHeight) pages
              (finishTurn type resume.nodeIsWarm st s).1 (finishTurn type resume.nodeIsWarm st s).2 q
              (by change st.h - 1 = st.stopAtHeight + _; omega) hnext hpath
          refine ⟨st', s', p',
            calls ++ [releaseCall type st.node resume.nodeIsWarm, .get st.childNode st.isWarm],
            calls ++ [releaseCall type st.node w, .get st.childNode st.isWarm], hloop,
            ⟨?_, hadvance.rests, ?_, ?_, hadvance.frame, hadvance.label⟩, ?_, ?_⟩
          · rw [hadvance.calls_eq, List.append_assoc]
            rfl
          · rw [← Path.after_after, ← hadvance.path_eq]
          · rw [List.length_append, List.length_append]
            rfl
          · rw [List.append_cancel_left_eq, List.cons.injEq, releaseCall_eq_iff, and_iff_left rfl,
              SlotHolds, htaken, hpages, hlabel, Option.some.injEq]
            constructor
            · exact fun h htype _ _ => (h htype).symm
            · exact fun h htype => (h htype rfl (Nat.succ_pos pages)).symm
          · rw [hleft, AsyncLookup.need, hlabel]
            dsimp only
            omega

/-! ## The end of a lookup -/

def settle (result : Option Message) (p : Path K) : Option (LookupResult × Reader K) :=
  let place := (p.pages p.addr).findTuple target
  let released : List CacheCall := releaseCall type p.addr p.isWarm :: p.calls
  if place.2 then
    ((p.pages p.addr).getLeafEntry place.1.toNat).map fun entry =>
      let used := useMessage kind merge result entry.msg
      if kind = .withRef then
        (⟨used.1, some entry.msg, used.2, some p.addr⟩, ⟨p.pages, p.calls⟩)
      else
        (⟨used.1, some entry.msg, used.2, none⟩, ⟨p.pages, released⟩)
  else
    some (⟨.ok (), none, result, none⟩, ⟨p.pages, released⟩)

theorem settle_after (result : Option Message) (p : Path K) (calls : List CacheCall) :
    settle type kind merge target result (p.after calls) =
      (settle type kind merge target result p).map fun r =>
        (r.1, ⟨r.2.pages, r.2.calls ++ calls⟩) := by
  rw [settle, settle]
  by_cases hfound : ((p.pages p.addr).findTuple target).2 = true
  · rw [if_pos hfound, Path.after]
    dsimp only
    rw [if_pos hfound, Option.map_map]
    congr 1
    funext entry
    by_cases hkind : kind = .withRef
    · simp only [Function.comp_apply, hkind, if_true]
    · simp only [Function.comp_apply, hkind, if_false, List.cons_append]
  · rw [if_neg hfound, Path.after]
    dsimp only
    rw [if_neg hfound]
    rfl

theorem exists_settle (result : Option Message) (p : Path K) :
    ∃ r, settle type kind merge target result p = some r ∧ r.2.pages = p.pages := by
  rw [settle]
  by_cases hfound : ((p.pages p.addr).findTuple target).2 = true
  · obtain ⟨entry, hentry⟩ := exists_leafEntry target hfound
    rw [if_pos hfound, hentry]
    by_cases hkind : kind = .withRef
    · exact ⟨_, rfl, by simp only [hkind, if_true]⟩
    · exact ⟨_, rfl, by simp only [hkind, if_false]⟩
  · rw [if_neg hfound]
    exact ⟨_, rfl, rfl⟩

theorem btreeLookup_eq (cfg : Config K) (result : Option Message) (s : Reader K) :
    btreeLookup cfg outcomes type kind merge rootAddr target result s =
      (path outcomes type target 0 ((s.pages rootAddr).height - 0) rootAddr true s.pages).bind
        fun q => settle type kind merge target result
          ((q.after [.get rootAddr true]).after s.calls) := by
  have hturns := lookupTurns_eq_path outcomes type target 0 cfg ((s.pages rootAddr).height - 0)
    ⟨rootAddr, ⟨0, 0, 0⟩, true⟩ { s with calls := .get rootAddr true :: s.calls }
  rw [btreeLookup, btreeLookupWithRef, btreeLookupNode]
  cases hr : lookupTurns cfg outcomes type target 0 ((s.pages rootAddr).height - 0)
      ⟨rootAddr, ⟨0, 0, 0⟩, true⟩ { s with calls := .get rootAddr true :: s.calls } with
  | none =>
      rw [hr, Option.map_none, eq_comm, Option.map_eq_none_iff] at hturns
      rw [hturns]
      rfl
  | some r =>
      rw [hr, Option.map_some, eq_comm, Option.map_eq_some_iff] at hturns
      obtain ⟨q, hq, heq⟩ := hturns
      rw [hq, Option.bind_some, Path.after_after]
      change _ = settle type kind merge target result (q.after (.get rootAddr true :: s.calls))
      rw [heq, settle]
      by_cases hfound : ((r.2.pages r.1.addr).findTuple target).2 = true
      · simp only [Option.bind_eq_bind, Option.bind_some, hfound, if_true]
        cases (r.2.pages r.1.addr).getLeafEntry
            ((r.2.pages r.1.addr).findTuple target).1.toNat with
        | none => rfl
        | some entry =>
            by_cases hkind : kind = .withRef
            · simp only [hkind, if_true]
              rfl
            · simp only [hkind, if_false]
              rfl
      · simp only [Option.bind_eq_bind, Option.bind_some, hfound]
        rfl

theorem asyncEnd_eq {st : AsyncLookup} (s : Reader K) :
    ∃ r, ((finishWithRef type target st s).map fun r =>
        if r.1.inner = .done then finishLookup type kind merge r.1 r.2 else r) = some r ∧
      settle type kind merge target st.result ⟨st.node, st.isWarm, s.pages, s.calls⟩ =
        some (r.1.outcome kind, r.2) ∧
      r.1.outer = .done ∧ r.1.label = st.label := by
  rw [settle, finishWithRef]
  by_cases hfound : ((s.pages st.node).findTuple target).2 = true
  · obtain ⟨entry, hentry⟩ := exists_leafEntry target hfound
    simp only [hfound, hentry, if_true, Option.map_some]
    refine ⟨_, rfl, ?_, rfl, rfl⟩
    by_cases hkind : kind = .withRef
    · simp only [hkind, finishLookup, AsyncLookup.outcome, if_true, and_self]
    · simp only [hkind, finishLookup, AsyncLookup.outcome, if_true, if_false, and_false]
  · simp only [hfound]
    exact ⟨_, rfl, rfl, rfl, rfl⟩

/-! ## Sequences of calls -/

/-- A lookup that has been called and is not done. -/
structure Running (result : Option Message) (st : AsyncLookup) (s : Reader K) (p : Path K) :
    Prop where
  outer : st.outer = .awaiting
  inner : st.inner = .awaiting
  stop : st.stopAtHeight = 0
  result_eq : st.result = result
  rests : Rests outcomes type rootAddr target st s p
  need_pos : 0 < st.need s

/-- Every call of a sequence finds its stack slot as it should be. -/
def SlotsHold : List Resume → AsyncLookup → Reader K → Prop
  | [], _, _ => True
  | resume :: schedule, st, s =>
      SlotHolds type resume st s ∧
        ∀ r, btreeLookupAsync outcomes type kind merge rootAddr target resume st s = some r →
          SlotsHold schedule r.1 r.2

theorem Rests.label_of_need {st : AsyncLookup} {s : Reader K} {p : Path K}
    (hrest : Rests outcomes type rootAddr target st s p) (hneed : st.need s = 0) :
    st.label = .done := by
  cases hlabel : st.label with
  | init =>
      rw [Rests, hlabel] at hrest
      exact hrest.elim
  | root =>
      rw [AsyncLookup.need, hlabel] at hneed
      exact absurd hneed (Nat.succ_ne_zero _)
  | child =>
      rw [Rests, hlabel] at hrest
      obtain ⟨w, q, -, -, hlt, -⟩ := hrest
      rw [AsyncLookup.need, hlabel] at hneed
      dsimp only at hneed
      omega
  | done => rfl

/-- **One call** of a lookup: it asks for what is on the path if and only if the stack slot holds,
and it ends the lookup if it finds as many pages as are still to be taken. -/
theorem call_spec (resume : Resume) {result : Option Message} {st : AsyncLookup} {s : Reader K}
    {p : Path K} (hrun : Running outcomes type rootAddr target result st s p) :
    ∃ st' s' p' asked due,
      btreeLookupAsync outcomes type kind merge rootAddr target resume st s = some (st', s') ∧
      p = p'.after due ∧ asked.length = due.length ∧ (asked = due ↔ SlotHolds type resume st s) ∧
      ((st.need s ≤ resume.pages ∧ st'.outer = .done ∧ st'.label = .done ∧
          settle type kind merge target result (p'.after (asked ++ s.calls)) =
            some (st'.outcome kind, s')) ∨
        (Running outcomes type rootAddr target result st' s' p' ∧ s'.calls = asked ++ s.calls ∧
          st'.need s' = st.need s - resume.pages)) := by
  obtain ⟨houter, hinner, hstop, hresult, hrest, hneed⟩ := hrun
  obtain ⟨st', s', p', asked, due, hnode, ⟨hcalls, hrest', hpath, hlength, hframe, -⟩, hslot, hleft⟩ :=
    nodeAsync_spec outcomes type rootAddr target resume hstop hrest hneed
  obtain ⟨houter', hinner', hstop', -, hresult'⟩ := hframe
  have hcall : btreeLookupAsync outcomes type kind merge rootAddr target resume st s =
      (if st'.label = .done then finishWithRef type target st' s' else some (st', s')).map fun r =>
        if r.1.inner = .done then finishLookup type kind merge r.1 r.2 else r := by
    simp only [btreeLookupAsync, btreeLookupWithRefAsync, houter, hinner, reduceCtorEq, if_false,
      hnode, Option.bind_some]
  rw [hcall]
  by_cases hdone : st'.label = .done
  · obtain ⟨r, hend, hsettle, hrouter, hrlabel⟩ := @asyncEnd_eq K _ type kind merge target st' s'
    have hzero : st'.need s' = 0 := by rw [AsyncLookup.need, hdone]
    rw [Rests, hdone] at hrest'
    refine ⟨r.1, r.2, p', asked, due, ?_, hpath, hlength, hslot, Or.inl ⟨by omega, hrouter, ?_, ?_⟩⟩
    · rw [if_pos hdone]
      exact hend
    · exact hrlabel.trans hdone
    · rw [hresult', hresult, hcalls] at hsettle
      rw [hrest', Path.after, List.nil_append]
      exact hsettle
  · have hpos : 0 < st'.need s' := Nat.pos_of_ne_zero fun h =>
      hdone (hrest'.label_of_need outcomes type rootAddr target h)
    refine ⟨st', s', p', asked, due, ?_, hpath, hlength, hslot, Or.inr ⟨?_, hcalls, hleft⟩⟩
    · rw [if_neg hdone, Option.map_some, hinner', hinner]
      rfl
    · exact ⟨houter'.trans houter, hinner'.trans hinner, hstop'.trans hstop,
        hresult'.trans hresult, hrest', hpos⟩

theorem runCalls_done (schedule : List Resume) {st : AsyncLookup} (s : Reader K)
    (houter : st.outer = .done) :
    runCalls outcomes type kind merge rootAddr target schedule st s = some (st, s) ∧
      (st.label = .done → SlotsHold outcomes type kind merge rootAddr target schedule st s) := by
  have hcall : ∀ resume, btreeLookupAsync outcomes type kind merge rootAddr target resume st s =
      some (st, s) := fun resume => if_pos houter
  induction schedule with
  | nil => exact ⟨rfl, fun _ => trivial⟩
  | cons resume schedule ih =>
      refine ⟨?_, fun hlabel => ⟨fun _ hchild => ?_, fun r hr => ?_⟩⟩
      · rw [runCalls, hcall, Option.bind_some]
        exact ih.1
      · rw [hlabel] at hchild
        exact Label.noConfusion hchild
      · rw [hcall, Option.some.injEq] at hr
        rw [← hr]
        exact ih.2 hlabel

/-- **A sequence of calls with enough pages ends the lookup**, wherever it yields.  It asks for what
is on the path if and only if the stack slots hold. -/
theorem runCalls_spec (schedule : List Resume) {result : Option Message} {st : AsyncLookup}
    {s : Reader K} {p : Path K} (hrun : Running outcomes type rootAddr target result st s p)
    (henough : st.need s ≤ (schedule.map Resume.pages).sum) :
    ∃ (st' : AsyncLookup) (s' : Reader K) (p' : Path K) (asked due : List CacheCall),
      runCalls outcomes type kind merge rootAddr target schedule st s = some (st', s') ∧
      st'.outer = .done ∧ p = p'.after due ∧ asked.length = due.length ∧
      (asked = due ↔ SlotsHold outcomes type kind merge rootAddr target schedule st s) ∧
      settle type kind merge target result (p'.after (asked ++ s.calls)) =
        some (st'.outcome kind, s') := by
  induction schedule generalizing st s p with
  | nil => exact absurd (Nat.lt_of_lt_of_le hrun.need_pos henough) (Nat.lt_irrefl 0)
  | cons resume schedule ih =>
      obtain ⟨st₁, s₁, p₁, asked, due, hcall, hpath, hlength, hslot, hend⟩ :=
        call_spec outcomes type kind merge rootAddr target resume hrun
      have hslots : SlotsHold outcomes type kind merge rootAddr target (resume :: schedule) st s ↔
          SlotHolds type resume st s ∧
            SlotsHold outcomes type kind merge rootAddr target schedule st₁ s₁ := by
        refine and_congr_right fun _ => ⟨fun h => h _ hcall, fun h r hr => ?_⟩
        rw [hcall, Option.some.injEq] at hr
        rw [← hr]
        exact h
      rw [hslots, ← hslot, runCalls, hcall, Option.bind_some]
      rcases hend with ⟨-, houter, hlabel, hsettle⟩ | ⟨hrun₁, hcalls, hneed⟩
      · obtain ⟨hrest, hhold⟩ :=
          runCalls_done outcomes type kind merge rootAddr target schedule s₁ houter
        exact ⟨st₁, s₁, p₁, asked, due, hrest, houter, hpath, hlength,
          (and_iff_left (hhold hlabel)).symm, hsettle⟩
      · rw [List.map_cons, List.sum_cons] at henough
        obtain ⟨st', s', p', asked', due', hrest, houter, hpath', hlength', hslots', hsettle⟩ :=
          ih hrun₁ (by omega)
        refine ⟨st', s', p', asked' ++ asked, due' ++ due, hrest, houter, ?_, ?_, ?_, ?_⟩
        · rw [hpath, hpath', Path.after_after]
        · rw [List.length_append, List.length_append, hlength, hlength']
        · rw [← hslots']
          constructor
          · intro heq
            obtain ⟨h', h⟩ := List.append_inj heq hlength'
            exact ⟨h, h'⟩
          · rintro ⟨rfl, rfl⟩
            rfl
        · rw [List.append_assoc, ← hcalls]
          exact hsettle

end Btree
end TreePass
