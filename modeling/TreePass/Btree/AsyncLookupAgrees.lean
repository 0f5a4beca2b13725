import TreePass.Btree.AsyncLookupRuns

/-!
# Do the two lookups agree?

For every well-shaped tree, key, cache and sequence of calls that finds enough pages:

* both lookups return the same status, message and accumulator and leave the same pages
  (`lookups_settle`), and the synchronous one gives back every page it takes
  (`btreeLookup_balanced`);
* both ask the same of the cache if and only if every call that goes on with a page of a branch
  after a yield finds the right value in its stack slot (`asyncLookup_agrees_iff`).
-/

namespace TreePass
namespace Btree

/-! ## References -/

def takes (addr : Addr) (calls : List CacheCall) : Nat :=
  calls.countP fun call => match call with
    | .get a _ => decide (a = addr)
    | _ => false

def releases (addr : Addr) (calls : List CacheCall) : Nat :=
  calls.countP fun call => match call with
    | .get _ _ => false
    | .unget a => decide (a = addr)
    | .ungetCold a => decide (a = addr)

/-- Every page is given back as often as it was taken, but for one reference to the leaf that is
kept. -/
def Balanced (ref : Option Addr) (calls : List CacheCall) : Prop :=
  ∀ addr, takes addr calls = releases addr calls + if ref = some addr then 1 else 0

/-- References that are held after some calls are those before and one to a page that is held in
place of another. -/
private def MovesRef (start stop : Addr) (calls : List CacheCall) : Prop :=
  ∀ addr, takes addr calls + (if start = addr then 1 else 0) =
    releases addr calls + if stop = addr then 1 else 0

theorem takes_append (addr : Addr) (calls calls' : List CacheCall) :
    takes addr (calls ++ calls') = takes addr calls + takes addr calls' := List.countP_append

theorem releases_append (addr : Addr) (calls calls' : List CacheCall) :
    releases addr (calls ++ calls') = releases addr calls + releases addr calls' :=
  List.countP_append

theorem takes_release (type : PageType) (addr addr' : Addr) (isWarm : Bool)
    (calls : List CacheCall) :
    takes addr (releaseCall type addr' isWarm :: calls) = takes addr calls ∧
      releases addr (releaseCall type addr' isWarm :: calls) =
        releases addr calls + if addr' = addr then 1 else 0 := by
  rw [releaseCall]
  by_cases hcold : (!isWarm && decide (type = .branch)) = true <;> by_cases haddr : addr' = addr <;>
    simp [takes, releases, hcold, haddr]

theorem takes_get (addr addr' : Addr) (isWarm : Bool) (calls : List CacheCall) :
    takes addr (.get addr' isWarm :: calls) = takes addr calls + (if addr' = addr then 1 else 0) ∧
      releases addr (.get addr' isWarm :: calls) = releases addr calls := by
  by_cases haddr : addr' = addr <;> simp [takes, releases, haddr]

variable {K : Type} [LinearOrder K] (outcomes : LookupOutcomes) (type : PageType)
  (kind : LookupKind) (merge : MergeOutcomes) (rootAddr : Addr) (target : Key K)

private theorem path_movesRef {stopAtHeight : Nat} (n : Nat) {addr : Addr} {isWarm : Bool}
    {pages : Addr → Page K} {p : Path K}
    (hpath : path outcomes type target stopAtHeight n addr isWarm pages = some p) :
    MovesRef addr p.addr p.calls := by
  induction n generalizing addr isWarm pages p with
  | zero =>
      rw [path, Option.some.injEq] at hpath
      subst hpath
      exact fun _ => rfl
  | succ n ih =>
      cases hentry : (pages addr).getIndexEntry ((pages addr).childIndex target) with
      | none =>
          rw [path, hentry] at hpath
          exact Option.noConfusion rfl (heq_of_eq hpath)
      | some entry =>
          rw [path_succ outcomes type target stopAtHeight isWarm hentry,
            Option.map_eq_some_iff] at hpath
          obtain ⟨q, hq, rfl⟩ := hpath
          intro addr'
          have hmoves := ih hq addr'
          have hrelease := takes_release type addr' addr isWarm
            [.get entry.maskedChildAddr (trackPivot outcomes type pages addr (stopAtHeight + n + 1)
              ((pages addr).childIndex target) entry isWarm).2.2]
          have hget := takes_get addr' entry.maskedChildAddr
            (trackPivot outcomes type pages addr (stopAtHeight + n + 1)
              ((pages addr).childIndex target) entry isWarm).2.2 []
          rw [Path.after]
          dsimp only
          rw [takes_append, releases_append, hrelease.1, hrelease.2, hget.1, hget.2]
          have hnone : takes addr' [] = 0 ∧ releases addr' [] = 0 := ⟨rfl, rfl⟩
          omega

theorem btreeLookup_balanced (cfg : Config K) (result : Option Message) {pages : Addr → Page K}
    {r : LookupResult × Reader K}
    (hr : btreeLookup cfg outcomes type kind merge rootAddr target result ⟨pages, []⟩ = some r) :
    Balanced r.1.ref r.2.calls := by
  rw [btreeLookup_eq, Option.bind_eq_some_iff] at hr
  obtain ⟨q, hq, hr⟩ := hr
  have hmoves := path_movesRef outcomes type target _ hq
  intro addr
  have hmove := hmoves addr
  have hstart : takes addr (q.calls ++ [.get rootAddr true]) =
      releases addr (q.calls ++ [.get rootAddr true]) + if q.addr = addr then 1 else 0 := by
    have hget := takes_get addr rootAddr true []
    have hnone : takes addr [] = 0 ∧ releases addr [] = 0 := ⟨rfl, rfl⟩
    rw [takes_append, releases_append, hget.1, hget.2]
    omega
  have hrelease := takes_release type addr q.addr q.isWarm (q.calls ++ [.get rootAddr true])
  rw [Path.after_after, List.append_nil, settle] at hr
  dsimp only [Path.after] at hr
  by_cases hfound : ((q.pages q.addr).findTuple target).2 = true
  · simp only [hfound, if_true, Option.map_eq_some_iff] at hr
    obtain ⟨entry, -, rfl⟩ := hr
    by_cases hkind : kind = .withRef
    · simp only [hkind, if_true, Option.some.injEq]
      exact hstart
    · simp only [hkind, if_false, reduceCtorEq]
      rw [hrelease.1, hrelease.2]
      exact hstart
  · simp only [hfound, Bool.false_eq_true, if_false, Option.some.injEq] at hr
    rw [← hr]
    simp only [reduceCtorEq, if_false]
    rw [hrelease.1, hrelease.2]
    exact hstart

/-! ## The first call -/

private theorem startTurn_label (label : Label) (st : AsyncLookup) (s : Reader K) :
    startTurn outcomes type target { st with label := label } s =
      (startTurn outcomes type target st s).map fun r => ({ r.1 with label := label }, r.2) := by
  rw [startTurn, startTurn]
  dsimp only
  cases (s.pages st.node).getIndexEntry ((s.pages st.node).childIndex target) <;> rfl

theorem nodeLoop_label (label : Label) (n pages : Nat) (st : AsyncLookup) (s : Reader K) :
    nodeLoop outcomes type target n pages { st with label := label } s =
      nodeLoop outcomes type target n pages st s := by
  induction n generalizing pages st s with
  | zero => rfl
  | succ n ih =>
      rw [nodeLoop, nodeLoop, startTurn_label]
      cases startTurn outcomes type target st s with
      | none => rfl
      | some r =>
          cases pages with
          | zero => rfl
          | succ pages =>
              exact ih pages (finishTurn type st.isWarm r.1 r.2).1
                (finishTurn type st.isWarm r.1 r.2).2

def AsyncLookup.atRoot (result : Option Message) : AsyncLookup :=
  ⟨.awaiting, .awaiting, .root, 0, rootAddr, 0, 0, false, true, false, none, .ok (), result⟩

theorem firstCall_eq (result : Option Message) (resume : Resume) (s : Reader K) :
    btreeLookupAsync outcomes type kind merge rootAddr target resume (.start result) s =
      btreeLookupAsync outcomes type kind merge rootAddr target resume (.atRoot rootAddr result)
        s := by
  have hpoll : pollRoot outcomes type target resume.pages
      { AsyncLookup.atRoot rootAddr result with label := .init } s =
        pollRoot outcomes type target resume.pages (.atRoot rootAddr result) s := by
    cases resume.pages with
    | zero => rfl
    | succ pages =>
        exact nodeLoop_label outcomes type target .init ((s.pages rootAddr).height - 0) pages
          { AsyncLookup.atRoot rootAddr result with h := (s.pages rootAddr).height }
          { s with calls := .get rootAddr true :: s.calls }
  have hinner : btreeLookupWithRefAsync outcomes type rootAddr target resume
      { AsyncLookup.start result with inner := .init, outer := .awaiting } s =
        btreeLookupWithRefAsync outcomes type rootAddr target resume (.atRoot rootAddr result) s := by
    change (pollRoot outcomes type target resume.pages
      { AsyncLookup.atRoot rootAddr result with label := .init } s).bind _ = _
    rw [hpoll]
    rfl
  change (btreeLookupWithRefAsync outcomes type rootAddr target resume
    { AsyncLookup.start result with inner := .init, outer := .awaiting } s).map _ = _
  rw [hinner]
  rfl

private theorem run_start (result : Option Message) (schedule : List Resume) (s : Reader K)
    (hcalls : schedule ≠ []) :
    runCalls outcomes type kind merge rootAddr target schedule (.start result) s =
        runCalls outcomes type kind merge rootAddr target schedule (.atRoot rootAddr result) s ∧
      (SlotsHold outcomes type kind merge rootAddr target schedule (.start result) s ↔
        SlotsHold outcomes type kind merge rootAddr target schedule (.atRoot rootAddr result) s) := by
  cases schedule with
  | nil => exact absurd rfl hcalls
  | cons resume schedule =>
      refine ⟨by rw [runCalls, runCalls, firstCall_eq], ?_⟩
      rw [SlotsHold, SlotsHold, firstCall_eq]
      refine and_congr_left fun _ => iff_of_true (fun _ hlabel => ?_) (fun _ hlabel => ?_)
      · exact Label.noConfusion hlabel
      · exact Label.noConfusion hlabel

/-! ## The two lookups -/

/-- **The two lookups agree**: the asynchronous one ends with the same status, message and
accumulator, has changed the pages in the same way, has asked the same of the cache, and has given
back every page but for the leaf it may keep. -/
def LookupsAgree (cfg : Config K) (result : Option Message) (schedule : List Resume)
    (pages : Addr → Page K) : Prop :=
  ∃ r st u, btreeLookup cfg outcomes type kind merge rootAddr target result ⟨pages, []⟩ = some r ∧
    runCalls outcomes type kind merge rootAddr target schedule (.start result) ⟨pages, []⟩ =
      some (st, u) ∧
    st.outer = .done ∧ st.outcome kind = r.1 ∧ u.pages = r.2.pages ∧ u.calls = r.2.calls ∧
    Balanced r.1.ref u.calls

theorem lookups_settle (cfg : Config K) (result : Option Message) (schedule : List Resume)
    {pages : Addr → Page K} (hshape : Shaped pages (pages rootAddr).height rootAddr)
    (henough : (pages rootAddr).height < (schedule.map Resume.pages).sum) :
    ∃ r st u, btreeLookup cfg outcomes type kind merge rootAddr target result ⟨pages, []⟩ = some r ∧
      runCalls outcomes type kind merge rootAddr target schedule (.start result) ⟨pages, []⟩ =
        some (st, u) ∧
      st.outer = .done ∧ st.outcome kind = r.1 ∧ u.pages = r.2.pages ∧
      (u.calls = r.2.calls ↔
        SlotsHold outcomes type kind merge rootAddr target schedule (.start result) ⟨pages, []⟩) := by
  have hroot : Shaped pages (0 + ((pages rootAddr).height - 0)) rootAddr := by
    rw [Nat.sub_zero, Nat.zero_add]
    exact hshape
  obtain ⟨q, hq, -, -⟩ := hroot.exists_path outcomes type target _ true
  have hrun : Running outcomes type rootAddr target result (.atRoot rootAddr result)
      (⟨pages, []⟩ : Reader K) (q.after [.get rootAddr true]) :=
    ⟨rfl, rfl, rfl, rfl, ⟨rfl, rfl, q, hq, rfl⟩, Nat.succ_pos _⟩
  obtain ⟨st, u, p, asked, due, hcalls, houter, hpath, hlength, hslots, hsettle⟩ :=
    runCalls_spec outcomes type kind merge rootAddr target schedule hrun (by
      change (pages rootAddr).height - 0 + 1 ≤ _
      omega)
  have hcalls' : schedule ≠ [] := by
    rintro rfl
    exact absurd henough (Nat.not_lt_zero _)
  obtain ⟨r, hr, -⟩ := exists_settle type kind merge target result p
  rw [settle_after, hr, Option.map_some, Option.some.injEq, Prod.mk.injEq] at hsettle
  have hu : u = ⟨r.2.pages, r.2.calls ++ asked⟩ := by
    rw [← hsettle.2, List.append_nil]
  subst hu
  refine ⟨(r.1, ⟨r.2.pages, r.2.calls ++ due⟩), st, ⟨r.2.pages, r.2.calls ++ asked⟩, ?_, ?_, houter,
    hsettle.1.symm, rfl, ?_⟩
  · rw [btreeLookup_eq, hq, Option.bind_some, hpath, Path.after_nil, settle_after, hr]
    rfl
  · rw [← hcalls, (run_start outcomes type kind merge rootAddr target result schedule _ hcalls').1]
  · rw [(run_start outcomes type kind merge rootAddr target result schedule _ hcalls').2, ← hslots,
      List.append_cancel_left_eq]

/-- **The exact condition.**  For every well-shaped tree, key, cache, accumulator and sequence of
calls that finds enough pages, wherever it yields, the two lookups agree if and only if no call
finds a wrong warmth in its stack slot when it goes on with a page of a branch. -/
theorem asyncLookup_agrees_iff (cfg : Config K) (result : Option Message) (schedule : List Resume)
    {pages : Addr → Page K} (hshape : Shaped pages (pages rootAddr).height rootAddr)
    (henough : (pages rootAddr).height < (schedule.map Resume.pages).sum) :
    LookupsAgree outcomes type kind merge rootAddr target cfg result schedule pages ↔
      SlotsHold outcomes type kind merge rootAddr target schedule (.start result) ⟨pages, []⟩ := by
  obtain ⟨r, st, u, hsync, hasync, houter, houtcome, hpages, hslots⟩ :=
    lookups_settle outcomes type kind merge rootAddr target cfg result schedule hshape henough
  rw [← hslots]
  constructor
  · rintro ⟨r', st', u', hsync', hasync', -, -, -, hcalls, -⟩
    rw [hsync, Option.some.injEq] at hsync'
    rw [hasync, Option.some.injEq, Prod.mk.injEq] at hasync'
    rw [hasync'.2, hsync']
    exact hcalls
  · intro hcalls
    refine ⟨r, st, u, hsync, hasync, houter, houtcome, hpages, hcalls, ?_⟩
    rw [hcalls]
    exact btreeLookup_balanced outcomes type kind merge rootAddr target cfg result hsync

/-! ## A tree of two nodes -/

section TwoNodes

private def twoNodesCfg : Config Nat := ⟨4096, fun _ => 8⟩

private def twoNodes : Addr → Page Nat := fun addr =>
  if addr = 0x1000 then
    ⟨0, 0, 0, 0, 1, 4073, [⟨4073, .index ⟨⟨0x2000, pivotStatsUnknown⟩, ⊥⟩⟩]⟩
  else
    ⟨0, 0, 0, 0, 0, 4081, [⟨4081, .leaf ⟨7, ⟨.insert, [1]⟩⟩⟩]⟩

/-- Nothing is in the cache, and it is too early to call a page cold. -/
private def allWarm : LookupOutcomes := ⟨fun _ => false, fun _ => ⟨true, 0, 0, 0, false, 0, fun _ => false⟩⟩

private def enoughMemory : MergeOutcomes := ⟨true, fun old _ => some old⟩

private theorem twoNodes_shaped : Shaped twoNodes (twoNodes 0x1000).height 0x1000 := by
  refine ⟨rfl, List.cons_ne_nil _ _, fun slot hslot => ?_⟩
  rw [List.mem_singleton.mp hslot]
  refine ⟨_, rfl, rfl, fun slot' hslot' => ?_⟩
  rw [List.mem_singleton.mp hslot']
  exact ⟨_, rfl⟩

/-- A lookup that yields once, for the root. -/
theorem lookups_agree_after_yield :
    LookupsAgree allWarm .branch .lookup enoughMemory 0x1000 (Key.user 7) twoNodesCfg none
      [⟨0, false⟩, ⟨2, false⟩] twoNodes := by
  refine (asyncLookup_agrees_iff allWarm .branch .lookup enoughMemory 0x1000 (Key.user 7)
    twoNodesCfg none [⟨0, false⟩, ⟨2, false⟩] twoNodes_shaped (by decide)).mpr ?_
  refine ⟨fun _ hlabel => Label.noConfusion hlabel, fun r hr => ?_⟩
  cases hr
  exact ⟨fun _ hlabel => Label.noConfusion hlabel, fun _ _ => trivial⟩

/-- **A warm root is given back as a cold one.**  The lookup yields for the leaf, and the next call
finds 0 in its stack slot. -/
theorem lookup_forgets_warmth :
    ¬ LookupsAgree allWarm .branch .lookup enoughMemory 0x1000 (Key.user 7) twoNodesCfg none
      [⟨1, false⟩, ⟨1, false⟩] twoNodes := by
  rintro ⟨r, st, u, hsync, hasync, -, -, -, hcalls, -⟩
  have hwarm : (btreeLookup twoNodesCfg allWarm .branch .lookup enoughMemory 0x1000 (Key.user 7) none
      ⟨twoNodes, []⟩).map (fun r => r.2.calls) =
        some [.unget 0x2000, .unget 0x1000, .get 0x2000 true, .get 0x1000 true] := by
    decide +kernel
  have hcold : (runCalls allWarm .branch .lookup enoughMemory 0x1000 (Key.user 7)
      [⟨1, false⟩, ⟨1, false⟩] (.start none) ⟨twoNodes, []⟩).map (fun r => r.2.calls) =
        some [.unget 0x2000, .ungetCold 0x1000, .get 0x2000 true, .get 0x1000 true] := by
    decide +kernel
  rw [hsync, Option.map_some, Option.some.injEq] at hwarm
  rw [hasync, Option.map_some, Option.some.injEq, hcalls, hwarm] at hcold
  revert hcold
  decide

end TwoNodes
end Btree
end TreePass
