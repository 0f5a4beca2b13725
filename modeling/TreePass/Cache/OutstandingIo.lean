import TreePass.Cache.Mapping

/-!
# Outstanding requests

A page that is in writeback or being loaded belongs to a request that has been issued and has not
completed.  So when all requests have completed, no page is in writeback and none is being loaded.

* `IoInv` is the invariant; in the middle of an operation some frames are about to be put into a
  request.
* `KeepsIo` relates the states before and after a part of an operation that keeps it.
* `run_keeps`: every operation keeps it, and so it holds after every sequence of operations.
-/

namespace TreePass
namespace Cache

open Lib Lib.System Lib.Program

/-! ## The invariant -/

def AtHome (cc : TreePassCache) (e : Nat) : Prop :=
  ∃ addr, (cc.entry e).diskAddr = some addr ∧ cc.lookupAddr addr = some e

/-- **The invariant of requests.**  `reads` are frames whose load has not been issued yet, and
`writes` frames whose write has not. -/
structure IoInv (reads writes : List Nat) (s : CacheState) : Prop where
  writeback : ∀ e, (s.frames.entry e).has .writeback = true → AtHome s.frames e →
    e ∈ writes ∨ ∃ request ∈ s.requests, e ∈ request.writes
  loading : ∀ e, (s.frames.entry e).has .loading = true →
    e ∈ reads ∨ ∃ request ∈ s.requests, e ∈ request.reads

theorem IoInv.mono {reads reads' writes writes' : List Nat} {s : CacheState}
    (h : IoInv reads writes s) (hreads : ∀ e ∈ reads, e ∈ reads')
    (hwrites : ∀ e ∈ writes, e ∈ writes') : IoInv reads' writes' s where
  writeback := fun e he hhome => (h.writeback e he hhome).imp_left (hwrites e)
  loading := fun e he => (h.loading e he).imp_left (hreads e)

def KeepsIo (s s' : CacheState) : Prop := ∀ reads writes, IoInv reads writes s → IoInv reads writes s'

theorem KeepsIo.refl (s : CacheState) : KeepsIo s s := fun _ _ h => h

theorem KeepsIo.trans {s s' s'' : CacheState} (h : KeepsIo s s') (h' : KeepsIo s' s'') : KeepsIo s s'' :=
  fun reads writes hs => h' reads writes (h reads writes hs)

/-! ## Frames -/

/-- A change of a frame that starts no request. -/
structure Entry.Calm (e e' : Entry) : Prop where
  writeback : e'.has .writeback = true → e.has .writeback = true ∧ e'.diskAddr = e.diskAddr
  loading : e'.has .loading = true → e.has .loading = true

theorem calm_refl (e : Entry) : e.Calm e := ⟨fun h => ⟨h, rfl⟩, id⟩

theorem Entry.Calm.trans {e e' e'' : Entry} (h : e.Calm e') (h' : e'.Calm e'') : e.Calm e'' where
  writeback := fun hw =>
    ⟨(h.writeback (h'.writeback hw).1).1,
      (h'.writeback hw).2.trans (h.writeback (h'.writeback hw).1).2⟩
  loading := fun hl => h.loading (h'.loading hl)

theorem calm_setStatus {e : Entry} {status : EntryStatus}
    (hwriteback : testFlag status Flag.writeback.mask = true → e.has .writeback = true)
    (hloading : testFlag status Flag.loading.mask = true → e.has .loading = true) :
    e.Calm (e.setStatus status) :=
  ⟨fun h => ⟨hwriteback h, rfl⟩, hloading⟩

theorem calm_of_flags {e e' : Entry} (hwriteback : e'.has .writeback = false)
    (hloading : e'.has .loading = false) : e.Calm e' := by
  constructor
  · intro h
    rw [hwriteback] at h
    cases h
  · intro h
    rw [hloading] at h
    cases h

theorem calm_setFlag (e : Entry) {f : Flag} (hw : f ≠ .writeback) (hl : f ≠ .loading) :
    e.Calm (e.setStatus (setFlag e.status f.mask)) := by
  apply calm_setStatus
  · rw [testFlag_setFlag]
    simp [hw, Entry.has]
  · rw [testFlag_setFlag]
    simp [hl, Entry.has]

theorem calm_clearFlag (e : Entry) (f : Flag) :
    e.Calm (e.setStatus (clearFlag e.status f.mask)) := by
  apply calm_setStatus
  · rw [testFlag_clearFlag, Bool.and_eq_true]
    exact fun h => h.1
  · rw [testFlag_clearFlag, Bool.and_eq_true]
    exact fun h => h.1

theorem calm_withClock (e : Entry) (value : EntryStatus) :
    e.Calm (e.setStatus (withClock e.status value)) := by
  have hflag : ∀ f : Flag, testFlag (withClock e.status value) f.mask = e.has f := fun f =>
    testFlag_congr (flagBits_withClock e.status value) f
  apply calm_setStatus
  · rw [hflag]
    exact id
  · rw [hflag]
    exact id

theorem calm_subTick (e : Entry) : e.Calm (e.setStatus (e.status - tpClockOne)) := by
  apply calm_setStatus
  · rw [testFlag_sub]
    exact id
  · rw [testFlag_sub]
    exact id

theorem calm_setClockAccessed (e : Entry) : e.Calm (e.setStatus (setClockAccessed e.status)) := by
  unfold setClockAccessed
  split
  · apply calm_setStatus
    · rw [testFlag_add]
      exact id
    · rw [testFlag_add]
      exact id
  · exact calm_refl e

theorem calm_incRef (e : Entry) (tid : Nat) : e.Calm (e.incRef tid) := ⟨fun h => ⟨h, rfl⟩, id⟩

theorem calm_decRef (e : Entry) (tid : Nat) : e.Calm (e.decRef tid) := ⟨fun h => ⟨h, rfl⟩, id⟩

theorem calm_pincount (e : Entry) (pincount : Nat) : e.Calm { e with pincount := pincount } :=
  ⟨fun h => ⟨h, rfl⟩, id⟩

theorem calm_entryTime (e : Entry) (entryTime : Nat) : e.Calm { e with entryTime := entryTime } :=
  ⟨fun h => ⟨h, rfl⟩, id⟩

theorem calm_finishLoad (e : Entry) : e.Calm e.finishLoad := calm_clearFlag e .loading

theorem calm_freed (e : Entry) {e' : Entry} (h : e'.status = tpFreeStatus) : e.Calm e' := by
  apply calm_of_flags
  · rw [Entry.has, h, testFlag_freeStatus]
    decide
  · rw [Entry.has, h, testFlag_freeStatus]
    decide

theorem calm_tryGetRead (e : Entry) (tid : Nat) (setAccess : Bool) :
    e.Calm (tryGetRead e tid setAccess).2 := by
  unfold tryGetRead
  split
  · exact calm_refl e
  · dsimp only
    split
    · split
      · exact (calm_incRef e tid).trans (calm_setClockAccessed _)
      · exact calm_incRef e tid
    · split
      · exact (calm_incRef e tid).trans (calm_decRef _ _)
      · exact (calm_incRef e tid).trans (calm_decRef _ _)

theorem calm_tryGetClaim (e : Entry) : e.Calm (tryGetClaim e).2 := by
  have hset : e.Calm (e.setStatus (setFlag e.status tpClaimed)) :=
    calm_setFlag e (f := .claimed) (by decide) (by decide)
  unfold tryGetClaim
  split
  · exact hset
  · exact hset

theorem calm_tryGetWrite (e : Entry) (tid : Nat) : e.Calm (tryGetWrite e tid).2 := by
  have hset : e.Calm (e.setStatus (setFlag e.status tpWritelocked)) :=
    calm_setFlag e (f := .writelocked) (by decide) (by decide)
  unfold tryGetWrite
  dsimp only
  split
  · exact hset.trans (calm_clearFlag _ .writelocked)
  · split
    · exact hset
    · exact hset.trans (calm_clearFlag _ .writelocked)

/-- Frames that change without a request. -/
structure FramesCalm (cc cc' : TreePassCache) : Prop where
  writeback : ∀ e, (cc'.entry e).has .writeback = true → AtHome cc' e →
    (cc.entry e).has .writeback = true ∧ AtHome cc e
  loading : ∀ e, (cc'.entry e).has .loading = true → (cc.entry e).has .loading = true

theorem FramesCalm.refl (cc : TreePassCache) : FramesCalm cc cc :=
  ⟨fun _ h hhome => ⟨h, hhome⟩, fun _ h => h⟩

theorem FramesCalm.trans {cc cc' cc'' : TreePassCache} (h : FramesCalm cc cc')
    (h' : FramesCalm cc' cc'') : FramesCalm cc cc'' where
  writeback := fun e hw hhome =>
    h.writeback e (h'.writeback e hw hhome).1 (h'.writeback e hw hhome).2
  loading := fun e hl => h.loading e (h'.loading e hl)

theorem framesCalm_setEntry {cc : TreePassCache} {n : Nat} {e' : Entry}
    (h : (cc.entry n).Calm e') : FramesCalm cc (cc.setEntry n e') := by
  constructor
  · rintro e hw ⟨addr, haddr, hhome⟩
    change (Function.update cc.entry n e' e).has .writeback = true at hw
    change (Function.update cc.entry n e' e).diskAddr = some addr at haddr
    by_cases he : e = n
    · subst he
      rw [Function.update_self] at hw haddr
      obtain ⟨hbefore, hsame⟩ := h.writeback hw
      exact ⟨hbefore, addr, hsame.symm.trans haddr, hhome⟩
    · rw [Function.update_of_ne he] at hw haddr
      exact ⟨hw, addr, haddr, hhome⟩
  · intro e hl
    change (Function.update cc.entry n e' e).has .loading = true at hl
    by_cases he : e = n
    · subst he
      rw [Function.update_self] at hl
      exact h.loading hl
    · rw [Function.update_of_ne he] at hl
      exact hl

theorem framesCalm_unmap (cc : TreePassCache) (addr : Nat) :
    FramesCalm cc (cc.setLookup addr none) := by
  refine ⟨?_, fun _ h => h⟩
  rintro e hw ⟨addr', haddr, hhome⟩
  refine ⟨hw, addr', haddr, ?_⟩
  change Function.update cc.lookup (addr >>> cc.logPageSize) none (addr' >>> cc.logPageSize) = some e
    at hhome
  by_cases hsame : addr' >>> cc.logPageSize = addr >>> cc.logPageSize
  · rw [hsame, Function.update_self] at hhome
    cases hhome
  · rw [Function.update_of_ne hsame] at hhome
    exact hhome

theorem framesCalm_map {cc : TreePassCache} (addr : Nat) {n : Nat}
    (hn : (cc.entry n).has .writeback = false) : FramesCalm cc (cc.setLookup addr (some n)) := by
  refine ⟨?_, fun _ h => h⟩
  rintro e hw ⟨addr', haddr, hhome⟩
  refine ⟨hw, addr', haddr, ?_⟩
  change Function.update cc.lookup (addr >>> cc.logPageSize) (some n) (addr' >>> cc.logPageSize) =
    some e at hhome
  by_cases hsame : addr' >>> cc.logPageSize = addr >>> cc.logPageSize
  · rw [hsame, Function.update_self] at hhome
    obtain rfl := Option.some.inj hhome
    change (cc.entry n).has .writeback = true at hw
    rw [hn] at hw
    cases hw
  · rw [Function.update_of_ne hsame] at hhome
    exact hhome

theorem lockRel_calm (tid : Nat) : LockRel tid Entry.Calm where
  refl := calm_refl
  trans := fun _ _ _ h h' => h.trans h'
  tick := calm_subTick
  read := fun e => calm_tryGetRead e tid false
  claim := calm_tryGetClaim
  write := fun e => calm_tryGetWrite e tid
  unclaim := fun e => calm_clearFlag e .claimed
  unlock := fun e => calm_clearFlag e .writelocked
  unget := fun e => calm_decRef e tid

theorem tryEvict_calm (cc : TreePassCache) (n tid : Nat) (eePass : Bool) :
    FramesCalm cc (tryEvict cc n tid eePass).2 := by
  rcases tryEvict_cases (lockRel_calm tid) cc n eePass with ⟨e, hcalm, heq⟩ | ⟨e, -, -, heq⟩
  · rw [heq]
    exact framesCalm_setEntry hcalm
  · -- The page leaves: the map forgets it, and its frame is free.
    rw [heq]
    unfold freeEntry
    cases e.diskAddr with
    | none =>
        exact (framesCalm_setEntry (calm_freed _ rfl)).trans (framesCalm_setEntry (calm_freed _ rfl))
    | some addr =>
        exact ((framesCalm_unmap cc addr).trans (framesCalm_setEntry (calm_freed _ rfl))).trans
          (framesCalm_setEntry (calm_freed _ rfl))

/-! ## Programs -/

section Programs

variable {α β : Type}

theorem keeps_of_calm {s s' : CacheState} (hrequests : s'.requests = s.requests)
    (hcalm : FramesCalm s.frames s'.frames) : KeepsIo s s' := by
  intro reads writes h
  constructor
  · intro e hw hhome
    obtain ⟨hw', hhome'⟩ := hcalm.writeback e hw hhome
    rw [hrequests]
    exact h.writeback e hw' hhome'
  · intro e hl
    rw [hrequests]
    exact h.loading e (hcalm.loading e hl)

theorem keeps_setFrames {s : CacheState} {cc : TreePassCache} (h : FramesCalm s.frames cc) :
    KeepsIo s (s.setFrames cc) :=
  keeps_of_calm rfl h

theorem keeps_pure (a : α) : Steps KeepsIo (pure a : CacheM α) := Steps.pure KeepsIo.refl a

theorem keeps_bind {m : CacheM α} {f : α → CacheM β} (hm : Steps KeepsIo m)
    (hf : ∀ a, Steps KeepsIo (f a)) : Steps KeepsIo (m >>= f) :=
  Steps.bind (R := KeepsIo) (fun _ _ _ h h' => KeepsIo.trans h h') hm hf

theorem keeps_forM {γ : Type} {f : γ → CacheM PUnit} {xs : List γ}
    (hf : ∀ x ∈ xs, Steps KeepsIo (f x)) : Steps KeepsIo (xs.forM f) :=
  Steps.forM KeepsIo.refl (fun _ _ _ h h' => KeepsIo.trans h h') hf

theorem keeps_modifyEntry {f : Entry → Entry} (hf : ∀ e : Entry, e.Calm (f e)) (n : Nat) :
    Steps KeepsIo (modifyEntry n f) :=
  Steps.modify fun s => keeps_of_calm rfl (framesCalm_setEntry (hf (s.frames.entry n)))

theorem keeps_onEntry {helper : Entry → GetRc × Entry} (hhelper : ∀ e : Entry, e.Calm (helper e).2)
    (n : Nat) : Steps KeepsIo (onEntry n helper) := by
  intro s rc s' h
  obtain ⟨-, rfl⟩ := onEntry_spec h
  exact keeps_of_calm rfl (framesCalm_setEntry (hhelper _))

theorem keeps_tryGetRead (n tid : Nat) (setAccess : Bool) :
    Steps KeepsIo (onEntry n fun e => tryGetRead e tid setAccess) :=
  keeps_onEntry (fun e => calm_tryGetRead e tid setAccess) n

theorem keeps_decRef (n tid : Nat) : Steps KeepsIo (modifyEntry n (·.decRef tid)) :=
  keeps_modifyEntry (fun e => calm_decRef e tid) n

theorem keeps_unmap (addr : Nat) : Steps KeepsIo (storeLookup addr none) :=
  Steps.modify fun s => keeps_of_calm rfl (framesCalm_unmap s.frames addr)

end Programs

/-! ## Completed requests -/

theorem written_flags (numPasses : Nat) (e : Entry) :
    (e.written numPasses).has .writeback = false ∧ (e.written numPasses).has .clean = true := by
  have hflags : ∀ f : Flag, testFlag (clearFlag (setFlag e.status tpClean) tpWriteback) f.mask =
      ((e.has f || decide (Flag.clean = f)) && !decide (Flag.writeback = f)) := fun f =>
    (testFlag_clearFlag _ .writeback f).trans (congrArg (· && _) (testFlag_setFlag e.status .clean f))
  unfold Entry.written
  dsimp only
  split
  · have hclock : ∀ f : Flag, ∀ status, testFlag (withClock status 0) f.mask =
        testFlag status f.mask := fun f status => testFlag_congr (flagBits_withClock status 0) f
    constructor
    · rw [has_setStatus, hclock]
      exact (hflags .writeback).trans (by simp)
    · rw [has_setStatus, hclock]
      exact (hflags .clean).trans (by simp)
  · constructor
    · exact (hflags .writeback).trans (by simp)
    · exact (hflags .clean).trans (by simp)

theorem calm_written (numPasses : Nat) (e : Entry) : e.Calm (e.written numPasses) := by
  constructor
  · intro hw
    rw [(written_flags numPasses e).1] at hw
    cases hw
  · rw [(written_spec numPasses e).loading]
    exact id

theorem foldl_setEntry_of_mem (Q : Entry → Prop) {f : Entry → Entry} (hf : ∀ e, Q (f e))
    (entries : List Nat) : ∀ cc : TreePassCache, ∀ n ∈ entries,
      Q ((entries.foldl (fun cc e => cc.setEntry e (f (cc.entry e))) cc).entry n) := by
  induction entries with
  | nil =>
      intro cc n hn
      cases hn
  | cons e entries ih =>
      intro cc n hn
      rw [List.foldl_cons]
      by_cases hmem : n ∈ entries
      · exact ih _ n hmem
      · obtain rfl : n = e := (List.mem_cons.mp hn).resolve_right hmem
        have hrest := (foldl_setEntry (fun _ _ => True) (fun _ => trivial) (fun _ _ _ _ _ => trivial)
          (f := f) (fun _ => trivial) entries (cc.setEntry n (f (cc.entry n)))).2.2 n
        rw [hrest.2 hmem]
        show Q (Function.update cc.entry n (f (cc.entry n)) n)
        rw [Function.update_self]
        exact hf _

theorem framesCalm_of_calm {cc cc' : TreePassCache} (hlookup : cc'.lookup = cc.lookup)
    (hsize : cc'.logPageSize = cc.logPageSize) (h : ∀ e, (cc.entry e).Calm (cc'.entry e)) :
    FramesCalm cc cc' := by
  refine ⟨?_, fun e => (h e).loading⟩
  rintro e hw ⟨addr, haddr, hhome⟩
  obtain ⟨hbefore, hsame⟩ := (h e).writeback hw
  unfold TreePassCache.lookupAddr at hhome
  rw [hlookup, hsize] at hhome
  exact ⟨hbefore, addr, hsame.symm.trans haddr, hhome⟩

theorem callback_calm (now : Nat) (request : Request) (cc : TreePassCache) :
    FramesCalm cc (request.callback now cc) ∧
      (∀ e ∈ request.writes, ((request.callback now cc).entry e).has .writeback = false) ∧
      ∀ e ∈ request.reads, ((request.callback now cc).entry e).has .loading = false := by
  have hfinish : ∀ e : Entry, e.finishLoad.has .loading = false := fun e =>
    (testFlag_clearFlag e.status .loading .loading).trans (by simp)
  cases request with
  | write entries numPasses =>
      obtain ⟨hlookup, hsize, hentries⟩ := foldl_setEntry Entry.Calm calm_refl
        (fun _ _ _ h h' => h.trans h') (calm_written numPasses) entries cc
      refine ⟨framesCalm_of_calm hlookup hsize fun e => (hentries e).1, ?_, nofun⟩
      exact foldl_setEntry_of_mem (fun e => e.has .writeback = false)
        (fun e => (written_flags numPasses e).1) entries cc
  | prefetch entries =>
      obtain ⟨hlookup, hsize, hentries⟩ := foldl_setEntry Entry.Calm calm_refl
        (fun _ _ _ h h' => h.trans h') calm_finishLoad entries cc
      refine ⟨framesCalm_of_calm hlookup hsize fun e => (hentries e).1, nofun, ?_⟩
      exact foldl_setEntry_of_mem (fun e => e.has .loading = false) hfinish entries cc
  | load n type isWarm =>
      have hcalm : ∀ e : Entry, e.Calm
          (if setsEntryTime type isWarm then { e with entryTime := now } else e).finishLoad := by
        intro e
        split
        · exact (calm_entryTime e now).trans (calm_finishLoad _)
        · exact calm_finishLoad e
      refine ⟨framesCalm_setEntry (hcalm _), nofun, ?_⟩
      intro e he
      obtain rfl := List.mem_singleton.mp he
      show (Function.update cc.entry e _ e).has .loading = false
      rw [Function.update_self]
      exact hfinish _

theorem complete_keeps (c : Completion) : Steps KeepsIo (complete c) := by
  refine Steps.get_bind fun s u s' h => ?_
  split at h
  · rename_i hmem
    obtain rfl := modify_eq_some.mp h
    obtain ⟨hcalm, hwritten, hread⟩ := callback_calm c.now c.request s.frames
    intro reads writes hs
    constructor
    · intro e hw hhome
      obtain ⟨hw', hhome'⟩ := hcalm.writeback e hw hhome
      refine (hs.writeback e hw' hhome').imp_right ?_
      rintro ⟨request, hin, he⟩
      refine ⟨request, (List.mem_erase_of_ne ?_).mpr hin, he⟩
      rintro rfl
      have hdone := hwritten e he
      change ((c.request.callback c.now s.frames).entry e).has .writeback = true at hw
      rw [hdone] at hw
      cases hw
    · intro e hl
      refine (hs.loading e (hcalm.loading e hl)).imp_right ?_
      rintro ⟨request, hin, he⟩
      refine ⟨request, (List.mem_erase_of_ne ?_).mpr hin, he⟩
      rintro rfl
      have hdone := hread e he
      change ((c.request.callback c.now s.frames).entry e).has .loading = true at hl
      rw [hdone] at hl
      cases hl
  · exact (failure_eq_some.mp h).elim

theorem wait_keeps : Steps KeepsIo wait := by
  refine Steps.get_bind fun s u s' h => ?_
  cases hwaits : s.waits with
  | nil =>
      rw [hwaits] at h
      exact (failure_eq_some.mp h).elim
  | cons completions waits =>
      rw [hwaits] at h
      obtain ⟨_, s₁, hfirst, hrest⟩ := bind_eq_some.mp h
      obtain rfl := modify_eq_some.mp hfirst
      have hstart : KeepsIo s { s with waits := waits } :=
        keeps_of_calm rfl (FramesCalm.refl s.frames)
      have hall : Steps KeepsIo (completions.forM complete) :=
        keeps_forM fun c _ => complete_keeps c
      exact hstart.trans (hall _ _ _ hrest)

theorem waitWhile_keeps (flag : EntryStatus) (n fuel : Nat) : Steps KeepsIo (waitWhile flag n fuel) :=
  waitWhile_steps KeepsIo.refl (fun _ _ _ h h' => KeepsIo.trans h h') wait_keeps flag n fuel

/-! ## Requests that are issued -/

theorem issueWrite_keeps {numPasses : Nat} {entries reads writes : List Nat} {s s' : CacheState}
    {u : Unit} (h : IoInv reads (entries ++ writes) s)
    (hrun : issueRequest (fun entries => .write entries numPasses) entries s = some (u, s')) :
    IoInv reads writes s' := by
  unfold issueRequest at hrun
  split at hrun
  · rename_i hnil
    obtain ⟨-, rfl⟩ := pure_eq_some.mp hrun
    rw [hnil] at h
    exact h
  · obtain rfl := modify_eq_some.mp hrun
    constructor
    · intro e hw hhome
      rcases h.writeback e hw hhome with hmem | ⟨request, hin, he⟩
      · rcases List.mem_append.mp hmem with hnew | hold
        · exact Or.inr ⟨_, List.mem_append_right _ List.mem_cons_self, hnew⟩
        · exact Or.inl hold
      · exact Or.inr ⟨request, List.mem_append_left _ hin, he⟩
    · intro e hl
      refine (h.loading e hl).imp_right ?_
      rintro ⟨request, hin, he⟩
      exact ⟨request, List.mem_append_left _ hin, he⟩

theorem issueRead_keeps {request : Request} {reads writes : List Nat} {s : CacheState}
    (h : IoInv (request.reads ++ reads) writes s) :
    IoInv reads writes { s with requests := s.requests ++ [request] } := by
  constructor
  · intro e hw hhome
    refine (h.writeback e hw hhome).imp_right ?_
    rintro ⟨request', hin, he⟩
    exact ⟨request', List.mem_append_left _ hin, he⟩
  · intro e hl
    rcases h.loading e hl with hmem | ⟨request', hin, he⟩
    · rcases List.mem_append.mp hmem with hnew | hold
      · exact Or.inr ⟨request, List.mem_append_right _ List.mem_cons_self, hnew⟩
      · exact Or.inl hold
    · exact Or.inr ⟨request', List.mem_append_left _ hin, he⟩

/-! ## Writeback -/

section Writeback

variable {cfg : CacheConfig} {addr numPasses : Nat}

theorem trySetWriteback_marks (cc : TreePassCache) (n e : Nat)
    (h : ((trySetWriteback cc n numPasses).2.entry e).has .writeback = true) :
    (cc.entry e).has .writeback = true ∨ (trySetWriteback cc n numPasses).1 = true ∧ e = n := by
  unfold trySetWriteback at h ⊢
  dsimp only at h ⊢
  split at h
  · rename_i hok
    rw [if_pos hok]
    change (Function.update cc.entry n _ e).has .writeback = true at h
    by_cases he : e = n
    · exact Or.inr ⟨rfl, he⟩
    · rw [Function.update_of_ne he] at h
      exact Or.inl h
  · exact Or.inl h

theorem trySetWriteback_refused {cc : TreePassCache} {n : Nat}
    (hno : ¬ (trySetWriteback cc n numPasses).1 = true) (e : Nat)
    (h : ((trySetWriteback cc n numPasses).2.entry e).has .writeback = true) :
    (cc.entry e).has .writeback = true := by
  rcases trySetWriteback_marks cc n e h with hold | ⟨hyes, _⟩
  · exact hold
  · exact absurd hyes hno

theorem trySetWriteback_pageSize (cc : TreePassCache) (n : Nat) :
    (trySetWriteback cc n numPasses).2.pageSize = cc.pageSize := by
  obtain ⟨-, hsize, -⟩ := trySetWriteback_quiet cc n numPasses
  unfold TreePassCache.pageSize
  rw [hsize]

theorem trySetWriteback_lookupAddr (cc : TreePassCache) (n addr : Nat) :
    (trySetWriteback cc n numPasses).2.lookupAddr addr = cc.lookupAddr addr := by
  obtain ⟨hmap, hsize, -⟩ := trySetWriteback_quiet cc n numPasses
  unfold TreePassCache.lookupAddr
  rw [hmap, hsize]

theorem extendBackwards_marks (fuel : Nat) : ∀ (cc : TreePassCache) (firstAddr : Nat), ∃ steps,
    (extendBackwards cfg addr numPasses fuel cc firstAddr).2 + steps * cc.pageSize = firstAddr ∧
      ∀ e, ((extendBackwards cfg addr numPasses fuel cc firstAddr).1.entry e).has .writeback = true →
        (cc.entry e).has .writeback = true ∨ ∃ j < steps, cc.lookupAddr
          ((extendBackwards cfg addr numPasses fuel cc firstAddr).2 + j * cc.pageSize) = some e := by
  induction fuel with
  | zero => exact fun cc firstAddr => ⟨0, by simp [extendBackwards], fun e he => Or.inl he⟩
  | succ fuel ih =>
      intro cc firstAddr
      have hstay : ∀ result : TreePassCache × Nat, result = (cc, firstAddr) → ∃ steps,
          result.2 + steps * cc.pageSize = firstAddr ∧
            ∀ e, (result.1.entry e).has .writeback = true → (cc.entry e).has .writeback = true ∨
              ∃ j < steps, cc.lookupAddr (result.2 + j * cc.pageSize) = some e := by
        rintro result rfl
        exact ⟨0, by simp, fun e he => Or.inl he⟩
      unfold extendBackwards
      split
      · exact hstay _ rfl
      · rename_i hedge
        have hle : cc.pageSize ≤ firstAddr := by
          by_contra hlt
          exact hedge (by simp [Nat.lt_of_not_le hlt])
        cases hlookup : cc.lookupAddr (firstAddr - cc.pageSize) with
        | none => exact hstay _ rfl
        | some next =>
            dsimp only
            split
            · obtain ⟨steps, hend, hmarks⟩ :=
                ih (trySetWriteback cc next numPasses).2 (firstAddr - cc.pageSize)
              rw [trySetWriteback_pageSize] at hend hmarks
              refine ⟨steps + 1, ?_, ?_⟩
              · rw [Nat.add_mul, Nat.one_mul, ← Nat.add_assoc, hend]
                omega
              · intro e he
                rcases hmarks e he with hw | ⟨j, hj, hat⟩
                · rcases trySetWriteback_marks cc next e hw with hold | ⟨_, rfl⟩
                  · exact Or.inl hold
                  · refine Or.inr ⟨steps, Nat.lt_succ_self _, ?_⟩
                    rw [hend]
                    exact hlookup
                · rw [trySetWriteback_lookupAddr] at hat
                  exact Or.inr ⟨j, Nat.lt_succ_of_lt hj, hat⟩
            · rename_i hno
              exact ⟨0, by simp, fun e he => Or.inl (trySetWriteback_refused hno e he)⟩

theorem extendForwards_marks (fuel : Nat) : ∀ (cc : TreePassCache) (lastAddr : Nat), ∃ steps,
    (extendForwards cfg addr numPasses fuel cc lastAddr).2 =
        lastAddr + (steps + 1) * cc.pageSize ∧
      ∀ e, ((extendForwards cfg addr numPasses fuel cc lastAddr).1.entry e).has .writeback = true →
        (cc.entry e).has .writeback = true ∨
          ∃ j < steps, cc.lookupAddr (lastAddr + (j + 1) * cc.pageSize) = some e := by
  induction fuel with
  | zero =>
      intro cc lastAddr
      refine ⟨0, ?_, fun e he => Or.inl he⟩
      simp [extendForwards]
  | succ fuel ih =>
      intro cc lastAddr
      have hstay : ∀ result : TreePassCache × Nat, result = (cc, lastAddr + cc.pageSize) → ∃ steps,
          result.2 = lastAddr + (steps + 1) * cc.pageSize ∧
            ∀ e, (result.1.entry e).has .writeback = true → (cc.entry e).has .writeback = true ∨
              ∃ j < steps, cc.lookupAddr (lastAddr + (j + 1) * cc.pageSize) = some e := by
        rintro result rfl
        exact ⟨0, by simp, fun e he => Or.inl he⟩
      unfold extendForwards
      dsimp only
      split
      · exact hstay _ rfl
      · cases hlookup : cc.lookupAddr (lastAddr + cc.pageSize) with
        | none => exact hstay _ rfl
        | some next =>
            dsimp only
            split
            · obtain ⟨steps, hend, hmarks⟩ :=
                ih (trySetWriteback cc next numPasses).2 (lastAddr + cc.pageSize)
              have hshift : ∀ j, lastAddr + cc.pageSize + (j + 1) * cc.pageSize =
                  lastAddr + (j + 1 + 1) * cc.pageSize := by
                intro j
                rw [Nat.add_mul (j + 1) 1, Nat.one_mul, Nat.add_assoc,
                  Nat.add_comm cc.pageSize]
              rw [trySetWriteback_pageSize, hshift] at hend
              rw [trySetWriteback_pageSize] at hmarks
              refine ⟨steps + 1, hend, ?_⟩
              intro e he
              rcases hmarks e he with hw | ⟨j, hj, hat⟩
              · rcases trySetWriteback_marks cc next e hw with hold | ⟨_, rfl⟩
                · exact Or.inl hold
                · refine Or.inr ⟨0, Nat.succ_pos _, ?_⟩
                  rw [Nat.zero_add, Nat.one_mul]
                  exact hlookup
              · rw [trySetWriteback_lookupAddr, hshift] at hat
                exact Or.inr ⟨j + 1, Nat.succ_lt_succ hj, hat⟩
            · rename_i hno
              exact ⟨0, by simp, fun e he => Or.inl (trySetWriteback_refused hno e he)⟩

/-- **All pages that are put in writeback around an address are written**, and so is the page at the
address. -/
theorem writebackAround_marks (cc : TreePassCache) (e : Nat) :
    (((writebackAround cfg cc addr numPasses).1.entry e).has .writeback = true →
      (cc.entry e).has .writeback = true ∨ e ∈ (writebackAround cfg cc addr numPasses).2) ∧
    (cc.lookupAddr addr = some e → e ∈ (writebackAround cfg cc addr numPasses).2) := by
  obtain ⟨a, hback, hmarks⟩ := @extendBackwards_marks cfg addr numPasses cfg.pagesPerExtent cc addr
  obtain ⟨hmap, hsize, _⟩ := extendBackwards_quiet cfg addr numPasses cfg.pagesPerExtent cc addr
  unfold writebackAround
  dsimp only
  generalize extendBackwards cfg addr numPasses cfg.pagesPerExtent cc addr = before at *
  obtain ⟨b, hforw, hmarks'⟩ :=
    @extendForwards_marks cfg addr numPasses cfg.pagesPerExtent before.1 addr
  obtain ⟨hmap', hsize', _⟩ :=
    extendForwards_quiet cfg addr numPasses cfg.pagesPerExtent before.1 addr
  generalize extendForwards cfg addr numPasses cfg.pagesPerExtent before.1 addr = after at *
  have hpage : before.1.pageSize = cc.pageSize := by
    unfold TreePassCache.pageSize
    rw [hsize]
  have hlookup : ∀ addr', after.1.lookupAddr addr' = cc.lookupAddr addr' := by
    intro addr'
    unfold TreePassCache.lookupAddr
    rw [hmap', hmap, hsize', hsize]
  have hshift : ∀ i, i <<< cc.logPageSize = i * cc.pageSize := by
    intro i
    unfold TreePassCache.pageSize
    rw [Nat.shiftLeft_eq, Nat.one_shiftLeft]
  rw [hpage] at hforw hmarks'
  have hcount : (after.2 - before.2) >>> cc.logPageSize = a + b + 1 := by
    have hdiff : after.2 - before.2 = (a + b + 1) <<< cc.logPageSize := by
      have hsum : (a + b + 1) * cc.pageSize = a * cc.pageSize + (b + 1) * cc.pageSize := by
        rw [Nat.add_assoc, Nat.add_mul]
      rw [hshift, hsum, hforw, ← hback]
      omega
    rw [hdiff, Nat.shiftLeft_shiftRight]
  -- Every page between the ends is looked up for the write.
  have hin : ∀ j ≤ a + b, ∀ e, cc.lookupAddr (before.2 + j * cc.pageSize) = some e →
      e ∈ (List.range ((after.2 - before.2) >>> cc.logPageSize)).filterMap fun i =>
        after.1.lookupAddr (before.2 + i <<< cc.logPageSize) := by
    intro j hj e he
    rw [List.mem_filterMap]
    refine ⟨j, List.mem_range.mpr (by rw [hcount]; omega), ?_⟩
    rw [hlookup, hshift]
    exact he
  constructor
  · intro hw
    rcases hmarks' e hw with hbefore | ⟨j, hj, hat⟩
    · rcases hmarks e hbefore with hold | ⟨j, hj, hat⟩
      · exact Or.inl hold
      · exact Or.inr (hin j (by omega) e hat)
    · refine Or.inr (hin (a + (j + 1)) (by omega) e ?_)
      rw [Nat.add_mul, ← Nat.add_assoc, hback]
      unfold TreePassCache.lookupAddr at hat ⊢
      rw [hmap, hsize] at hat
      exact hat
  · intro hself
    refine hin a (by omega) e ?_
    rw [hback]
    exact hself

theorem startWriteback_keeps (n : Nat) : Steps KeepsIo (startWriteback cfg numPasses n) := by
  refine Steps.get_bind fun s u s' h => ?_
  dsimp only at h
  split at h
  · exact keeps_pure _ _ _ _ h
  · rw [modify_bind] at h
    intro reads writes hs
    obtain ⟨-, -, hquiet⟩ := trySetWriteback_quiet s.frames n numPasses
    -- What is at home has been there before.
    have hhome₁ : ∀ e, AtHome (trySetWriteback s.frames n numPasses).2 e → AtHome s.frames e := by
      rintro e ⟨addr, haddr, hat⟩
      rw [trySetWriteback_lookupAddr] at hat
      exact ⟨addr, (hquiet e).addr.symm.trans haddr, hat⟩
    cases haddr : (s.frames.entry n).diskAddr with
    | none =>
        rw [haddr] at h
        obtain ⟨-, rfl⟩ := pure_eq_some.mp h
        constructor
        · intro e hw hhome
          rcases trySetWriteback_marks s.frames n e hw with hold | ⟨_, rfl⟩
          · exact hs.writeback e hold (hhome₁ e hhome)
          · obtain ⟨addr, haddr', _⟩ := hhome₁ e hhome
            rw [haddr] at haddr'
            cases haddr'
        · intro e hl
          exact hs.loading e ((hquiet e).loading.symm.trans hl)
    | some addr =>
        rw [haddr] at h
        dsimp only at h
        split at h
        · rw [modify_bind] at h
          obtain ⟨hmap₂, hsize₂, hquiet₂⟩ :=
            writebackAround_quiet cfg (trySetWriteback s.frames n numPasses).2 addr numPasses
          have hmarks := @writebackAround_marks cfg addr numPasses
            (trySetWriteback s.frames n numPasses).2
          refine issueWrite_keeps ?_ h
          constructor
          · rintro e hw ⟨addr', haddr', hat⟩
            have hhome : AtHome (trySetWriteback s.frames n numPasses).2 e := by
              refine ⟨addr', (hquiet₂ e).addr.symm.trans haddr', ?_⟩
              change (writebackAround _ _ _ _).1.lookup (_ >>> (writebackAround _ _ _ _).1.logPageSize) =
                some e at hat
              rw [hmap₂, hsize₂] at hat
              exact hat
            rcases (hmarks e).1 hw with hbefore | hmem
            · rcases trySetWriteback_marks s.frames n e hbefore with hold | ⟨_, rfl⟩
              · exact (hs.writeback e hold (hhome₁ e hhome)).imp_left (List.mem_append_right _)
              · -- The frame that starts the write is at home, so it is among those written.
                obtain ⟨addr'', haddr'', hat'⟩ := hhome
                have hsame := (hquiet e).addr.symm.trans haddr''
                rw [haddr] at hsame
                obtain rfl := Option.some.inj hsame
                exact Or.inl (List.mem_append_left _ ((hmarks e).2 hat'))
            · exact Or.inl (List.mem_append_left _ hmem)
          · intro e hl
            exact hs.loading e ((hquiet e).loading.symm.trans ((hquiet₂ e).loading.symm.trans hl))
        · rename_i hno
          obtain ⟨-, rfl⟩ := pure_eq_some.mp h
          constructor
          · intro e hw hhome
            exact hs.writeback e (trySetWriteback_refused hno e hw) (hhome₁ e hhome)
          · intro e hl
            exact hs.loading e ((hquiet e).loading.symm.trans hl)

end Writeback

/-! ## Eviction and the clock hand -/

theorem evict_keeps (tid : Nat) (eePass : Bool) (n : Nat) : Steps KeepsIo (evict tid eePass n) := by
  refine Steps.get_bind fun s evicted s' h => ?_
  rw [modify_bind] at h
  obtain ⟨-, rfl⟩ := pure_eq_some.mp h
  exact keeps_of_calm rfl (tryEvict_calm s.frames n tid eePass)

theorem handRel_keeps (cfg : CacheConfig) : HandRel cfg KeepsIo where
  refl := KeepsIo.refl
  trans := fun _ _ _ h h' => KeepsIo.trans h h'
  beside := fun _ _ hframes hrequests _ =>
    keeps_of_calm hrequests (by rw [hframes]; exact FramesCalm.refl _)
  evicts := evict_keeps
  writes := fun _ n => startWriteback_keeps n
  waits := wait_keeps

/-! ## The hunt for a free frame -/

def Grabs (n : Nat) (status : EntryStatus) (s s' : CacheState) : Prop :=
  (s'.frames.entry n).status = status ∧
    ∀ reads writes, IoInv reads writes s → IoInv (n :: reads) writes s'

theorem Grabs.after {n : Nat} {status : EntryStatus} {s s₁ s' : CacheState} (hfirst : KeepsIo s s₁)
    (h : Grabs n status s₁ s') : Grabs n status s s' :=
  ⟨h.1, fun reads writes hs => h.2 reads writes (hfirst reads writes hs)⟩

theorem Grabs.keeps {n : Nat} {status : EntryStatus} {s s₁ : CacheState} {cc : TreePassCache}
    (h : Grabs n status s s₁) (hcalm : FramesCalm s₁.frames cc)
    (hloading : (cc.entry n).has .loading = false) : KeepsIo s (s₁.setFrames cc) := by
  intro reads writes hs
  have hs' := keeps_setFrames hcalm _ _ (h.2 reads writes hs)
  refine ⟨hs'.writeback, fun e he => (hs'.loading e he).imp_left fun hmem => ?_⟩
  refine (List.mem_cons.mp hmem).resolve_left ?_
  rintro rfl
  change (cc.entry e).has .loading = true at he
  rw [hloading] at he
  cases he

theorem Grabs.pending {n : Nat} {status : EntryStatus} {s s₁ : CacheState} {cc : TreePassCache}
    (h : Grabs n status s s₁) (hcalm : FramesCalm s₁.frames cc) {reads writes : List Nat}
    (hs : IoInv reads writes s) : IoInv (n :: reads) writes (s₁.setFrames cc) :=
  keeps_setFrames hcalm _ _ (h.2 reads writes hs)

section Frames

variable {cfg : CacheConfig} {tid fuel addr : Nat} {status : EntryStatus} {type : PageType}
  {refcount : Bool}

theorem takeFrame_grabs {n m : Nat} {s s' : CacheState}
    (hwriteback : testFlag status Flag.writeback.mask = false)
    (h : takeFrame n tid status type refcount s = some (m, s')) : Grabs m status s s' := by
  obtain ⟨_, s₁, hmodify, hpure⟩ := bind_eq_some.mp h
  obtain ⟨rfl, rfl⟩ := pure_eq_some.mp hpure
  obtain rfl := modify_eq_some.mp hmodify
  refine ⟨by simp [CacheState.setFrames, TreePassCache.setEntry], fun reads writes hs => ?_⟩
  constructor
  · rintro e hw ⟨addr, haddr, hhome⟩
    change (Function.update s.frames.entry n _ e).has .writeback = true at hw
    change (Function.update s.frames.entry n _ e).diskAddr = some addr at haddr
    by_cases he : e = n
    · subst he
      rw [Function.update_self] at hw
      change testFlag status Flag.writeback.mask = true at hw
      rw [hwriteback] at hw
      cases hw
    · rw [Function.update_of_ne he] at hw haddr
      exact hs.writeback e hw ⟨addr, haddr, hhome⟩
  · intro e hl
    change (Function.update s.frames.entry n _ e).has .loading = true at hl
    by_cases he : e = n
    · exact Or.inl (List.mem_cons.mpr (Or.inl he))
    · rw [Function.update_of_ne he] at hl
      exact (hs.loading e hl).imp_left (List.mem_cons_of_mem n)

theorem getFreePage_grabs (hwriteback : testFlag status Flag.writeback.mask = false) {n : Nat}
    {s s' : CacheState} (h : getFreePage cfg tid fuel status type refcount s = some (n, s')) :
    Grabs n status s s' := by
  obtain ⟨s₁, m, hkeeps, -, htakes⟩ := (handRel_keeps cfg).getFreePage_takes h
  exact Grabs.after hkeeps (takeFrame_grabs hwriteback htakes)

theorem mapFrame_keeps {n entryTime : Nat} {s s₁ s' : CacheState} {u : Unit}
    (hwriteback : testFlag status Flag.writeback.mask = false)
    (hloading : testFlag status Flag.loading.mask = false) (h : Grabs n status s s₁)
    (hmap : mapFrame n addr type entryTime s₁ = some (u, s')) : KeepsIo s s' := by
  obtain ⟨_, s₂, hmodify, hstore⟩ := bind_eq_some.mp hmap
  obtain rfl := modify_eq_some.mp hmodify
  obtain rfl := modify_eq_some.mp hstore
  have hflag : ∀ f : Flag, testFlag status f.mask = false → Entry.has
      { s₁.frames.entry n with diskAddr := some addr, type := type, entryTime := entryTime } f =
        false := by
    intro f hf
    show testFlag (s₁.frames.entry n).status f.mask = false
    rw [h.1]
    exact hf
  refine h.keeps ((framesCalm_setEntry (calm_of_flags (hflag _ hwriteback)
    (hflag _ hloading))).trans (framesCalm_map addr ?_)) ?_
  · show (Function.update s₁.frames.entry n _ n).has .writeback = false
    rw [Function.update_self]
    exact hflag _ hwriteback
  · show (Function.update s₁.frames.entry n _ n).has .loading = false
    rw [Function.update_self]
    exact hflag _ hloading

end Frames

/-! ## Allocation, lookups and loads -/

section Gets

variable {cfg : CacheConfig} {tid ts now fuel addr : Nat} {type : PageType} {isWarm blocking : Bool}

theorem alloc_keeps : Steps KeepsIo (alloc cfg tid ts fuel addr type) := by
  intro s n s' h
  obtain ⟨m, s₁, htake, hrest⟩ := bind_eq_some.mp h
  split at hrest
  · exact (failure_eq_some.mp hrest).elim
  · obtain ⟨_, s₂, hmap, hpure⟩ := bind_eq_some.mp hrest
    obtain ⟨-, rfl⟩ := pure_eq_some.mp hpure
    exact mapFrame_keeps (by decide) (by decide) (getFreePage_grabs (by decide) htake) hmap

theorem allocCompactionHot_keeps : Steps KeepsIo (allocCompactionHot cfg tid now fuel addr type) := by
  intro s n s' h
  obtain ⟨m, s₁, htake, hrest⟩ := bind_eq_some.mp h
  obtain ⟨_, s₂, hmap, hpure⟩ := bind_eq_some.mp hrest
  obtain ⟨-, rfl⟩ := pure_eq_some.mp hpure
  exact mapFrame_keeps (by decide) (by decide) (getFreePage_grabs (by decide) htake) hmap

theorem finishGet_keeps (n : Nat) : Steps KeepsIo (finishGet tid ts addr type isWarm n) := by
  refine Steps.get_bind fun s result s' h => ?_
  dsimp only at h
  split at h
  · exact keeps_bind (keeps_decRef n tid) (fun _ => keeps_pure _) _ _ _ h
  · split at h
    · exact (failure_eq_some.mp h).elim
    · split at h
      · refine keeps_bind (keeps_modifyEntry (fun e => ?_) n) (fun _ => keeps_pure _) _ _ _ h
        exact calm_entryTime e ts
      · exact keeps_pure _ _ _ _ h

theorem getInCache_keeps (n : Nat) :
    Steps KeepsIo (getInCache tid ts fuel addr blocking type isWarm n) := by
  refine keeps_bind (keeps_tryGetRead n tid true) fun rc => ?_
  cases rc with
  | evicted => exact keeps_pure _
  | conflict => exact Steps.ite (fun _ => Steps.failure) fun _ => keeps_pure _
  | flushing => exact Steps.failure
  | success =>
      refine Steps.get_bind fun s result s' h => ?_
      split at h
      · exact keeps_bind (keeps_decRef n tid) (fun _ => keeps_pure _) _ _ _ h
      · exact keeps_bind (waitWhile_keeps _ _ _) (fun _ => finishGet_keeps n) _ _ _ h

theorem acquireEntryForLoad_grabs {s s' : CacheState} {result : Option Nat}
    (h : acquireEntryForLoad cfg tid fuel addr type s = some (result, s'))
    {reads writes : List Nat} (hs : IoInv reads writes s) :
    IoInv (result.toList ++ reads) writes s' ∧
      ∀ n, result = some n → (s'.frames.entry n).status = tpReadLoadingStatus := by
  have hwriteback : testFlag tpReadLoadingStatus Flag.writeback.mask = false := by decide
  obtain ⟨n, s₁, htake, hrest⟩ := bind_eq_some.mp h
  have htaken := getFreePage_grabs hwriteback htake
  have hfree : (s₁.frames.entry n).has .writeback = false := by
    unfold Entry.has
    rw [htaken.1]
    exact hwriteback
  rw [get_bind] at hrest
  split at hrest
  · -- The map leads to the frame, and then the frame has the address.
    obtain ⟨_, s₂, hstore, hrest⟩ := bind_eq_some.mp hrest
    obtain ⟨_, s₃, hmodify, hpure⟩ := bind_eq_some.mp hrest
    obtain ⟨rfl, rfl⟩ := pure_eq_some.mp hpure
    obtain rfl := modify_eq_some.mp hstore
    obtain rfl := modify_eq_some.mp hmodify
    constructor
    · refine htaken.pending ((framesCalm_map addr hfree).trans (framesCalm_setEntry ?_)) hs
      constructor
      · intro hw
        change (s₁.frames.entry n).has .writeback = true at hw
        rw [hfree] at hw
        cases hw
      · exact id
    · rintro m hm
      obtain rfl := Option.some.inj hm
      show (Function.update s₁.frames.entry n _ n).status = tpReadLoadingStatus
      rw [Function.update_self]
      exact htaken.1
  · obtain ⟨_, s₂, hmodify, hpure⟩ := bind_eq_some.mp hrest
    obtain ⟨rfl, rfl⟩ := pure_eq_some.mp hpure
    obtain rfl := modify_eq_some.mp hmodify
    refine ⟨?_, nofun⟩
    have hloading : (Function.update s₁.frames.entry n
        ((s₁.frames.entry n).decRef tid).freed n).has .loading = false := by
      rw [Function.update_self]
      exact testFlag_freeStatus .loading
    exact htaken.keeps (framesCalm_setEntry (calm_freed _ rfl)) hloading reads writes hs

theorem getFromDisk_keeps : Steps KeepsIo (getFromDisk cfg tid ts fuel addr type isWarm) := by
  intro s result s' h reads writes hs
  obtain ⟨acquired, s₁, hacquire, hrest⟩ := bind_eq_some.mp h
  obtain ⟨hs₁, hstatus⟩ := acquireEntryForLoad_grabs hacquire hs
  cases acquired with
  | none =>
      obtain ⟨-, rfl⟩ := pure_eq_some.mp hrest
      exact hs₁
  | some n =>
      dsimp only at hrest
      split at hrest
      · exact (failure_eq_some.mp hrest).elim
      · obtain ⟨_, s₂, hmodify, hpure⟩ := bind_eq_some.mp hrest
        obtain ⟨-, rfl⟩ := pure_eq_some.mp hpure
        have hloaded : ∀ e : Entry, e.Calm
            (if setsEntryTime type isWarm then { e with entryTime := ts } else e).finishLoad ∧
            (if setsEntryTime type isWarm then { e with entryTime := ts } else e).finishLoad.has
              .loading = false := by
          intro e
          have hfinish : ∀ e : Entry, e.finishLoad.has .loading = false := fun e =>
            (testFlag_clearFlag e.status .loading .loading).trans (by simp)
          refine ⟨?_, hfinish _⟩
          split
          · exact (calm_entryTime e ts).trans (calm_finishLoad _)
          · exact calm_finishLoad e
        have hs₂ := keeps_modifyEntry (fun e => (hloaded e).1) n _ _ _ hmodify _ _ hs₁
        obtain rfl := modify_eq_some.mp hmodify
        refine ⟨hs₂.writeback, fun e he => (hs₂.loading e he).imp_left fun hmem => ?_⟩
        refine (List.mem_cons.mp hmem).resolve_left ?_
        rintro rfl
        change (Function.update s₁.frames.entry e _ e).has .loading = true at he
        rw [Function.update_self, (hloaded _).2] at he
        cases he

theorem getInternal_keeps : Steps KeepsIo (getInternal cfg tid ts fuel addr blocking type isWarm) := by
  refine Steps.get_bind fun s result s' h => ?_
  cases hlookup : s.frames.lookupAddr addr with
  | some n =>
      rw [hlookup] at h
      exact getInCache_keeps n _ _ _ h
  | none =>
      rw [hlookup] at h
      dsimp only at h
      split at h
      · exact getFromDisk_keeps _ _ _ h
      · exact keeps_pure _ _ _ _ h

theorem getPage_keeps (attempts : Nat) :
    Steps KeepsIo (getPage cfg tid ts fuel addr blocking type isWarm attempts) := by
  induction attempts with
  | zero => exact Steps.failure
  | succ attempts ih =>
      refine keeps_bind getInternal_keeps fun tried => ?_
      cases tried with
      | page n => exact keeps_pure _
      | retry => exact ih

theorem getAsync_keeps : Steps KeepsIo (getAsync cfg tid ts fuel addr type isWarm) := by
  refine Steps.get_bind fun s result s' h => ?_
  cases hlookup : s.frames.lookupAddr addr with
  | some n =>
      rw [hlookup] at h
      refine keeps_bind (keeps_tryGetRead n tid true) (fun rc => ?_) _ _ _ h
      cases rc with
      | evicted => exact keeps_pure _
      | conflict => exact Steps.failure
      | flushing => exact Steps.failure
      | success =>
          refine Steps.get_bind fun s result s' h => ?_
          split at h
          · exact keeps_bind (keeps_decRef n tid) (fun _ => keeps_pure _) _ _ _ h
          · split at h
            · exact keeps_pure _ _ _ _ h
            · exact finishGet_keeps n _ _ _ h
  | none =>
      rw [hlookup] at h
      obtain ⟨acquired, s₁, hacquire, hrest⟩ := bind_eq_some.mp h
      intro reads writes hs
      obtain ⟨hs₁, -⟩ := acquireEntryForLoad_grabs hacquire hs
      cases acquired with
      | none =>
          obtain ⟨-, rfl⟩ := pure_eq_some.mp hrest
          exact hs₁
      | some n =>
          obtain ⟨_, s₂, hmodify, hpure⟩ := bind_eq_some.mp hrest
          obtain ⟨-, rfl⟩ := pure_eq_some.mp hpure
          obtain rfl := modify_eq_some.mp hmodify
          exact issueRead_keeps hs₁

end Gets

/-! ## Prefetch -/

theorem issuePrefetch_keeps {frames reads writes : List Nat} {s s' : CacheState} {u : Unit}
    (h : issueRequest .prefetch frames s = some (u, s')) (hs : IoInv (frames ++ reads) writes s) :
    IoInv reads writes s' := by
  unfold issueRequest at h
  split at h
  · rename_i hnil
    obtain ⟨-, rfl⟩ := pure_eq_some.mp h
    rw [hnil] at hs
    exact hs
  · obtain rfl := modify_eq_some.mp h
    exact issueRead_keeps hs

theorem prefetchPages_keeps {cfg : CacheConfig} {tid : Nat} {type : PageType} (fuel : Nat) :
    ∀ {addrs frames reads writes : List Nat} {s s' : CacheState} {u : Unit},
      prefetchPages cfg tid type fuel addrs frames s = some (u, s') →
        IoInv (frames ++ reads) writes s → IoInv reads writes s' := by
  have hwriteback : testFlag tpReadLoadingStatus Flag.writeback.mask = false := by decide
  induction fuel with
  | zero => exact fun h _ => (failure_eq_some.mp h).elim
  | succ fuel ih =>
      intro addrs frames reads writes s s' u h hs
      cases addrs with
      | nil => exact issuePrefetch_keeps h hs
      | cons addr addrs =>
          rw [prefetchPages, get_bind] at h
          obtain ⟨rc, s₁, hread, hrest⟩ := bind_eq_some.mp h
          have hfirst : KeepsIo s s₁ := by
            cases hlookup : s.frames.lookupAddr addr with
            | some n =>
                rw [hlookup] at hread
                exact keeps_tryGetRead n tid true _ _ _ hread
            | none =>
                rw [hlookup] at hread
                exact keeps_pure _ _ _ _ hread
          have hissue : ∀ {s₂ : CacheState}, KeepsIo s s₂ → ∀ {u : Unit},
              (do issueRequest .prefetch frames
                  prefetchPages cfg tid type fuel addrs [] : CacheM Unit) s₂ = some (u, s') →
                IoInv reads writes s' := by
            intro s₂ hs₂ u hrun
            obtain ⟨_, s₃, hrequest, hloop⟩ := bind_eq_some.mp hrun
            exact ih hloop (issuePrefetch_keeps hrequest (hs₂ _ _ hs))
          cases rc with
          | success =>
              obtain ⟨_, s₂, hdrop, hrun⟩ := bind_eq_some.mp hrest
              exact hissue (hfirst.trans (keeps_decRef _ _ _ _ _ hdrop)) hrun
          | conflict => exact hissue hfirst hrest
          | flushing => exact (failure_eq_some.mp hrest).elim
          | evicted =>
              obtain ⟨n, s₂, htake, hrest⟩ := bind_eq_some.mp hrest
              have htaken := Grabs.after hfirst (getFreePage_grabs hwriteback htake)
              have hfree : (s₂.frames.entry n).has .writeback = false := by
                unfold Entry.has
                rw [htaken.1]
                exact hwriteback
              obtain ⟨_, s₃, hmodify, hrest⟩ := bind_eq_some.mp hrest
              obtain rfl := modify_eq_some.mp hmodify
              rw [get_bind] at hrest
              have hfilled : FramesCalm s₂.frames (s₂.frames.setEntry n
                  { s₂.frames.entry n with diskAddr := some addr, type := type }) := by
                refine framesCalm_setEntry ⟨fun hw => ?_, id⟩
                change (s₂.frames.entry n).has .writeback = true at hw
                rw [hfree] at hw
                cases hw
              split at hrest
              · -- One more frame of the request.
                obtain ⟨_, s₄, hstore, hloop⟩ := bind_eq_some.mp hrest
                obtain rfl := modify_eq_some.mp hstore
                refine ih hloop ((htaken.pending (hfilled.trans (framesCalm_map addr ?_)) hs).mono
                  (fun e he => ?_) fun e he => he)
                · show (Function.update s₂.frames.entry n _ n).has .writeback = false
                  rw [Function.update_self]
                  exact hfree
                · simp only [List.mem_cons, List.mem_append, List.not_mem_nil, or_false] at he ⊢
                  tauto
              · obtain ⟨_, s₄, hgive, hloop⟩ := bind_eq_some.mp hrest
                obtain rfl := modify_eq_some.mp hgive
                refine ih hloop (htaken.keeps
                  (hfilled.trans (framesCalm_setEntry (calm_freed _ rfl))) ?_ _ _ hs)
                show Entry.has (Function.update (s₂.frames.setEntry n _).entry n _ n) .loading = false
                rw [Function.update_self]
                exact testFlag_freeStatus .loading

theorem prefetch_keeps {cfg : CacheConfig} {tid fuel baseAddr : Nat} {type : PageType} :
    Steps KeepsIo (prefetch cfg tid fuel baseAddr type) :=
  Steps.get_bind fun _ _ _ h _ _ hs => prefetchPages_keeps fuel h hs

/-! ## Locks and discard -/

theorem getWrite_keeps (tid fuel n : Nat) : Steps KeepsIo (getWrite tid fuel n) := by
  refine keeps_bind (keeps_modifyEntry (fun e => ?_) n) fun _ => ?_
  · exact calm_setFlag e (f := .writelocked) (by decide) (by decide)
  refine keeps_bind (waitWhile_keeps _ _ _) fun _ => Steps.get_bind fun s u s' h => ?_
  split at h
  · exact keeps_pure () _ _ _ h
  · exact (failure_eq_some.mp h).elim

theorem tryPageDiscard_keeps (tid fuel addr attempts : Nat) :
    Steps KeepsIo (tryPageDiscard tid fuel addr attempts) := by
  induction attempts with
  | zero => exact Steps.failure
  | succ attempts ih =>
      refine Steps.get_bind fun s u s' h => ?_
      cases hlookup : s.frames.lookupAddr addr with
      | none =>
          rw [hlookup] at h
          exact keeps_pure _ _ _ _ h
      | some n =>
          rw [hlookup] at h
          have hretry : Steps KeepsIo (do
              modifyEntry n (·.decRef tid)
              tryPageDiscard tid fuel addr attempts : CacheM Unit) :=
            keeps_bind (keeps_decRef n tid) fun _ => ih
          refine keeps_bind (keeps_tryGetRead n tid true) (fun rc => ?_) _ _ _ h
          cases rc with
          | evicted => exact ih
          | conflict => exact Steps.failure
          | flushing => exact Steps.failure
          | success =>
              refine keeps_bind (waitWhile_keeps _ _ _) fun _ => Steps.get_bind fun s u s' h => ?_
              split at h
              · exact hretry _ _ _ h
              refine keeps_bind (keeps_onEntry (fun e => calm_tryGetClaim e) n) (fun rc => ?_) _ _ _ h
              refine Steps.ite (fun _ => hretry) fun _ => ?_
              refine keeps_bind (getWrite_keeps tid fuel n) fun _ => ?_
              exact keeps_bind (keeps_unmap addr) fun _ =>
                keeps_modifyEntry (fun e => calm_freed e rfl) n

theorem extentDiscard_keeps (cfg : CacheConfig) (tid fuel addr : Nat) :
    Steps KeepsIo (extentDiscard cfg tid fuel addr) :=
  Steps.get_bind fun _ _ _ h =>
    keeps_forM (fun pageAddr _ => tryPageDiscard_keeps tid fuel pageAddr fuel) _ _ _ h

/-! ## Syncs and clocks -/

theorem trySetWriteback_pending {numPasses n : Nat} {reads writes : List Nat} {s : CacheState}
    (hs : IoInv reads writes s) :
    IoInv reads ((if (trySetWriteback s.frames n numPasses).1 then [n] else []) ++ writes)
      (s.setFrames (trySetWriteback s.frames n numPasses).2) := by
  obtain ⟨hmap, hsize, hquiet⟩ := trySetWriteback_quiet s.frames n numPasses
  constructor
  · rintro e hw ⟨addr, haddr, hat⟩
    have hhome : AtHome s.frames e := by
      refine ⟨addr, (hquiet e).addr.symm.trans haddr, ?_⟩
      change (trySetWriteback _ _ _).2.lookup (_ >>> (trySetWriteback _ _ _).2.logPageSize) =
        some e at hat
      rw [hmap, hsize] at hat
      exact hat
    rcases trySetWriteback_marks s.frames n e hw with hold | ⟨hyes, rfl⟩
    · exact (hs.writeback e hold hhome).imp_left (List.mem_append_right _)
    · rw [if_pos hyes]
      exact Or.inl (List.mem_append_left _ List.mem_cons_self)
  · intro e hl
    exact hs.loading e ((hquiet e).loading.symm.trans hl)

theorem pageSync_keeps (n : Nat) (isBlocking : Bool) : Steps KeepsIo (pageSync n isBlocking) := by
  refine Steps.get_bind fun s u s' h => ?_
  split at h
  · rename_i hyes
    rw [modify_bind] at h
    intro reads writes hs
    have hpending := @trySetWriteback_pending tpClockMax.toNat n _ _ _ hs
    rw [if_pos hyes] at hpending
    split at h
    · -- The page is written at once.
      obtain rfl := modify_eq_some.mp h
      have hdone := keeps_modifyEntry (fun e => calm_written 0 e) n _ _ _ rfl _ _ hpending
      refine ⟨fun e hw hhome => ?_, hdone.loading⟩
      refine (hdone.writeback e hw hhome).imp_left fun hmem => ?_
      refine (List.mem_cons.mp hmem).resolve_left ?_
      rintro rfl
      change Entry.has (Function.update (trySetWriteback s.frames e _).2.entry e _ e) .writeback =
        true at hw
      rw [Function.update_self, (written_flags 0 _).1] at hw
      cases hw
    · exact issueWrite_keeps hpending h
  · split at h
    · exact keeps_pure _ _ _ _ h
    · exact (failure_eq_some.mp h).elim

theorem syncPages_keeps (pageAddrs : List Nat) :
    ∀ {pending reads writes : List Nat} {s s' : CacheState} {u : Unit},
      syncPages pageAddrs pending s = some (u, s') → IoInv reads (pending ++ writes) s →
        IoInv reads writes s' := by
  induction pageAddrs with
  | nil => exact fun h hs => issueWrite_keeps hs h
  | cons pageAddr pageAddrs ih =>
      intro pending reads writes s s' u h hs
      rw [syncPages, get_bind] at h
      have hissue : ∀ {s₁ : CacheState}, IoInv reads (pending ++ writes) s₁ → ∀ {u : Unit},
          (do issueRequest (fun entries => .write entries 0) pending
              syncPages pageAddrs [] : CacheM Unit) s₁ = some (u, s') → IoInv reads writes s' := by
        intro s₁ hs₁ u hrun
        obtain ⟨_, s₂, hrequest, hloop⟩ := bind_eq_some.mp hrun
        exact ih hloop (issueWrite_keeps hs₁ hrequest)
      cases hlookup : s.frames.lookupAddr pageAddr with
      | none =>
          rw [hlookup] at h
          exact hissue hs h
      | some n =>
          rw [hlookup] at h
          dsimp only at h
          rw [modify_bind] at h
          have hpending := @trySetWriteback_pending tpClockMax.toNat n _ _ _ hs
          split at h
          · rename_i hyes
            rw [if_pos hyes] at hpending
            refine ih h (hpending.mono (fun e he => he) fun e he => ?_)
            simp only [List.mem_append, List.mem_cons, List.not_mem_nil, or_false] at he ⊢
            tauto
          · rename_i hno
            rw [if_neg hno] at hpending
            exact hissue hpending h

theorem extentSync_keeps (cfg : CacheConfig) (addr : Nat) : Steps KeepsIo (extentSync cfg addr) :=
  Steps.get_bind fun _ _ _ h _ _ hs => syncPages_keeps _ h hs

theorem inheritClock_keeps (oldAddr newAddr divisor : Nat) :
    Steps KeepsIo (inheritClock oldAddr newAddr divisor) := by
  refine Steps.get_bind fun s u s' h => ?_
  cases hlookup : s.frames.lookupAddr newAddr with
  | none =>
      rw [hlookup] at h
      exact keeps_pure _ _ _ _ h
  | some n =>
      rw [hlookup] at h
      refine keeps_bind (keeps_modifyEntry (fun e => calm_withClock e _) n) (fun _ => ?_) _ _ _ h
      exact Steps.ite (fun _ => keeps_modifyEntry (fun e => calm_entryTime e _) n) fun _ =>
        keeps_pure ()

/-! ## Runs -/

theorem run_keeps (cfg : CacheConfig) (c : Call) : Steps KeepsIo (c.run cfg) := by
  obtain ⟨op, tid, ts, now, waits, fuel⟩ := c
  have heffect : ∀ {α : Type} {m : CacheM α}, Steps KeepsIo m → Steps KeepsIo (effect m) := fun hm =>
    keeps_bind hm fun _ => keeps_pure _
  cases op with
  | alloc addr type => exact heffect alloc_keeps
  | allocCompactionHot addr type => exact heffect allocCompactionHot_keeps
  | get addr blocking type isWarm => exact heffect (getPage_keeps fuel)
  | getAsync addr type isWarm => exact heffect getAsync_keeps
  | finishGet addr type isWarm e => exact heffect (finishGet_keeps e)
  | tryEvict e eePass => exact heffect (evict_keeps tid eePass e)
  | evictAll ignorePinnedPages => exact (handRel_keeps cfg).evictAll_steps tid ignorePinnedPages
  | pageDiscard addr => exact tryPageDiscard_keeps tid fuel addr fuel
  | extentDiscard addr => exact extentDiscard_keeps cfg tid fuel addr
  | prefetch baseAddr type => exact prefetch_keeps
  | complete completion => exact complete_keeps completion
  | unget e => exact keeps_decRef e tid
  | tryClaim e => exact heffect (keeps_onEntry (fun e => calm_tryGetClaim e) e)
  | unclaim e => exact keeps_modifyEntry (fun e => calm_clearFlag e .claimed) e
  | lock e => exact getWrite_keeps tid fuel e
  | unlock e => exact keeps_modifyEntry (fun e => calm_clearFlag e .writelocked) e
  | markDirty e => exact keeps_modifyEntry (fun e => calm_clearFlag e .clean) e
  | pin e => exact keeps_modifyEntry (fun e => calm_pincount e ((e.pincount + 1) % 2 ^ 8)) e
  | unpin e =>
      exact keeps_modifyEntry (fun e => calm_pincount e ((e.pincount + (2 ^ 8 - 1)) % 2 ^ 8)) e
  | batchStartWriteback batch numPasses => exact (handRel_keeps cfg).batchStartWriteback_steps batch numPasses
  | pageSync e isBlocking => exact pageSync_keeps e isBlocking
  | extentSync addr => exact extentSync_keeps cfg addr
  | inheritClock oldAddr newAddr divisor => exact inheritClock_keeps oldAddr newAddr divisor

theorem ioInv_newCache (logPageSize : Nat) : IoInv [] [] (newCache logPageSize) := by
  constructor
  · intro e hw
    change testFlag tpFreeStatus Flag.writeback.mask = true at hw
    rw [testFlag_freeStatus] at hw
    exact absurd hw (by decide)
  · intro e hl
    change testFlag tpFreeStatus Flag.loading.mask = true at hl
    rw [testFlag_freeStatus] at hl
    exact absurd hl (by decide)

/-- What holds in every reachable state. -/
structure CacheInv (s : CacheState) : Prop where
  mapping : MappingInv [] s
  io : IoInv [] [] s

theorem cacheNext_keeps {cfg : CacheConfig} {s s' : CacheState} {c : Call} (h : CacheInv s)
    (hstep : cacheNext cfg s c = some s') : CacheInv s' := by
  refine ⟨(cacheNext_leaves h.mapping hstep).1, ?_⟩
  unfold cacheNext at hstep
  split at hstep
  · obtain ⟨⟨u, s₁⟩, hrun, rfl⟩ := Option.map_eq_some_iff.mp hstep
    exact run_keeps cfg c _ _ _ hrun [] [] ⟨h.io.writeback, h.io.loading⟩
  · cases hstep

theorem cacheInv_newCache (logPageSize : Nat) : CacheInv (newCache logPageSize) :=
  ⟨mappingInv_newCache logPageSize, ioInv_newCache logPageSize⟩

end Cache
end TreePass
