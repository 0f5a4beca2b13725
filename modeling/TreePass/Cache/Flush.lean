import TreePass.Cache.OutstandingIo
import TreePass.Cache.WritebackBatch

/-!
# The flush

`treepass_flush` waits for all requests, puts every batch in writeback without a limit on the clock,
and waits once more.

* `waitedSystem` are the runs of operations together with the wait queues of the pages.
* `callbacks` are the requests that have completed; the writes of a batch may complete in any order.
* `BatchOk` says what the writeback of a batch is for, `FlushOk` what the flush is for.
* `writeback_and_flush`: the flush always does what it is for, and the writeback of a batch does unless
  somebody waits for a page next to one that is to be written.
-/

namespace TreePass
namespace Cache

open Lib Lib.System Lib.Program

/-! ## Wait queues -/

/-- The cache, and for which pages somebody waits: `entry->waiters`. -/
structure WaitedCache where
  cache : CacheState
  waiters : Nat → Bool

/-- `async_wait_on_queue_until` in `treepass_get_in_cache_async`: a lookup of a page that is being
loaded waits for it. -/
def Call.waitsFor (s : CacheState) (c : Call) (e : Nat) : Bool :=
  match c.op with
  | .getAsync addr _ _ =>
      s.frames.lookupAddr addr == some e && testFlag (s.frames.entry e).status tpLoading
  | _ => false

/-- `async_wait_queue_release_all` in `treepass_finish_load`: when a page has been loaded, nobody waits
for it any more. -/
def released (cc : TreePassCache) (waiters : Nat → Bool) (e : Nat) : Bool :=
  waiters e && testFlag (cc.entry e).status tpLoading

/-- A call from its first statement to its last, with the wait queues. -/
def waitedNext (cfg : CacheConfig) (s : WaitedCache) (c : Call) : Option WaitedCache :=
  (cacheNext cfg s.cache c).map fun s' =>
    { cache := s'
      waiters := released s'.frames fun e => s.waiters e || c.waitsFor s.cache e }

/-- `treepass_init`: all wait queues are empty. -/
def newWaitedCache (logPageSize : Nat) : WaitedCache := ⟨newCache logPageSize, fun _ => false⟩

def waitedSystem (cfg : CacheConfig) (logPageSize : Nat) : System WaitedCache Call :=
  System.ofFun (fun s => s = newWaitedCache logPageSize) (waitedNext cfg)

/-- What holds in every reachable state with wait queues. -/
structure WaitedInv (s : WaitedCache) : Prop where
  cache : CacheInv s.cache
  waiters : ∀ e, s.waiters e = true → (s.cache.frames.entry e).has .loading = true

/-- **In every reachable state**, writebacks and loads are those of outstanding requests, and only
pages that are being loaded are waited for. -/
theorem waitedInv_of_reachable {cfg : CacheConfig} {logPageSize : Nat} {s : WaitedCache}
    (h : (waitedSystem cfg logPageSize).Reachable s) : WaitedInv s := by
  refine h.invariant (P := WaitedInv) ?_ ?_
  · rintro _ rfl
    exact ⟨cacheInv_newCache logPageSize, nofun⟩
  · intro s c s' hs hstep
    obtain ⟨s₁, hnext, rfl⟩ := Option.map_eq_some_iff.mp hstep
    exact ⟨cacheNext_keeps hs.cache hnext, fun e he => (Bool.and_eq_true_iff.mp he).2⟩

theorem MappingInv.framesMapped {s : CacheState} (h : MappingInv [] s) : FramesMapped s.frames := by
  constructor
  · intro e hfree
    obtain ⟨addr, haddr, hpage, hmapped⟩ := h.mapped e hfree
    have hmod : addr % 2 ^ s.frames.logPageSize = 0 := by
      simpa [TreePassCache.isPageAddr, TreePassCache.pageSize, Nat.shiftLeft_eq] using hpage
    refine ⟨addr >>> s.frames.logPageSize, haddr.trans (congrArg some ?_), hmapped⟩
    rw [Nat.shiftLeft_eq, Nat.shiftRight_eq_div_pow]
    exact (Nat.div_mul_cancel (Nat.dvd_of_mod_eq_zero hmod)).symm
  · exact h.lookup

/-! ## Completed requests -/

def callbacks (completions : List Completion) (cc : TreePassCache) : TreePassCache :=
  completions.foldl (fun cc c => c.request.callback c.now cc) cc

/-- A page that has been written. -/
structure Entry.Done (e : Entry) : Prop where
  clean : e.has .clean = true
  writeback : e.has .writeback = false

theorem writeCallback_spec (now : Nat) (io : WriteIo) (cc : TreePassCache) (e : Nat) :
    (e ∈ io.entries → ((io.request.callback now cc).entry e).Done) ∧
      (e ∉ io.entries → (io.request.callback now cc).entry e = cc.entry e) := by
  constructor
  · intro he
    refine foldl_setEntry_of_mem Entry.Done (fun e => ?_) io.entries cc e he
    exact ⟨(written_flags io.numPasses e).2, (written_flags io.numPasses e).1⟩
  · intro he
    exact ((foldl_setEntry (fun _ _ => True) (fun _ => trivial) (fun _ _ _ _ _ => trivial)
      (f := Entry.written io.numPasses) (fun _ => trivial) io.entries cc).2.2 e).2 he

/-- **Writes that have completed, in any order**: their pages have been written, and nothing else
has changed. -/
theorem callbacks_spec (completions : List Completion)
    (hwrites : ∀ c ∈ completions, ∃ io : WriteIo, c.request = io.request) (e : Nat) :
    ∀ cc : TreePassCache,
      ((∃ c ∈ completions, e ∈ c.request.writes) → ((callbacks completions cc).entry e).Done) ∧
      ((¬ ∃ c ∈ completions, e ∈ c.request.writes) →
        (callbacks completions cc).entry e = cc.entry e) := by
  induction completions with
  | nil =>
      intro cc
      refine ⟨?_, fun _ => rfl⟩
      rintro ⟨c, hc, _⟩
      cases hc
  | cons c completions ih =>
      intro cc
      obtain ⟨io, hio⟩ := hwrites c List.mem_cons_self
      obtain ⟨hdone, hsame⟩ := ih (fun c' hc' => hwrites c' (List.mem_cons_of_mem c hc'))
        (c.request.callback c.now cc)
      obtain ⟨hwritten, hkept⟩ := writeCallback_spec c.now io cc e
      rw [← hio] at hwritten hkept
      have hentries : c.request.writes = io.entries := by
        rw [hio]
        rfl
      unfold callbacks at hdone hsame ⊢
      rw [List.foldl_cons]
      by_cases hlater : ∃ c' ∈ completions, e ∈ c'.request.writes
      · refine ⟨fun _ => hdone hlater, fun hno => absurd ?_ hno⟩
        obtain ⟨c', hc', he⟩ := hlater
        exact ⟨c', List.mem_cons_of_mem c hc', he⟩
      · rw [hsame hlater]
        constructor
        · rintro ⟨c', hc', he⟩
          rcases List.mem_cons.mp hc' with rfl | hrest
          · exact hwritten (hentries ▸ he)
          · exact absurd ⟨c', hrest, he⟩ hlater
        · intro hno
          exact hkept fun he => hno ⟨c, List.mem_cons_self, hentries.symm ▸ he⟩

theorem completeAll_frames (completions : List Completion) : ∀ {s s' : CacheState} {u : Unit},
    completions.forM complete s = some (u, s') →
      s'.frames = callbacks completions s.frames ∧
        s.requests.Perm (completions.map Completion.request ++ s'.requests) := by
  induction completions with
  | nil =>
      intro s s' u h
      obtain ⟨-, rfl⟩ := pure_eq_some.mp h
      exact ⟨rfl, List.Perm.refl _⟩
  | cons c completions ih =>
      intro s s' u h
      obtain ⟨_, s₁, hfirst, hrest⟩ := bind_eq_some.mp h
      obtain ⟨hframes, hperm⟩ := ih hrest
      rw [complete, get_bind] at hfirst
      split at hfirst
      · rename_i hmem
        obtain rfl := modify_eq_some.mp hfirst
        exact ⟨hframes, (List.perm_cons_erase hmem).trans (hperm.cons c.request)⟩
      · exact (failure_eq_some.mp hfirst).elim

/-- `io_wait_all`: when it returns, no request is outstanding. -/
def ioWaitAll (completions : List Completion) : CacheM Unit := do
  completions.forM complete
  let s ← get
  if s.requests = [] then pure () else failure

theorem ioWaitAll_spec {completions : List Completion} {s s' : CacheState} {u : Unit}
    (h : ioWaitAll completions s = some (u, s')) :
    completions.forM complete s = some ((), s') ∧ s'.requests = [] := by
  obtain ⟨_, s₁, hall, hrest⟩ := bind_eq_some.mp h
  rw [get_bind] at hrest
  split at hrest
  · rename_i hnone
    obtain ⟨-, rfl⟩ := pure_eq_some.mp hrest
    exact ⟨hall, hnone⟩
  · exact (failure_eq_some.mp hrest).elim

theorem exists_ioWaitAll (s : CacheState) :
    ∃ completions s', ioWaitAll completions s = some ((), s') := by
  have hall : ∀ (requests : List Request) (s : CacheState), s.requests = requests →
      ∃ s', (requests.map fun r => (⟨r, 0⟩ : Completion)).forM complete s = some ((), s') ∧
        s'.requests = [] := by
    intro requests
    induction requests with
    | nil => exact fun s hs => ⟨s, rfl, hs⟩
    | cons r requests ih =>
        intro s hs
        obtain ⟨s', hrun, hnone⟩ := ih
          { s with frames := r.callback 0 s.frames, requests := s.requests.erase r } (by
            show s.requests.erase r = requests
            rw [hs, List.erase_cons_head])
        refine ⟨s', bind_eq_some.mpr ⟨(), _, ?_, hrun⟩, hnone⟩
        rw [complete, get_bind, if_pos (by rw [hs]; exact List.mem_cons_self)]
        rfl
  obtain ⟨s', hrun, hnone⟩ := hall s.requests s rfl
  refine ⟨_, s', bind_eq_some.mpr ⟨(), s', hrun, ?_⟩⟩
  rw [get_bind, if_pos hnone]
  rfl

/-! ## The writeback of a batch -/

section Batch

variable {cfg : CacheConfig} {cc : TreePassCache} {waiters : Nat → Bool} {batch numPasses : Nat}

/-- **What the writeback of a batch is for**: the frames it puts in writeback, its writes, and what is
left when these have completed in whatever order. -/
structure BatchDone (cfg : CacheConfig) (cc : TreePassCache) (batch numPasses : Nat)
    (cc' : TreePassCache) (ios : List WriteIo) : Prop where
  lookup : cc'.lookup = cc.lookup
  begun : ∀ e, Writes cfg cc numPasses (batchEntries batch) e →
    (cc.entry e).has .writeback = false ∧
      cc'.entry e = (cc.entry e).setStatus (setFlag (cc.entry e).status tpWriteback)
  others : ∀ e, ¬ Writes cfg cc numPasses (batchEntries batch) e → cc'.entry e = cc.entry e
  once : (ios.flatMap WriteIo.entries).Nodup
  written : ∀ e, e ∈ ios.flatMap WriteIo.entries ↔ Writes cfg cc numPasses (batchEntries batch) e
  ok : ∀ io ∈ ios, WriteOk cfg cc io
  completed : ∀ completions : List Completion,
    (completions.map Completion.request).Perm (ios.map WriteIo.request) → ∀ e,
      (Writes cfg cc numPasses (batchEntries batch) e → ((callbacks completions cc').entry e).Done) ∧
      (¬ Writes cfg cc numPasses (batchEntries batch) e →
        (callbacks completions cc').entry e = cc.entry e)

/-- The writeback of a batch returns, and has done what it is for. -/
def BatchOk (cfg : CacheConfig) (cc : TreePassCache) (waiters : Nat → Bool)
    (batch numPasses : Nat) : Prop :=
  ∃ cc' ios, batchWriteback cfg waiters batch numPasses cc = some (cc', ios) ∧
    BatchDone cfg cc batch numPasses cc' ios

/-- Somebody waits for a page next to one of the stretches that are to be written. -/
def Blocked (cfg : CacheConfig) (cc : TreePassCache) (waiters : Nat → Bool)
    (batch numPasses : Nat) : Prop :=
  ∃ e ∈ batchEntries batch, Starts cc numPasses e ∧ Blocks cfg cc waiters numPasses e

theorem mem_writes_iff {completions : List Completion} {ios : List WriteIo}
    (hperm : (completions.map Completion.request).Perm (ios.map WriteIo.request)) (e : Nat) :
    (∃ c ∈ completions, e ∈ c.request.writes) ↔ e ∈ ios.flatMap WriteIo.entries := by
  constructor
  · rintro ⟨c, hc, he⟩
    obtain ⟨io, hio, hrequest⟩ := List.mem_map.mp
      (hperm.mem_iff.mp (List.mem_map_of_mem hc))
    rw [← hrequest] at he
    exact List.mem_flatMap.mpr ⟨io, hio, he⟩
  · intro he
    obtain ⟨io, hio, hmem⟩ := List.mem_flatMap.mp he
    obtain ⟨c, hc, hrequest⟩ := List.mem_map.mp
      (hperm.mem_iff.mpr (List.mem_map_of_mem hio))
    refine ⟨c, hc, ?_⟩
    rw [hrequest]
    exact hmem

theorem exists_write_of_perm {completions : List Completion} {ios : List WriteIo}
    (hperm : (completions.map Completion.request).Perm (ios.map WriteIo.request)) :
    ∀ c ∈ completions, ∃ io : WriteIo, c.request = io.request := by
  intro c hc
  obtain ⟨io, _, hrequest⟩ := List.mem_map.mp (hperm.mem_iff.mp (List.mem_map_of_mem hc))
  exact ⟨io, hrequest.symm⟩

theorem callbacks_marked {completions : List Completion} {ios : List WriteIo}
    (hperm : (completions.map Completion.request).Perm (ios.map WriteIo.request)) (e : Nat) :
    (e ∈ ios.flatMap WriteIo.entries →
      ((callbacks completions (marked cc (ios.flatMap WriteIo.entries))).entry e).Done) ∧
    (e ∉ ios.flatMap WriteIo.entries →
      (callbacks completions (marked cc (ios.flatMap WriteIo.entries))).entry e = cc.entry e) := by
  obtain ⟨hdone, hsame⟩ := callbacks_spec completions (exists_write_of_perm hperm) e
    (marked cc (ios.flatMap WriteIo.entries))
  rw [mem_writes_iff hperm] at hdone hsame
  refine ⟨hdone, fun he => ?_⟩
  rw [hsame he, marked_entry_of_not_mem he]

theorem Writes.not_writeback {entries : List Nat} {e : Nat} (h : Writes cfg cc numPasses entries e) :
    (cc.entry e).has .writeback = false := by
  obtain ⟨seed, _, _, htogether⟩ := h
  exact ((okToWriteback_iff _ _).mp htogether.canWrite).1 .writeback

theorem batchWriteback_iff (hmapped : FramesMapped cc) (hpos : 0 < cfg.pagesPerExtent)
    (hwait : ∀ e, waiters e = true → (cc.entry e).has .loading = true) :
    BatchOk cfg cc waiters batch numPasses ↔ ¬ Blocked cfg cc waiters batch numPasses := by
  obtain ⟨hfail, hrun⟩ :=
    @entriesWriteback_spec cfg cc waiters numPasses hmapped hpos hwait (batchEntries batch) []
      whole_nil
  have hstart : marked cc [] = cc := by
    unfold marked
    simp
  rw [hstart] at hfail hrun
  constructor
  · rintro ⟨cc', ios, hresult, _⟩ hblocked
    change entriesWriteback cfg waiters numPasses (batchEntries batch) cc = _ at hresult
    rw [hfail hblocked] at hresult
    cases hresult
  · intro hfree
    obtain ⟨ios, hresult, hwhole, hmem, hios⟩ := hrun hfree
    rw [List.nil_append] at hresult hwhole hmem
    have hwrites : ∀ e, e ∈ ios.flatMap WriteIo.entries ↔
        Writes cfg cc numPasses (batchEntries batch) e := by
      intro e
      rw [hmem e]
      exact or_iff_right List.not_mem_nil
    refine ⟨_, ios, hresult, ?_⟩
    constructor
    · rfl
    · intro e he
      exact ⟨he.not_writeback, marked_entry_of_mem ((hwrites e).mpr he)⟩
    · intro e he
      exact marked_entry_of_not_mem fun hin => he ((hwrites e).mp hin)
    · exact hwhole.nodup
    · exact hwrites
    · exact fun io hio => (hios io hio).1
    · intro completions hperm e
      rw [← hwrites e]
      exact callbacks_marked hperm e

end Batch

/-! ## The flush -/

section Flush

variable {cfg : CacheConfig}

/-- The loop of `treepass_flush`; the writes are outstanding afterwards. -/
def flushBatches (cfg : CacheConfig) (waiters : Nat → Bool) :
    List Nat → CacheState → Option CacheState
  | [], s => some s
  | batch :: batches, s =>
      (batchWriteback cfg waiters batch tpClockMax.toNat s.frames).bind fun result =>
        flushBatches cfg waiters batches { s with
          frames := result.1
          requests := s.requests ++ result.2.map WriteIo.request }

def NoLocks (cc : TreePassCache) : Prop :=
  ∀ e, (cc.entry e).has .claimed = false ∧ (cc.entry e).has .writelocked = false

/-- **What the flush is for.**  It never fails, its two waits come to an end, and afterwards no frame
holds a dirty page. -/
def FlushOk (cfg : CacheConfig) (s : WaitedCache) : Prop :=
  NoLocks s.cache.frames →
    (∃ first s₁, ioWaitAll first s.cache = some ((), s₁)) ∧
    ∀ first s₁, ioWaitAll first s.cache = some ((), s₁) →
      ∃ s₂, flushBatches cfg (released s₁.frames s.waiters) (List.range cfg.batchCapacity) s₁ =
          some s₂ ∧
        (∃ last s₃, ioWaitAll last s₂ = some ((), s₃)) ∧
        ∀ last s₃, ioWaitAll last s₂ = some ((), s₃) → ∀ e < cfg.pageCapacity,
          (s₃.frames.entry e).has .free = true ∨ (s₃.frames.entry e).has .clean = true

theorem entriesWriteback_append (waiters : Nat → Bool) (numPasses : Nat) (entries entries' : List Nat)
    (cc : TreePassCache) :
    entriesWriteback cfg waiters numPasses (entries ++ entries') cc =
      (entriesWriteback cfg waiters numPasses entries cc).bind fun first =>
        (entriesWriteback cfg waiters numPasses entries' first.1).map fun rest =>
          (rest.1, first.2 ++ rest.2) := by
  induction entries generalizing cc with
  | nil =>
      have hnil : entriesWriteback cfg waiters numPasses [] cc = some (cc, []) := rfl
      rw [hnil, List.nil_append, Option.bind_some]
      cases entriesWriteback cfg waiters numPasses entries' cc with
      | none => rfl
      | some rest => rfl
  | cons n entries ih =>
      rw [List.cons_append, entriesWriteback, entriesWriteback]
      cases entryWriteback cfg waiters numPasses n cc with
      | none => rfl
      | some first =>
          rw [Option.bind_some, Option.bind_some, ih]
          cases entriesWriteback cfg waiters numPasses entries first.1 with
          | none => rfl
          | some second =>
              rw [Option.bind_some, Option.map_some, Option.bind_some]
              cases entriesWriteback cfg waiters numPasses entries' second.1 with
              | none => rfl
              | some third => simp only [Option.map_some, List.append_assoc]

theorem flushBatches_eq (waiters : Nat → Bool) (batches : List Nat) (s : CacheState) :
    flushBatches cfg waiters batches s =
      (entriesWriteback cfg waiters tpClockMax.toNat (batches.flatMap batchEntries) s.frames).map
        fun result => { s with
          frames := result.1
          requests := s.requests ++ result.2.map WriteIo.request } := by
  induction batches generalizing s with
  | nil =>
      simp only [flushBatches, List.flatMap_nil, entriesWriteback, Option.map_some, List.map_nil,
        List.append_nil]
  | cons batch batches ih =>
      rw [List.flatMap_cons, entriesWriteback_append, flushBatches]
      unfold batchWriteback
      cases entriesWriteback cfg waiters tpClockMax.toNat (batchEntries batch) s.frames with
      | none => rfl
      | some first =>
          rw [Option.bind_some, Option.bind_some, ih]
          cases entriesWriteback cfg waiters tpClockMax.toNat (batches.flatMap batchEntries)
              first.1 with
          | none => rfl
          | some second =>
              simp only [Option.map_some, List.map_append, List.append_assoc]

theorem mem_allBatches (hcapacity : cfg.pageCapacity % tpEntriesPerBatch = 0) {e : Nat}
    (he : e < cfg.pageCapacity) : e ∈ (List.range cfg.batchCapacity).flatMap batchEntries := by
  unfold CacheConfig.batchCapacity batchEntries
  unfold tpEntriesPerBatch at hcapacity ⊢
  refine List.mem_flatMap.mpr ⟨e / 64, List.mem_range.mpr (by omega), ?_⟩
  rw [List.mem_range'_1]
  omega

def Entry.Unlocked (e e' : Entry) : Prop :=
  ∀ f : Flag, f = .claimed ∨ f = .writelocked → e.has f = false → e'.has f = false

theorem unlocked_written (numPasses : Nat) (e : Entry) : e.Unlocked (e.written numPasses) := by
  intro f hf he
  have hne : f ≠ .clean := by
    rintro rfl
    rcases hf with hf | hf <;> cases hf
  have hflag : testFlag (clearFlag (setFlag e.status tpClean) tpWriteback) f.mask = false := by
    have hset : testFlag (setFlag e.status tpClean) f.mask = false := by
      refine (testFlag_setFlag e.status .clean f).trans ?_
      rw [show testFlag e.status f.mask = false from he, Bool.false_or]
      exact decide_eq_false (Ne.symm hne)
    refine (testFlag_clearFlag _ .writeback f).trans ?_
    rw [hset, Bool.false_and]
  unfold Entry.written
  dsimp only
  split
  · rw [has_setStatus, testFlag_congr (flagBits_withClock _ 0) f]
    exact hflag
  · exact hflag

theorem unlocked_finishLoad (e : Entry) : e.Unlocked e.finishLoad := by
  intro f _ he
  refine (testFlag_clearFlag e.status .loading f).trans ?_
  rw [show testFlag e.status f.mask = false from he, Bool.false_and]

theorem NoLocks.callback {cc : TreePassCache} (h : NoLocks cc) (now : Nat) (request : Request) :
    NoLocks (request.callback now cc) := by
  have hall : ∀ e, (cc.entry e).Unlocked ((request.callback now cc).entry e) := by
    have hrefl : ∀ e : Entry, e.Unlocked e := fun e f _ he => he
    have htrans : ∀ e e' e'' : Entry, e.Unlocked e' → e'.Unlocked e'' → e.Unlocked e'' :=
      fun e e' e'' hfirst hnext f hf he => hnext f hf (hfirst f hf he)
    cases request with
    | write entries numPasses =>
        exact fun e => ((foldl_setEntry Entry.Unlocked hrefl htrans (unlocked_written numPasses)
          entries cc).2.2 e).1
    | prefetch entries =>
        exact fun e => ((foldl_setEntry Entry.Unlocked hrefl htrans unlocked_finishLoad
          entries cc).2.2 e).1
    | load n type isWarm =>
        intro e
        change (cc.entry e).Unlocked (Function.update cc.entry n _ e)
        by_cases he : e = n
        · subst he
          rw [Function.update_self]
          split
          · exact unlocked_finishLoad _
          · exact unlocked_finishLoad _
        · rw [Function.update_of_ne he]
          exact hrefl _
  exact fun e => ⟨hall e .claimed (Or.inl rfl) (h e).1, hall e .writelocked (Or.inr rfl) (h e).2⟩

theorem NoLocks.callbacks (completions : List Completion) : ∀ {cc : TreePassCache}, NoLocks cc →
    NoLocks (callbacks completions cc) := by
  induction completions with
  | nil => exact fun h => h
  | cons c completions ih => exact fun h => ih (h.callback c.now c.request)

theorem okToWriteback_of_dirty {s : CacheState} (hs : CacheInv s) (hnone : s.requests = [])
    (hlocks : NoLocks s.frames) {e : Nat} (hfree : (s.frames.entry e).has .free = false)
    (hclean : (s.frames.entry e).has .clean = false) :
    (s.frames.entry e).okToWriteback tpClockMax.toNat = true := by
  obtain ⟨addr, haddr, _, hhome⟩ := hs.mapping.mapped e hfree
  rw [okToWriteback_iff]
  constructor
  · intro f
    cases f with
    | free => exact hfree
    | clean => exact hclean
    | writeback =>
        by_contra hset
        rcases hs.io.writeback e (by simpa using hset) ⟨addr, haddr, hhome⟩ with
          hmem | ⟨request, hin, _⟩
        · cases hmem
        · rw [hnone] at hin
          cases hin
    | loading =>
        by_contra hset
        rcases hs.io.loading e (by simpa using hset) with hmem | ⟨request, hin, _⟩
        · cases hmem
        · rw [hnone] at hin
          cases hin
    | writelocked => exact (hlocks e).2
    | claimed => exact (hlocks e).1
  · unfold clockOf
    rw [BitVec.toNat_and]
    exact Nat.and_le_right

theorem flushOk_of_inv (hpos : 0 < cfg.pagesPerExtent)
    (hcapacity : cfg.pageCapacity % tpEntriesPerBatch = 0) {s : WaitedCache} (hs : WaitedInv s) :
    FlushOk cfg s := by
  intro hlocks
  refine ⟨exists_ioWaitAll s.cache, fun first s₁ hfirst => ?_⟩
  obtain ⟨hrun, hnone⟩ := ioWaitAll_spec hfirst
  have hs₁ : CacheInv s₁ := by
    refine ⟨((completeAll_spec first hrun).2.2.2 [] hs.cache.mapping).1, ?_⟩
    have hkeeps : Steps KeepsIo (first.forM complete) := keeps_forM fun c _ => complete_keeps c
    exact hkeeps _ _ _ hrun [] [] hs.cache.io
  have hlocks₁ : NoLocks s₁.frames := by
    rw [(completeAll_frames first hrun).1]
    exact hlocks.callbacks first
  -- Nothing is being loaded any more, so nobody waits.
  have hloaded : ∀ e, (s₁.frames.entry e).has .loading = false := by
    intro e
    by_contra hset
    rcases hs₁.io.loading e (by simpa using hset) with hmem | ⟨request, hin, _⟩
    · cases hmem
    · rw [hnone] at hin
      cases hin
  have hwait : ∀ e, released s₁.frames s.waiters e = true →
      (s₁.frames.entry e).has .loading = true := fun e he => (Bool.and_eq_true_iff.mp he).2
  have hmapped := hs₁.mapping.framesMapped
  obtain ⟨_, hall⟩ := @entriesWriteback_spec cfg s₁.frames _ tpClockMax.toNat hmapped hpos hwait
    ((List.range cfg.batchCapacity).flatMap batchEntries) [] whole_nil
  obtain ⟨ios, hresult, _, hmem, _⟩ := hall (by
    rintro ⟨e, _, _, p, q, r, w, _, _, _, _, _, hw⟩
    have hloading := hwait w hw
    rw [hloaded w] at hloading
    cases hloading)
  have hstart : marked s₁.frames [] = s₁.frames := by
    unfold marked
    simp
  rw [hstart, List.nil_append] at hresult
  refine ⟨_, by rw [flushBatches_eq, hresult]; rfl, exists_ioWaitAll _, fun last s₃ hlast => ?_⟩
  obtain ⟨hrun', hnone'⟩ := ioWaitAll_spec hlast
  obtain ⟨hframes, hperm⟩ := completeAll_frames last hrun'
  rw [hnone', List.append_nil] at hperm
  dsimp only at hperm
  rw [hnone, List.nil_append] at hperm
  intro e he
  obtain ⟨hdone, hsame⟩ := @callbacks_marked s₁.frames _ _ hperm.symm e
  rw [hframes]
  by_cases hin : e ∈ ios.flatMap WriteIo.entries
  · exact Or.inr (hdone hin).clean
  · rw [hsame hin]
    by_contra hdirty
    rw [not_or, Bool.not_eq_true, Bool.not_eq_true] at hdirty
    have hok := okToWriteback_of_dirty hs₁ hnone hlocks₁ hdirty.1 hdirty.2
    obtain ⟨p, _, hp⟩ := hmapped.mapped e hdirty.1
    refine hin ((hmem e).mpr (Or.inr ⟨e, mem_allBatches hcapacity he, ?_, ?_⟩))
    · exact fun hpressure => Nat.lt_irrefl _ hpressure.2.1
    · exact ⟨p, p, hp, hp, Stretch.refl ⟨e, hp, hok⟩⟩

end Flush

/-! ## The claim of both -/

/-- **Writeback and flush in every reachable state.**  The flush leaves no dirty page, and the
writeback of a batch writes exactly what it is to write, unless somebody waits for a page next to it. -/
theorem writeback_and_flush {cfg : CacheConfig} {logPageSize : Nat}
    (hpos : 0 < cfg.pagesPerExtent) (hcapacity : cfg.pageCapacity % tpEntriesPerBatch = 0)
    {s : WaitedCache} (hs : (waitedSystem cfg logPageSize).Reachable s) (batch numPasses : Nat) :
    (BatchOk cfg s.cache.frames s.waiters batch numPasses ∧ FlushOk cfg s) ↔
      ¬ Blocked cfg s.cache.frames s.waiters batch numPasses := by
  have hinv := waitedInv_of_reachable hs
  rw [batchWriteback_iff hinv.cache.mapping.framesMapped hpos hinv.waiters]
  exact and_iff_left (flushOk_of_inv hpos hcapacity hinv)

/-- A page has been allocated, and all its locks have been given back. -/
def dirtyPage : List Call :=
  [callOf (.alloc 8192 .branch), callOf (.unlock 0), callOf (.unclaim 0), callOf (.unget 0)]

/-- The dirty page can be written and flushed. -/
theorem writeback_and_flush_dirtyPage : ∃ s, (waitedSystem ⟨64, 2⟩ 12).Reachable s ∧
    (s.cache.frames.entry 0).okToWriteback 7 = true ∧
      BatchOk ⟨64, 2⟩ s.cache.frames s.waiters 0 7 ∧ FlushOk ⟨64, 2⟩ s := by
  have hend : (exec (waitedNext ⟨64, 2⟩) (newWaitedCache 12) dirtyPage).map
      (fun r => (r.2.cache.requests, (r.2.cache.frames.entry 0).okToWriteback 7)) =
        some ([], true) := by decide +kernel
  obtain ⟨r, hexec, hr⟩ := Option.map_eq_some_iff.mp hend
  obtain ⟨hnone, hdirty⟩ := Prod.mk.inj hr
  have hreach : (waitedSystem ⟨64, 2⟩ 12).Reachable r.2 := ⟨_, r.1, rfl, run_of_exec hexec⟩
  have hinv := waitedInv_of_reachable hreach
  refine ⟨r.2, hreach, hdirty,
    (writeback_and_flush (by decide) (by decide) hreach 0 7).mpr ?_⟩
  rintro ⟨e, _, _, p, q, n, w, _, _, _, _, _, hw⟩
  rcases hinv.cache.io.loading w (hinv.waiters w hw) with hmem | ⟨request, hin, _⟩
  · cases hmem
  · rw [hnone] at hin
    cases hin

/-- The next page of the extent is being loaded, and a second lookup waits for it. -/
def besideLoad : List Call :=
  dirtyPage ++ [callOf (.getAsync 12288 .branch false), callOf (.getAsync 12288 .branch false)]

/-- **The assertion of `treepass_try_set_writeback` fails** when the writeback of the dirty page
comes to the page that is being loaded. -/
theorem writeback_fails_besideLoad : ∃ s, (waitedSystem ⟨64, 2⟩ 12).Reachable s ∧
    (s.cache.frames.entry 0).okToWriteback 7 = true ∧ s.waiters 1 = true ∧
      batchWriteback ⟨64, 2⟩ s.waiters 0 7 s.cache.frames = none ∧
        ¬ BatchOk ⟨64, 2⟩ s.cache.frames s.waiters 0 7 := by
  have hend : (exec (waitedNext ⟨64, 2⟩) (newWaitedCache 12) besideLoad).map
      (fun r => ((r.2.cache.frames.entry 0).okToWriteback 7, r.2.waiters 1,
        (batchWriteback ⟨64, 2⟩ r.2.waiters 0 7 r.2.cache.frames).isNone)) =
          some (true, true, true) := by decide +kernel
  obtain ⟨r, hexec, hr⟩ := Option.map_eq_some_iff.mp hend
  simp only [Prod.mk.injEq] at hr
  obtain ⟨hdirty, hwaits, hfails⟩ := hr
  have hnone := Option.isNone_iff_eq_none.mp hfails
  refine ⟨r.2, ⟨_, r.1, rfl, run_of_exec hexec⟩, hdirty, hwaits, hnone, ?_⟩
  rintro ⟨cc', ios, hresult, _⟩
  rw [hnone] at hresult
  cases hresult

end Cache
end TreePass
