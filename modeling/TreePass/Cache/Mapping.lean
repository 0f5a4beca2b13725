import TreePass.Cache.MappingSteps

/-!
# The address mapping is a partial bijection

In every run of operations the lookup map and the addresses of the frames are each other's inverses, free
frames show nothing, and a page with changes leaves the cache only when it is discarded.

* `MappingOk` is what a state promises, `DirtyStays` what a call promises.
* `mapping_bijective` is the result.
-/

namespace TreePass
namespace Cache

open Lib Lib.System Lib.Program

/-- **The mapping of a state.** -/
structure MappingOk (s : CacheState) : Prop where
  /-- The map leads from the addresses of pages to the frames that hold them, and back. -/
  lookup : ∀ addr e, s.frames.isPageAddr addr = true → (s.frames.lookupAddr addr = some e ↔
    (s.frames.entry e).has .free = false ∧ (s.frames.entry e).diskAddr = some addr)
  /-- A free frame has no address, no type and no entry time. -/
  free : ∀ e, (s.frames.entry e).has .free = true → (s.frames.entry e).diskAddr = none ∧
    (s.frames.entry e).type = .invalid ∧ (s.frames.entry e).entryTime = 0
  /-- Two frames never hold the same page. -/
  once : ∀ e e' addr, (s.frames.entry e).has .free = false → (s.frames.entry e').has .free = false →
    (s.frames.entry e).diskAddr = some addr → (s.frames.entry e').diskAddr = some addr → e = e'

def Call.discards (cfg : CacheConfig) (cc : TreePassCache) (c : Call) (addr : Nat) : Prop :=
  match c.op with
  | .pageDiscard pageAddr => addr = pageAddr
  | .extentDiscard extentAddr => addr ∈ extentPages cfg cc extentAddr
  | _ => False

def Call.writesBack (c : Call) (e : Nat) : Prop :=
  ∃ completion ∈ c.waits.flatten, e ∈ completion.request.writes

/-- **A dirty page leaves the cache only through a discard**, unless it is written back first. -/
def DirtyStays (cfg : CacheConfig) (s : CacheState) (c : Call) : Prop :=
  ∀ s' e addr, cacheNext cfg s c = some s' → (s.frames.entry e).Dirty addr →
    ¬ c.discards cfg s.frames addr → ¬ c.writesBack e → s'.frames.lookupAddr addr = some e

/-! ## Calls -/

section Calls

variable {cfg : CacheConfig} {s s' : CacheState}

theorem effect_eq_some {α : Type} {m : CacheM α} {u : Unit} (h : effect m s = some (u, s')) :
    ∃ a, m s = some (a, s') := by
  obtain ⟨a, s₁, hm, hpure⟩ := bind_eq_some.mp h
  obtain ⟨-, rfl⟩ := pure_eq_some.mp hpure
  exact ⟨a, hm⟩

/-- What a call leaves: the invariant, and the places of all pages that are dirty. -/
def Leaves (gone : Nat → Prop) (s s' : CacheState) : Prop :=
  MappingInv [] s → MappingInv [] s' ∧ s'.frames.logPageSize = s.frames.logPageSize ∧ ∀ e addr,
    ¬ gone addr → (∀ completion ∈ s.waits.flatten, e ∉ completion.request.writes) →
      (s.frames.entry e).Dirty addr → (s'.frames.entry e).diskAddr = some addr

theorem Moves.leaves {maps : Prop} {gone : Nat → Prop} (h : Moves maps gone s s') : Leaves gone s s' := by
  obtain ⟨used, hused, hsize, hinv⟩ := h
  intro hs
  obtain ⟨hs', -, hdirty⟩ := hinv [] hs
  refine ⟨hs', hsize, fun e addr hgone hw hd => (hdirty e addr hgone hd fun c hc => hw c ?_).addr⟩
  rw [hused, List.flatten_append]
  exact List.mem_append_left _ hc

theorem complete_leaves {c : Completion} {u : Unit} (h : complete c s = some (u, s')) :
    Leaves (fun _ => False) s s' := by
  obtain ⟨-, hsize, -, hinv⟩ := complete_spec h
  intro hs
  obtain ⟨hs', hentries⟩ := hinv [] hs
  exact ⟨hs', hsize, fun e addr _ _ hd => (hentries e).1.addr.trans hd.addr⟩

theorem MappingInv.setEntry {pending : List Nat} {n : Nat} {e' : Entry} (h : MappingInv pending s)
    (hwritten : (s.frames.entry n).Written e') : MappingInv pending (s.setFrames (s.frames.setEntry n e')) := by
  have hentries : ∀ e, (s.frames.entry e).Written (Function.update s.frames.entry n e' e) := by
    intro e
    by_cases he : e = n
    · subst he
      rw [Function.update_self]
      exact hwritten
    · rw [Function.update_of_ne he]
      exact ⟨samePage_refl _, rfl⟩
  refine h.samePages rfl rfl (fun e => (hentries e).toSamePage) (fun e hfree => ?_) h.once fun e he => ?_
  · exact (hentries e).loading.trans (h.blank e hfree).loading
  · exact (hentries e).loading.trans (h.loading e he)

theorem pageSync_leaves {n : Nat} {isBlocking : Bool} {u : Unit}
    (h : pageSync n isBlocking s = some (u, s')) : Leaves (fun _ => False) s s' := by
  rw [pageSync, get_bind] at h
  split at h
  · rw [modify_bind] at h
    have hquiet := trySetWriteback_quiet s.frames n tpClockMax.toNat
    have hfirst : Sweeps s (s.setFrames (trySetWriteback s.frames n tpClockMax.toNat).2) := hquiet.sweeps
    split at h
    · rw [← modify_eq_some.mp h]
      obtain ⟨_, -, hsize, hinv⟩ := hfirst
      intro hs
      obtain ⟨hs₁, -⟩ := hinv [] hs
      have hwritten := written_spec 0 ((trySetWriteback s.frames n tpClockMax.toNat).2.entry n)
      refine ⟨hs₁.setEntry hwritten, hsize, fun e addr _ _ hd => ?_⟩
      change (Function.update (trySetWriteback s.frames n tpClockMax.toNat).2.entry n _ e).diskAddr = _
      have hsame := (hquiet.2.2 e).addr.trans hd.addr
      by_cases he : e = n
      · subst he
        rw [Function.update_self]
        exact hwritten.addr.trans hsame
      · rw [Function.update_of_ne he]
        exact hsame
    · exact (hfirst.trans (issueWrite_sweeps _ _ _ _ _ h)).leaves
  · split at h
    · obtain ⟨-, rfl⟩ := pure_eq_some.mp h
      have hsame : Sweeps s s := Moves.refl s
      exact hsame.leaves
    · exact (failure_eq_some.mp h).elim

theorem Leaves.mono {gone gone' : Nat → Prop} (h : Leaves gone s s') (hgone : ∀ addr, gone addr → gone' addr) :
    Leaves gone' s s' := by
  intro hs
  obtain ⟨hs', hsize, hdirty⟩ := h hs
  exact ⟨hs', hsize, fun e addr hno => hdirty e addr fun hg => hno (hgone addr hg)⟩

theorem run_leaves {c : Call} {u : Unit} (hallowed : c.op.isAllowed s.frames = true)
    (h : c.run cfg s = some (u, s')) : Leaves (c.discards cfg s.frames) s s' := by
  obtain ⟨op, tid, ts, now, waits, fuel⟩ := c
  have hnone : ∀ {m : CacheM Unit} {u : Unit}, Steps Sweeps m → m s = some (u, s') →
      Leaves (Call.discards cfg s.frames ⟨op, tid, ts, now, waits, fuel⟩) s s' := fun hm hrun =>
    Leaves.mono (Moves.leaves (hm _ _ _ hrun)) fun _ => False.elim
  have hmap : Moves True (fun _ => False) s s' →
      Leaves (Call.discards cfg s.frames ⟨op, tid, ts, now, waits, fuel⟩) s s' := fun hm =>
    hm.leaves.mono fun _ => False.elim
  have heffect : ∀ {α : Type} {m : CacheM α}, Steps Sweeps m → Steps Sweeps (effect m) := fun hm =>
    moves_bind hm fun _ => moves_pure _
  cases op with
  | alloc addr type =>
      obtain ⟨hpage, hlookup⟩ := Bool.and_eq_true_iff.mp hallowed
      obtain ⟨n, hrun⟩ := effect_eq_some h
      exact hmap (alloc_moves hpage (beq_iff_eq.mp hlookup) hrun)
  | allocCompactionHot addr type =>
      obtain ⟨hpage, hlookup⟩ := Bool.and_eq_true_iff.mp hallowed
      obtain ⟨n, hrun⟩ := effect_eq_some h
      exact hmap (allocCompactionHot_moves hpage (beq_iff_eq.mp hlookup) hrun)
  | get addr blocking type isWarm =>
      obtain ⟨n, hrun⟩ := effect_eq_some h
      exact hmap (getPage_moves fuel hallowed hrun)
  | getAsync addr type isWarm =>
      obtain ⟨result, hrun⟩ := effect_eq_some h
      exact hmap (getAsync_moves hallowed hrun)
  | finishGet addr type isWarm e => exact hnone (heffect (finishGet_sweeps _ _ _ _ _ _)) h
  | tryEvict e eePass => exact hnone (heffect (evict_sweeps _ _ _)) h
  | evictAll ignorePinnedPages => exact hnone ((handRel_sweeps cfg).evictAll_steps _ _) h
  | pageDiscard addr => exact Moves.leaves (tryPageDiscard_moves _ _ _ _ _ _ _ h)
  | extentDiscard addr => exact Moves.leaves (extentDiscard_moves h)
  | prefetch baseAddr type => exact hmap (prefetch_moves hallowed h)
  | complete completion => exact (complete_leaves h).mono fun _ => False.elim
  | unget e => exact hnone (dropRef_sweeps _ _) h
  | tryClaim e => exact hnone (heffect (onEntry_sweeps (fun e => quiet_tryGetClaim e) _)) h
  | unclaim e =>
      exact hnone (modifyEntry_sweeps (fun e => quiet_clearFlag e (f := .claimed) (by decide) (by decide)) _) h
  | lock e => exact hnone (waits_sweeps (getWrite_waits _ _ _)) h
  | unlock e =>
      exact hnone
        (modifyEntry_sweeps (fun e => quiet_clearFlag e (f := .writelocked) (by decide) (by decide)) _) h
  | markDirty e =>
      exact hnone (modifyEntry_sweeps (fun e => quiet_clearFlag e (f := .clean) (by decide) (by decide)) _) h
  | pin e => exact hnone (modifyEntry_sweeps (fun e => quiet_pincount e _) _) h
  | unpin e => exact hnone (modifyEntry_sweeps (fun e => quiet_pincount e _) _) h
  | batchStartWriteback batch numPasses => exact hnone ((handRel_sweeps cfg).batchStartWriteback_steps _ _) h
  | pageSync e isBlocking => exact (pageSync_leaves h).mono fun _ => False.elim
  | extentSync addr => exact hnone (extentSync_sweeps _ _) h
  | inheritClock oldAddr newAddr divisor => exact hnone (inheritClock_sweeps _ _ _) h

end Calls

/-! ## Runs -/

theorem mappingInv_newCache (logPageSize : Nat) : MappingInv [] (newCache logPageSize) := by
  have hfree : testFlag tpFreeStatus Flag.free.mask = true := by decide
  have hloading : testFlag tpFreeStatus Flag.loading.mask = false := by decide
  refine ⟨fun e hnot => ?_, fun n e hn => ?_, fun e _ => ⟨hfree, hloading, rfl, rfl, rfl⟩, List.nodup_nil,
    fun e he => absurd he List.not_mem_nil⟩
  · have hnot' : testFlag tpFreeStatus Flag.free.mask = false := hnot
    rw [hfree] at hnot'
    cases hnot'
  · cases hn

theorem MappingInv.mappingOk {s : CacheState} (h : MappingInv [] s) : MappingOk s := by
  have hlookup : ∀ e addr, (s.frames.entry e).has .free = false →
      (s.frames.entry e).diskAddr = some addr → s.frames.lookupAddr addr = some e := by
    intro e addr hfree haddr
    obtain ⟨addr', haddr', -, hmapped⟩ := h.mapped e hfree
    rw [haddr] at haddr'
    obtain rfl := Option.some.inj haddr'
    exact hmapped
  refine ⟨fun addr e hpage => ⟨fun hmapped => ?_, fun ⟨hfree, haddr⟩ => hlookup e addr hfree haddr⟩,
    fun e hfree => ?_, fun e e' addr hfree hfree' haddr haddr' => ?_⟩
  · obtain ⟨hfree, haddr⟩ := h.lookup _ e hmapped
    refine ⟨hfree, haddr.trans (congrArg some ?_)⟩
    have hmod : addr % 2 ^ s.frames.logPageSize = 0 := by
      simpa [TreePassCache.isPageAddr, TreePassCache.pageSize, Nat.shiftLeft_eq] using hpage
    rw [Nat.shiftLeft_eq, Nat.shiftRight_eq_div_pow]
    exact Nat.div_mul_cancel (Nat.dvd_of_mod_eq_zero hmod)
  · have hblank := h.blank e hfree
    exact ⟨hblank.addr, hblank.type, hblank.time⟩
  · exact Option.some.inj ((hlookup e addr hfree haddr).symm.trans (hlookup e' addr hfree' haddr'))

theorem cacheNext_leaves {cfg : CacheConfig} {s s' : CacheState} {c : Call} (h : MappingInv [] s)
    (hs' : cacheNext cfg s c = some s') : MappingInv [] s' ∧ DirtyStays cfg s c := by
  have hkept : ∀ s', cacheNext cfg s c = some s' →
      MappingInv [] s' ∧ ∀ e addr, ¬ c.discards cfg s.frames addr → ¬ c.writesBack e →
        (s.frames.entry e).Dirty addr → (s'.frames.entry e).diskAddr = some addr := by
    intro s' hs'
    rw [cacheNext] at hs'
    split at hs'
    · rename_i hallowed
      obtain ⟨⟨u, _⟩, hrun, rfl⟩ := Option.map_eq_some_iff.mp hs'
      have hstart : MappingInv [] { s with waits := c.waits } :=
        ⟨h.mapped, h.lookup, h.blank, h.once, h.loading⟩
      obtain ⟨hinv, -, hdirty⟩ := run_leaves (s := { s with waits := c.waits }) hallowed hrun hstart
      refine ⟨hinv, fun e addr hgone hw hd => hdirty e addr hgone (fun completion hc he => ?_) hd⟩
      exact hw ⟨completion, hc, he⟩
    · cases hs'
  refine ⟨(hkept s' hs').1, fun s₁ e addr hs₁ hd hgone hw => ?_⟩
  obtain ⟨hinv, hdirty⟩ := hkept s₁ hs₁
  have haddr := hdirty e addr hgone hw hd
  obtain ⟨addr', haddr', -, hmapped⟩ := hinv.mapped e (hinv.not_free haddr)
  rw [haddr] at haddr'
  obtain rfl := Option.some.inj haddr'
  exact hmapped

/-- **The address mapping is a partial bijection**, in every state of every run of operations, and a dirty
page leaves the cache only through a discard. -/
theorem mapping_bijective {cfg : CacheConfig} {logPageSize : Nat} {tr : List (CacheState × Call)}
    {s : CacheState} (hrun : (cacheSystem cfg logPageSize).Run (newCache logPageSize) tr s) :
    Visits MappingOk tr s ∧ Guarded (DirtyStays cfg) tr := by
  have hinv : Visits (MappingInv []) tr s ∧ Guarded (DirtyStays cfg) tr := by
    refine hrun.trace_invariant (P := fun tr s => Visits (MappingInv []) tr s ∧ Guarded (DirtyStays cfg) tr)
      ⟨visits_nil.mpr (mappingInv_newCache logPageSize), fun step hstep => absurd hstep List.not_mem_nil⟩ ?_
    rintro tr s c s' ⟨hvisits, hguarded⟩ hstep
    obtain ⟨hs', hdirty⟩ := cacheNext_leaves hvisits.last hstep
    exact ⟨visits_snoc.mpr ⟨hvisits, hs'⟩, guarded_snoc.mpr ⟨hguarded, hdirty⟩⟩
  exact ⟨hinv.1.mono fun _ h => h.mappingOk, hinv.2⟩

/-! ## A run -/

def callOf (op : CacheOp) : Call := ⟨op, 1, 5, 5, [], 2⟩

/-- A page is allocated, written back, evicted and prefetched again. -/
def writtenBack : List Call :=
  [callOf (.alloc 4096 .branch), callOf (.unlock 0), callOf (.unclaim 0), callOf (.unget 0),
    callOf (.pageSync 0 false), callOf (.complete ⟨.write [0] 0, 6⟩), callOf (.tryEvict 0 false),
    callOf (.tryEvict 0 false), callOf (.prefetch 4096 .branch)]

/-- The page is mapped as long as it is in the cache: while it is written back, but not after it has been
evicted, and again while it is loaded. -/
theorem mapping_writtenBack : ∃ tr s,
    (cacheSystem ⟨64, 1⟩ 12).Run (newCache 12) tr s ∧ Visits MappingOk tr s ∧
      Guarded (DirtyStays ⟨64, 1⟩) tr ∧
      tr.map (fun step => step.1.frames.lookupAddr 4096) =
        [none, some 0, some 0, some 0, some 0, some 0, some 0, some 0, none] ∧
      s.frames.lookupAddr 4096 = some 0 ∧ s.requests = [.prefetch [0]] := by
  have hend : (exec (cacheNext ⟨64, 1⟩) (newCache 12) writtenBack).map
      (fun r => (r.1.map (fun step => step.1.frames.lookupAddr 4096), r.2.frames.lookupAddr 4096,
        r.2.requests)) = some ([none, some 0, some 0, some 0, some 0, some 0, some 0, some 0, none], some 0,
          [.prefetch [0]]) := by decide +kernel
  obtain ⟨r, hexec, hr⟩ := Option.map_eq_some_iff.mp hend
  simp only [Prod.mk.injEq] at hr
  have hrun : (cacheSystem ⟨64, 1⟩ 12).Run (newCache 12) r.1 r.2 := run_of_exec hexec
  obtain ⟨hok, hdirty⟩ := mapping_bijective hrun
  exact ⟨r.1, r.2, hrun, hok, hdirty, hr.1, hr.2.1, hr.2.2⟩

end Cache
end TreePass
