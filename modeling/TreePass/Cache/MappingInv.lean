import TreePass.Cache.Operations

/-!
# The address mapping of the cache

What ties the lookup map, the addresses and the types of the frames and the outstanding loads together,
and what the parts of the operations do to it.

* `MappingInv` is the invariant.
* `Moves` relates the states before and after a part of an operation: the invariant is kept, and so is
  every dirty page that is neither written back nor discarded.
* `getFreePage_spec`: the hunt for a free frame moves pages out, and leaves one frame to be filled.
-/

namespace TreePass
namespace Cache

open Lib Lib.Program

/-! ## Frames -/

def Entry.has (e : Entry) (f : Flag) : Bool := testFlag e.status f.mask

@[simp] theorem has_setStatus (e : Entry) (status : EntryStatus) (f : Flag) :
    (e.setStatus status).has f = testFlag status f.mask := rfl

/-- A frame that nothing can be seen in. -/
structure Entry.Blank (e : Entry) : Prop where
  free : e.has .free = true
  loading : e.has .loading = false
  addr : e.diskAddr = none
  type : e.type = .invalid
  time : e.entryTime = 0

theorem blank_freed {e : Entry} (haddr : e.diskAddr = none) (htime : e.entryTime = 0) : e.freed.Blank := by
  have hfree : testFlag tpFreeStatus Flag.free.mask = true := by decide
  have hloading : testFlag tpFreeStatus Flag.loading.mask = false := by decide
  exact ⟨hfree, hloading, haddr, rfl, htime⟩

theorem Entry.Blank.decRef {e : Entry} (h : e.Blank) (tid : Nat) : (e.decRef tid).Blank :=
  ⟨h.free, h.loading, h.addr, h.type, h.time⟩

/-- The frame `e` holds a page at `addr` that has changed since it was read or written. -/
structure Entry.Dirty (e : Entry) (addr : Nat) : Prop where
  free : e.has .free = false
  clean : e.has .clean = false
  addr : e.diskAddr = some addr

/-- A change that leaves the page in its frame. -/
structure Entry.SamePage (e e' : Entry) : Prop where
  free : e'.has .free = e.has .free
  addr : e'.diskAddr = e.diskAddr
  blank : e.has .free = true → e'.type = e.type ∧ e'.entryTime = e.entryTime

/-- A change that neither ends a load nor makes a page clean. -/
structure Entry.Quiet (e e' : Entry) : Prop extends e.SamePage e' where
  loading : e'.has .loading = e.has .loading
  clean : e.has .free = false → e'.has .clean = true → e.has .clean = true

theorem samePage_refl (e : Entry) : e.SamePage e := ⟨rfl, rfl, fun _ => ⟨rfl, rfl⟩⟩

theorem Entry.SamePage.trans {e e' e'' : Entry} (h : e.SamePage e') (h' : e'.SamePage e'') :
    e.SamePage e'' where
  free := h'.free.trans h.free
  addr := h'.addr.trans h.addr
  blank hfree :=
    have hnow := h'.blank (h.free.trans hfree)
    have hbefore := h.blank hfree
    ⟨hnow.1.trans hbefore.1, hnow.2.trans hbefore.2⟩

theorem quiet_refl (e : Entry) : e.Quiet e := ⟨samePage_refl e, rfl, fun _ => id⟩

theorem Entry.Quiet.trans {e e' e'' : Entry} (h : e.Quiet e') (h' : e'.Quiet e'') : e.Quiet e'' :=
  ⟨h.toSamePage.trans h'.toSamePage, h'.loading.trans h.loading, fun hfree hc =>
    h.clean hfree (h'.clean (h.free.trans hfree) hc)⟩

theorem quiet_setStatus {e : Entry} {status : EntryStatus}
    (hfree : testFlag status Flag.free.mask = e.has .free)
    (hloading : testFlag status Flag.loading.mask = e.has .loading)
    (hclean : testFlag status Flag.clean.mask = true → e.has .clean = true) :
    e.Quiet (e.setStatus status) :=
  ⟨⟨hfree, rfl, fun _ => ⟨rfl, rfl⟩⟩, hloading, fun _ => hclean⟩

theorem quiet_setFlag (e : Entry) {f : Flag} (hf : f = .writeback ∨ f = .writelocked ∨ f = .claimed) :
    e.Quiet (e.setStatus (setFlag e.status f.mask)) := by
  refine quiet_setStatus ?_ ?_ ?_ <;> rcases hf with rfl | rfl | rfl <;> simp [Entry.has]

theorem quiet_clearFlag (e : Entry) {f : Flag} (hfree : f ≠ .free) (hloading : f ≠ .loading) :
    e.Quiet (e.setStatus (clearFlag e.status f.mask)) := by
  refine quiet_setStatus ?_ ?_ fun h => ?_
  · simp [Entry.has, hfree]
  · simp [Entry.has, hloading]
  · rw [testFlag_clearFlag, Bool.and_eq_true] at h
    exact h.1

theorem quiet_withClock (e : Entry) (value : EntryStatus) :
    e.Quiet (e.setStatus (withClock e.status value)) := by
  have hflag : ∀ f : Flag, testFlag (withClock e.status value) f.mask = e.has f := fun f =>
    testFlag_congr (flagBits_withClock e.status value) f
  exact quiet_setStatus (hflag _) (hflag _) fun h => (hflag .clean) ▸ h

theorem quiet_setClockAccessed (e : Entry) : e.Quiet (e.setStatus (setClockAccessed e.status)) := by
  rw [setClockAccessed]
  split
  · exact quiet_setStatus (testFlag_add _ _) (testFlag_add _ _) fun h => (testFlag_add _ _).symm.trans h
  · exact quiet_refl e

theorem quiet_subTick (e : Entry) : e.Quiet (e.setStatus (e.status - tpClockOne)) :=
  quiet_setStatus (testFlag_sub _ _) (testFlag_sub _ _) fun h => (testFlag_sub _ _).symm.trans h

theorem quiet_incRef (e : Entry) (tid : Nat) : e.Quiet (e.incRef tid) :=
  ⟨⟨rfl, rfl, fun _ => ⟨rfl, rfl⟩⟩, rfl, fun _ => id⟩

theorem quiet_decRef (e : Entry) (tid : Nat) : e.Quiet (e.decRef tid) :=
  ⟨⟨rfl, rfl, fun _ => ⟨rfl, rfl⟩⟩, rfl, fun _ => id⟩

theorem quiet_pincount (e : Entry) (pincount : Nat) : e.Quiet { e with pincount := pincount } :=
  ⟨⟨rfl, rfl, fun _ => ⟨rfl, rfl⟩⟩, rfl, fun _ => id⟩

theorem quiet_tryGetRead (e : Entry) (tid : Nat) (setAccess : Bool) :
    e.Quiet (tryGetRead e tid setAccess).2 := by
  rw [tryGetRead]
  split
  · exact quiet_refl e
  · dsimp only
    split
    · split
      · exact (quiet_incRef e tid).trans (quiet_setClockAccessed _)
      · exact quiet_incRef e tid
    · split
      · exact (quiet_incRef e tid).trans (quiet_decRef _ _)
      · exact (quiet_incRef e tid).trans (quiet_decRef _ _)

theorem quiet_tryGetClaim (e : Entry) : e.Quiet (tryGetClaim e).2 := by
  have hquiet : e.Quiet (e.setStatus (setFlag e.status tpClaimed)) :=
    quiet_setFlag e (f := .claimed) (Or.inr (Or.inr rfl))
  rw [tryGetClaim]
  split
  · exact hquiet
  · exact hquiet

theorem quiet_tryGetWrite (e : Entry) (tid : Nat) : e.Quiet (tryGetWrite e tid).2 := by
  have hset : e.Quiet (e.setStatus (setFlag e.status tpWritelocked)) :=
    quiet_setFlag e (f := .writelocked) (Or.inr (Or.inl rfl))
  have hclear : ∀ e' : Entry, e'.Quiet (e'.setStatus (clearFlag e'.status tpWritelocked)) := fun e' =>
    quiet_clearFlag e' (f := .writelocked) (by decide) (by decide)
  rw [tryGetWrite]
  split
  · exact hset.trans (hclear _)
  · split
    · exact hset
    · exact hset.trans (hclear _)

theorem Entry.Blank.quiet {e e' : Entry} (h : e.Blank) (h' : e'.Blank) : e.Quiet e' where
  free := h'.free.trans h.free.symm
  addr := h'.addr.trans h.addr.symm
  blank _ := ⟨h'.type.trans h.type.symm, h'.time.trans h.time.symm⟩
  loading := h'.loading.trans h.loading.symm
  clean hfree := by
    rw [h.free] at hfree
    cases hfree

theorem Entry.Quiet.dirty {e e' : Entry} (h : e.Quiet e') {addr : Nat} (hd : e.Dirty addr) :
    e'.Dirty addr := by
  refine ⟨h.free.trans hd.free, ?_, h.addr.trans hd.addr⟩
  by_contra hc
  have hclean := h.clean hd.free (by simpa using hc)
  rw [hd.clean] at hclean
  cases hclean

/-! ## The invariant -/

def Request.reads : Request → List Nat
  | .write _ _ => []
  | .prefetch entries => entries
  | .load entryNumber _ _ => [entryNumber]

def Request.writes : Request → List Nat
  | .write entries _ => entries
  | .prefetch _ => []
  | .load _ _ _ => []

def loads (requests : List Request) : List Nat := requests.flatMap Request.reads

/-- **The invariant of the mapping.**  `pending` are frames whose load has not been issued yet. -/
structure MappingInv (pending : List Nat) (s : CacheState) : Prop where
  mapped : ∀ e, (s.frames.entry e).has .free = false → ∃ addr,
    (s.frames.entry e).diskAddr = some addr ∧ s.frames.isPageAddr addr = true ∧
      s.frames.lookupAddr addr = some e
  lookup : ∀ n e, s.frames.lookup n = some e → (s.frames.entry e).has .free = false ∧
    (s.frames.entry e).diskAddr = some (n <<< s.frames.logPageSize)
  blank : ∀ e, (s.frames.entry e).has .free = true → (s.frames.entry e).Blank
  once : (pending ++ loads s.requests).Nodup
  loading : ∀ e ∈ pending ++ loads s.requests, (s.frames.entry e).has .loading = true

theorem MappingInv.perm {pending pending' : List Nat} {s : CacheState} (h : MappingInv pending s)
    (hperm : (pending' ++ loads s.requests).Perm (pending ++ loads s.requests)) :
    MappingInv pending' s :=
  { h with
    once := hperm.nodup_iff.mpr h.once
    loading := fun e he => h.loading e (hperm.mem_iff.mp he) }

theorem MappingInv.not_free {pending : List Nat} {s : CacheState} (h : MappingInv pending s) {e addr : Nat}
    (haddr : (s.frames.entry e).diskAddr = some addr) : (s.frames.entry e).has .free = false := by
  by_contra hfree
  have hblank := (h.blank e (by simpa using hfree)).addr
  rw [haddr] at hblank
  cases hblank

theorem MappingInv.not_free_of_loading {pending : List Nat} {s : CacheState} (h : MappingInv pending s)
    {e : Nat} (he : e ∈ pending ++ loads s.requests) : (s.frames.entry e).has .free = false := by
  by_contra hfree
  have hblank := (h.blank e (by simpa using hfree)).loading
  rw [h.loading e he] at hblank
  cases hblank

theorem MappingInv.samePages {pending pending' : List Nat} {s s' : CacheState} (h : MappingInv pending s)
    (hsize : s'.frames.logPageSize = s.frames.logPageSize) (hlookup : s'.frames.lookup = s.frames.lookup)
    (hsame : ∀ e, (s.frames.entry e).SamePage (s'.frames.entry e))
    (hblank : ∀ e, (s.frames.entry e).has .free = true → (s'.frames.entry e).has .loading = false)
    (honce : (pending' ++ loads s'.requests).Nodup)
    (hloading : ∀ e ∈ pending' ++ loads s'.requests, (s'.frames.entry e).has .loading = true) :
    MappingInv pending' s' := by
  refine ⟨fun e hfree => ?_, fun n e hn => ?_, fun e hfree => ?_, honce, hloading⟩
  · obtain ⟨addr, haddr, hpage, hmapped⟩ := h.mapped e ((hsame e).free.symm.trans hfree)
    refine ⟨addr, (hsame e).addr.trans haddr, ?_, ?_⟩
    · rw [TreePassCache.isPageAddr, TreePassCache.pageSize, hsize]
      exact hpage
    · rw [TreePassCache.lookupAddr, hlookup, hsize]
      exact hmapped
  · rw [hlookup] at hn
    obtain ⟨hfree, haddr⟩ := h.lookup n e hn
    rw [hsize]
    exact ⟨(hsame e).free.trans hfree, (hsame e).addr.trans haddr⟩
  · have hbefore := (hsame e).free.symm.trans hfree
    have hb := h.blank e hbefore
    obtain ⟨htype, htime⟩ := (hsame e).blank hbefore
    exact ⟨hfree, hblank e hbefore, (hsame e).addr.trans hb.addr, htype.trans hb.type,
      htime.trans hb.time⟩

/-- **What a part of an operation does.**  If `maps` is false, it maps no page; `gone` are the addresses it
may discard. -/
def Moves (maps : Prop) (gone : Nat → Prop) (s s' : CacheState) : Prop :=
  ∃ used, s.waits = used ++ s'.waits ∧ s'.frames.logPageSize = s.frames.logPageSize ∧
    ∀ pending, MappingInv pending s → MappingInv pending s' ∧
      (¬ maps → ∀ n, s.frames.lookup n = none → s'.frames.lookup n = none) ∧
      ∀ e addr, ¬ gone addr → (s.frames.entry e).Dirty addr →
        (∀ c ∈ used.flatten, e ∉ c.request.writes) → (s'.frames.entry e).Dirty addr

abbrev Sweeps : CacheState → CacheState → Prop := Moves False fun _ => False

section Moves

variable {maps : Prop} {gone : Nat → Prop} {s s' s'' : CacheState}

theorem Moves.refl (s : CacheState) : Moves maps gone s s :=
  ⟨[], rfl, rfl, fun _ h => ⟨h, fun _ _ hn => hn, fun _ _ _ hd _ => hd⟩⟩

theorem Moves.trans (h : Moves maps gone s s') (h' : Moves maps gone s' s'') : Moves maps gone s s'' := by
  obtain ⟨used, hused, hsize, hinv⟩ := h
  obtain ⟨used', hused', hsize', hinv'⟩ := h'
  refine ⟨used ++ used', by rw [hused, hused', List.append_assoc], hsize'.trans hsize, fun pending hs => ?_⟩
  obtain ⟨hs', hlookup, hdirty⟩ := hinv pending hs
  obtain ⟨hs'', hlookup', hdirty'⟩ := hinv' pending hs'
  refine ⟨hs'', fun hmaps n hn => hlookup' hmaps n (hlookup hmaps n hn), fun e addr hgone hd hwrites => ?_⟩
  rw [List.flatten_append] at hwrites
  exact hdirty' e addr hgone
    (hdirty e addr hgone hd fun c hc => hwrites c (List.mem_append_left _ hc))
    fun c hc => hwrites c (List.mem_append_right _ hc)

theorem Moves.mono {maps' : Prop} {gone' : Nat → Prop} (h : Moves maps gone s s') (hmaps : maps → maps')
    (hgone : ∀ addr, gone addr → gone' addr) : Moves maps' gone' s s' := by
  obtain ⟨used, hused, hsize, hinv⟩ := h
  refine ⟨used, hused, hsize, fun pending hs => ?_⟩
  obtain ⟨hs', hlookup, hdirty⟩ := hinv pending hs
  exact ⟨hs', fun hno => hlookup fun hm => hno (hmaps hm),
    fun e addr hno hd => hdirty e addr (fun hg => hno (hgone addr hg)) hd⟩

theorem Sweeps.moves (h : Sweeps s s') : Moves maps gone s s' :=
  h.mono False.elim fun _ => False.elim

theorem Sweeps.of_quiet (hwaits : s'.waits = s.waits) (hsize : s'.frames.logPageSize = s.frames.logPageSize)
    (hlookup : s'.frames.lookup = s.frames.lookup) (hloads : loads s'.requests = loads s.requests)
    (hquiet : ∀ pending, MappingInv pending s → ∀ e, (s.frames.entry e).Quiet (s'.frames.entry e)) :
    Sweeps s s' := by
  refine ⟨[], hwaits.symm, hsize, fun pending h => ⟨?_, fun _ n hn => hlookup ▸ hn,
    fun e addr _ hd _ => (hquiet pending h e).dirty hd⟩⟩
  have hq := hquiet pending h
  refine h.samePages hsize hlookup (fun e => (hq e).toSamePage) (fun e hfree => ?_) (hloads ▸ h.once)
    fun e he => ?_
  · rw [(hq e).loading]
    exact (h.blank e hfree).loading
  · rw [hloads] at he
    exact (hq e).loading.trans (h.loading e he)

theorem Sweeps.of_entry {n : Nat} {e' : Entry}
    (hquiet : ∀ pending, MappingInv pending s → (s.frames.entry n).Quiet e') :
    Sweeps s (s.setFrames (s.frames.setEntry n e')) := by
  refine Sweeps.of_quiet rfl rfl rfl rfl fun pending h e => ?_
  change (s.frames.entry e).Quiet (Function.update s.frames.entry n e' e)
  by_cases he : e = n
  · subst he
    rw [Function.update_self]
    exact hquiet pending h
  · rw [Function.update_of_ne he]
    exact quiet_refl _

theorem Sweeps.of_frames (hwaits : s'.waits = s.waits) (hframes : s'.frames = s.frames)
    (hloads : loads s'.requests = loads s.requests) : Sweeps s s' := by
  refine Sweeps.of_quiet hwaits (by rw [hframes]) (by rw [hframes]) hloads fun _ _ e => ?_
  rw [hframes]
  exact quiet_refl _

end Moves

/-! ## Pages leave and come -/

section Pages

variable {s : CacheState}

theorem MappingInv.vacate {pending : List Nat} {n addr : Nat} {e' : Entry} (h : MappingInv pending s)
    (haddr : (s.frames.entry n).diskAddr = some addr) (hloading : (s.frames.entry n).has .loading = false)
    (hblank : e'.Blank) :
    MappingInv pending (s.setFrames ((s.frames.setLookup addr none).setEntry n e')) := by
  have hother : ∀ e, e ≠ n → Function.update s.frames.entry n e' e = s.frames.entry e := fun e he =>
    Function.update_of_ne he _ _
  refine ⟨fun e hfree => ?_, fun m e hm => ?_, fun e hfree => ?_, h.once, fun e he => ?_⟩
  · change (Function.update s.frames.entry n e' e).has .free = false at hfree
    change ∃ addr', (Function.update s.frames.entry n e' e).diskAddr = some addr' ∧ _
    by_cases he : e = n
    · rw [he, Function.update_self, hblank.free] at hfree
      cases hfree
    · rw [hother e he] at hfree ⊢
      obtain ⟨addr', haddr', hpage, hmapped⟩ := h.mapped e hfree
      refine ⟨addr', haddr', hpage, ?_⟩
      -- the page that leaves is mapped to its own frame, so its place in the map is another one
      have hown : s.frames.lookup (addr >>> s.frames.logPageSize) = some n := by
        obtain ⟨addr₀, haddr₀, -, hmapped₀⟩ := h.mapped n (h.not_free haddr)
        rw [haddr] at haddr₀
        obtain rfl := Option.some.inj haddr₀
        exact hmapped₀
      have hne : addr' >>> s.frames.logPageSize ≠ addr >>> s.frames.logPageSize := by
        intro heq
        rw [TreePassCache.lookupAddr, heq, hown] at hmapped
        exact he (Option.some.inj hmapped).symm
      exact (Function.update_of_ne hne _ _).trans hmapped
  · change Function.update s.frames.lookup (addr >>> s.frames.logPageSize) none m = some e at hm
    by_cases hpage : m = addr >>> s.frames.logPageSize
    · rw [hpage, Function.update_self] at hm
      cases hm
    · rw [Function.update_of_ne hpage] at hm
      obtain ⟨hfree, hdisk⟩ := h.lookup m e hm
      have he : e ≠ n := by
        rintro rfl
        rw [haddr, Option.some.injEq] at hdisk
        rw [hdisk, Nat.shiftLeft_shiftRight] at hpage
        exact hpage rfl
      change (Function.update s.frames.entry n e' e).has .free = false ∧
        (Function.update s.frames.entry n e' e).diskAddr = _
      rw [hother e he]
      exact ⟨hfree, hdisk⟩
  · change (Function.update s.frames.entry n e' e).has .free = true at hfree
    change (Function.update s.frames.entry n e' e).Blank
    by_cases he : e = n
    · rw [he, Function.update_self]
      exact hblank
    · rw [hother e he] at hfree ⊢
      exact h.blank e hfree
  · have hne : e ≠ n := by
      rintro rfl
      have hload := h.loading e he
      rw [hloading] at hload
      cases hload
    change (Function.update s.frames.entry n e' e).has .loading = true
    rw [hother e hne]
    exact h.loading e he

theorem vacate_others (gone : Nat → Prop) {n addr : Nat} (e' : Entry) (haddr : (s.frames.entry n).diskAddr = some addr)
    (hgone : (s.frames.entry n).has .clean = true ∨ gone addr) :
    (∀ m, s.frames.lookup m = none → (s.frames.setLookup addr none).lookup m = none) ∧
      ∀ e addr', ¬ gone addr' → (s.frames.entry e).Dirty addr' →
        (((s.frames.setLookup addr none).setEntry n e').entry e).Dirty addr' := by
  refine ⟨fun m hm => ?_, fun e addr' hno hd => ?_⟩
  · change Function.update s.frames.lookup _ none m = none
    by_cases hpage : m = addr >>> s.frames.logPageSize
    · rw [hpage, Function.update_self]
    · rw [Function.update_of_ne hpage]
      exact hm
  · have hne : e ≠ n := by
      rintro rfl
      rcases hgone with hclean | hgone
      · rw [hd.clean] at hclean
        cases hclean
      · have hsame := hd.addr
        rw [haddr, Option.some.injEq] at hsame
        exact hno (hsame ▸ hgone)
    change (Function.update s.frames.entry n e' e).Dirty addr'
    rw [Function.update_of_ne hne]
    exact hd

theorem MappingInv.fill {pending pending' : List Nat} {n addr : Nat} {e' : Entry}
    (h : MappingInv pending s) (hfree : (s.frames.entry n).has .free = true)
    (hpage : s.frames.isPageAddr addr = true) (hlookup : s.frames.lookupAddr addr = none)
    (hused : e'.has .free = false) (haddr : e'.diskAddr = some addr)
    (hpending : pending' = pending ∨ e'.has .loading = true ∧ pending' = n :: pending) :
    MappingInv pending' (s.setFrames ((s.frames.setLookup addr (some n)).setEntry n e')) := by
  have hnew : n ∉ pending ++ loads s.requests := by
    intro hn
    have hload := h.loading n hn
    rw [(h.blank n hfree).loading] at hload
    cases hload
  have hother : ∀ e, e ≠ n → Function.update s.frames.entry n e' e = s.frames.entry e := fun e he =>
    Function.update_of_ne he _ _
  refine ⟨fun e hnot => ?_, fun m e hm => ?_, fun e hnot => ?_, ?_, fun e he => ?_⟩
  · change ∃ addr', (Function.update s.frames.entry n e' e).diskAddr = some addr' ∧ _ ∧
      Function.update s.frames.lookup (addr >>> s.frames.logPageSize) (some n) _ = some e
    by_cases he : e = n
    · subst he
      refine ⟨addr, ?_, hpage, Function.update_self _ _ _⟩
      rw [Function.update_self]
      exact haddr
    · change (Function.update s.frames.entry n e' e).has .free = false at hnot
      rw [hother e he] at hnot ⊢
      obtain ⟨addr', haddr', hpage', hmapped⟩ := h.mapped e hnot
      refine ⟨addr', haddr', hpage', ?_⟩
      rw [Function.update_of_ne]
      · exact hmapped
      · intro heq
        change addr' >>> s.frames.logPageSize = _ at heq
        rw [TreePassCache.lookupAddr, heq] at hmapped
        rw [TreePassCache.lookupAddr, hmapped] at hlookup
        cases hlookup
  · change Function.update s.frames.lookup (addr >>> s.frames.logPageSize) (some n) m = some e at hm
    change (Function.update s.frames.entry n e' e).has .free = false ∧
      (Function.update s.frames.entry n e' e).diskAddr = _
    by_cases hsame : m = addr >>> s.frames.logPageSize
    · subst hsame
      rw [Function.update_self] at hm
      obtain rfl := Option.some.inj hm
      rw [Function.update_self]
      refine ⟨hused, haddr.trans (congrArg some ?_)⟩
      -- the address is that of a page
      have hdvd : addr % 2 ^ s.frames.logPageSize = 0 := by
        simpa [TreePassCache.isPageAddr, TreePassCache.pageSize, Nat.shiftLeft_eq] using hpage
      change addr = (addr >>> s.frames.logPageSize) <<< s.frames.logPageSize
      rw [Nat.shiftLeft_eq, Nat.shiftRight_eq_div_pow]
      exact (Nat.div_mul_cancel (Nat.dvd_of_mod_eq_zero hdvd)).symm
    · rw [Function.update_of_ne hsame] at hm
      obtain ⟨hnot, hdisk⟩ := h.lookup m e hm
      have he : e ≠ n := by
        rintro rfl
        rw [hnot] at hfree
        cases hfree
      rw [hother e he]
      exact ⟨hnot, hdisk⟩
  · change (Function.update s.frames.entry n e' e).has .free = true at hnot
    change (Function.update s.frames.entry n e' e).Blank
    by_cases he : e = n
    · rw [he, Function.update_self, hused] at hnot
      cases hnot
    · rw [hother e he] at hnot ⊢
      exact h.blank e hnot
  · rcases hpending with rfl | ⟨-, rfl⟩
    · exact h.once
    · exact List.nodup_cons.mpr ⟨hnew, h.once⟩
  · change (Function.update s.frames.entry n e' e).has .loading = true
    by_cases hsame : e = n
    · subst hsame
      rcases hpending with rfl | ⟨hload, -⟩
      · exact absurd he hnew
      · rw [Function.update_self]
        exact hload
    · rw [hother e hsame]
      rcases hpending with rfl | ⟨-, rfl⟩
      · exact h.loading e he
      · exact h.loading e ((List.mem_cons.mp he).resolve_left hsame)

theorem MappingInv.loaded {pending : List Nat} {n : Nat} {e' : Entry} (h : MappingInv (n :: pending) s)
    (hsame : (s.frames.entry n).SamePage e') :
    MappingInv pending (s.setFrames (s.frames.setEntry n e')) := by
  have hused : (s.frames.entry n).has .free = false := h.not_free_of_loading List.mem_cons_self
  obtain ⟨hnew, honce⟩ := List.nodup_cons.mp h.once
  have hother : ∀ e, e ≠ n → Function.update s.frames.entry n e' e = s.frames.entry e := fun e he =>
    Function.update_of_ne he _ _
  refine h.samePages rfl rfl (fun e => ?_) (fun e hfree => ?_) honce fun e he => ?_
  · change (s.frames.entry e).SamePage (Function.update s.frames.entry n e' e)
    by_cases he : e = n
    · subst he
      rw [Function.update_self]
      exact hsame
    · rw [hother e he]
      exact samePage_refl _
  · change (Function.update s.frames.entry n e' e).has .loading = false
    have hne : e ≠ n := by
      rintro rfl
      rw [hused] at hfree
      cases hfree
    rw [hother e hne]
    exact (h.blank e hfree).loading
  · have hne : e ≠ n := by
      rintro rfl
      exact hnew he
    change (Function.update s.frames.entry n e' e).has .loading = true
    rw [hother e hne]
    exact h.loading e (List.mem_cons_of_mem _ he)

end Pages

end Cache
end TreePass
