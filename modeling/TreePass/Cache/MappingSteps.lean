import TreePass.Cache.HandSteps
import TreePass.Cache.MappingInv

/-!
# The parts of the operations and the mapping

What each part of an operation of the cache does to the address mapping: requests that complete, the
writeback and the clock hand, the hunt for a free frame, lookups, loads and discards.

* `wait_sweeps`: whatever completes during a wait, no page comes or goes.
* `evict_sweeps`: only clean pages are evicted.
* `getFreePage_spec`: the hunt for a free frame evicts, and leaves one frame to be filled.
* `run_moves`: what a whole call does.
-/

namespace TreePass
namespace Cache

open Lib Lib.Program

/-! ## Requests -/

section Requests

variable {s s' : CacheState}

theorem foldl_setEntry (P : Entry → Entry → Prop) (hrefl : ∀ e, P e e)
    (htrans : ∀ e e' e'', P e e' → P e' e'' → P e e'') {f : Entry → Entry} (hf : ∀ e, P e (f e))
    (entries : List Nat) : ∀ cc : TreePassCache,
      let cc' := entries.foldl (fun cc e => cc.setEntry e (f (cc.entry e))) cc
      cc'.lookup = cc.lookup ∧ cc'.logPageSize = cc.logPageSize ∧
        ∀ n, P (cc.entry n) (cc'.entry n) ∧ (n ∉ entries → cc'.entry n = cc.entry n) := by
  induction entries with
  | nil => exact fun cc => ⟨rfl, rfl, fun n => ⟨hrefl _, fun _ => rfl⟩⟩
  | cons e entries ih =>
      intro cc
      obtain ⟨hlookup, hsize, hentries⟩ := ih (cc.setEntry e (f (cc.entry e)))
      refine ⟨hlookup, hsize, fun n => ?_⟩
      obtain ⟨hP, hother⟩ := hentries n
      have hstep : P (cc.entry n) ((cc.setEntry e (f (cc.entry e))).entry n) := by
        change P (cc.entry n) (Function.update cc.entry e (f (cc.entry e)) n)
        by_cases hn : n = e
        · subst hn
          rw [Function.update_self]
          exact hf _
        · rw [Function.update_of_ne hn]
          exact hrefl _
      refine ⟨htrans _ _ _ hstep hP, fun hn => ?_⟩
      rw [List.mem_cons, not_or] at hn
      exact (hother hn.2).trans (Function.update_of_ne hn.1 _ _)

/-- What a write leaves of the frame it has written. -/
structure Entry.Written (e e' : Entry) : Prop extends e.SamePage e' where
  loading : e'.has .loading = e.has .loading

theorem written_spec (numPasses : Nat) (e : Entry) : e.Written (e.written numPasses) := by
  have hclean : e.Written (e.setStatus (setFlag e.status Flag.clean.mask)) :=
    ⟨⟨by simp [Entry.has], rfl, fun _ => ⟨rfl, rfl⟩⟩, by simp [Entry.has]⟩
  have htrans : ∀ {e₁ e₂ : Entry}, e.Written e₁ → e₁.Quiet e₂ → e.Written e₂ := fun h hq =>
    ⟨h.toSamePage.trans hq.toSamePage, hq.loading.trans h.loading⟩
  have hdone := htrans hclean (quiet_clearFlag _ (f := .writeback) (by decide) (by decide))
  rw [Entry.written]
  split
  · exact htrans hdone (quiet_withClock _ _)
  · exact hdone

/-- A change that keeps the page, and starts no load. -/
structure Entry.Still (e e' : Entry) : Prop extends e.SamePage e' where
  loading : e.has .loading = false → e'.has .loading = false

theorem still_refl (e : Entry) : e.Still e := ⟨samePage_refl e, id⟩

theorem Entry.Still.trans {e e' e'' : Entry} (h : e.Still e') (h' : e'.Still e'') : e.Still e'' :=
  ⟨h.toSamePage.trans h'.toSamePage, fun hl => h'.loading (h.loading hl)⟩

theorem Entry.Quiet.still {e e' : Entry} (h : e.Quiet e') : e.Still e' :=
  ⟨h.toSamePage, fun hl => h.loading.trans hl⟩

/-- A load that ends. -/
structure Entry.Loaded (e e' : Entry) : Prop extends e.Still e' where
  clean : e'.has .clean = e.has .clean

theorem finishLoad_spec (e : Entry) : e.Loaded e.finishLoad := by
  refine ⟨⟨⟨?_, rfl, fun _ => ⟨rfl, rfl⟩⟩, fun h => ?_⟩, ?_⟩
  · exact (testFlag_clearFlag e.status .loading .free).trans (by simp [Entry.has])
  · have hclear := testFlag_clearFlag e.status .loading .loading
    exact hclear.trans (by simp)
  · exact (testFlag_clearFlag e.status .loading .clean).trans (by simp [Entry.has])

def Completes (completions : List Completion) (s s' : CacheState) : Prop :=
  s'.waits = s.waits ∧ s'.frames.logPageSize = s.frames.logPageSize ∧
    s'.frames.lookup = s.frames.lookup ∧ ∀ pending, MappingInv pending s → MappingInv pending s' ∧
      ∀ e, (s.frames.entry e).Still (s'.frames.entry e) ∧
        ∀ addr, (s.frames.entry e).Dirty addr → (∀ c ∈ completions, e ∉ c.request.writes) →
          (s'.frames.entry e).Dirty addr

theorem callback_spec (now : Nat) {request : Request} {pending : List Nat} (h : MappingInv pending s)
    (hreads : ∀ e ∈ request.reads, e ∈ pending ++ loads s.requests) :
    let cc' := request.callback now s.frames
    cc'.lookup = s.frames.lookup ∧ cc'.logPageSize = s.frames.logPageSize ∧ ∀ e,
      (s.frames.entry e).Still (cc'.entry e) ∧
      (e ∉ request.reads → (cc'.entry e).has .loading = (s.frames.entry e).has .loading) ∧
      (e ∉ request.writes → (cc'.entry e).has .clean = (s.frames.entry e).has .clean) := by
  cases request with
  | write entries numPasses =>
      obtain ⟨hlookup, hsize, hentries⟩ := foldl_setEntry Entry.Written
        (fun e => ⟨samePage_refl e, rfl⟩)
        (fun _ _ _ h h' => ⟨h.toSamePage.trans h'.toSamePage, h'.loading.trans h.loading⟩)
        (written_spec numPasses) entries s.frames
      refine ⟨hlookup, hsize, fun e => ?_⟩
      obtain ⟨hw, hother⟩ := hentries e
      exact ⟨⟨hw.toSamePage, fun hl => hw.loading.trans hl⟩, fun _ => hw.loading,
        fun he => congrArg (Entry.has · .clean) (hother he)⟩
  | prefetch entries =>
      obtain ⟨hlookup, hsize, hentries⟩ := foldl_setEntry Entry.Loaded
        (fun e => ⟨still_refl e, rfl⟩)
        (fun _ _ _ h h' => ⟨h.toStill.trans h'.toStill, h'.clean.trans h.clean⟩)
        finishLoad_spec entries s.frames
      refine ⟨hlookup, hsize, fun e => ?_⟩
      obtain ⟨hw, hother⟩ := hentries e
      exact ⟨hw.toStill, fun he => congrArg (Entry.has · .loading) (hother he), fun _ => hw.clean⟩
  | load n type isWarm =>
      refine ⟨rfl, rfl, fun e => ?_⟩
      have hused := h.not_free_of_loading (hreads n List.mem_cons_self)
      have htimed : ∀ e₁ : Entry, e₁ = { s.frames.entry n with entryTime := now } ∨
          e₁ = s.frames.entry n → (s.frames.entry n).Loaded e₁.finishLoad := by
        rintro e₁ (rfl | rfl)
        · refine ⟨⟨⟨(finishLoad_spec _).free, rfl, fun hfree => ?_⟩, (finishLoad_spec _).loading⟩,
            (finishLoad_spec _).clean⟩
          rw [hused] at hfree
          cases hfree
        · exact finishLoad_spec _
      have hload : (s.frames.entry n).Loaded (((Request.load n type isWarm).callback now s.frames).entry n) := by
        change (s.frames.entry n).Loaded (Function.update s.frames.entry n _ n)
        rw [Function.update_self]
        refine htimed _ ?_
        split
        · exact Or.inl rfl
        · exact Or.inr rfl
      by_cases he : e = n
      · subst he
        exact ⟨hload.toStill, fun hnot => absurd List.mem_cons_self hnot, fun _ => hload.clean⟩
      · have hother : ((Request.load n type isWarm).callback now s.frames).entry e = s.frames.entry e :=
          Function.update_of_ne he _ _
        rw [hother]
        exact ⟨still_refl _, fun _ => rfl, fun _ => rfl⟩

theorem complete_spec {c : Completion} {u : Unit} (hs' : complete c s = some (u, s')) :
    Completes [c] s s' := by
  rw [complete, get_bind] at hs'
  split at hs'
  · rename_i hmem
    obtain rfl := modify_eq_some.mp hs'
    have hperm : (loads s.requests).Perm (c.request.reads ++ loads (s.requests.erase c.request)) :=
      (List.perm_cons_erase hmem).flatMap_right _
    have hreads : ∀ e ∈ c.request.reads, e ∈ loads s.requests := fun e he =>
      hperm.mem_iff.mpr (List.mem_append_left _ he)
    refine ⟨rfl, ?_, ?_, fun pending h => ?_⟩
    · cases hrequest : c.request <;> simp only [Request.callback]
      · exact (foldl_setEntry (fun _ _ => True) (fun _ => trivial) (fun _ _ _ _ _ => trivial)
          (fun _ => trivial) _ s.frames).2.1
      · exact (foldl_setEntry (fun _ _ => True) (fun _ => trivial) (fun _ _ _ _ _ => trivial)
          (fun _ => trivial) _ s.frames).2.1
      · rfl
    · cases hrequest : c.request <;> simp only [Request.callback]
      · exact (foldl_setEntry (fun _ _ => True) (fun _ => trivial) (fun _ _ _ _ _ => trivial)
          (fun _ => trivial) _ s.frames).1
      · exact (foldl_setEntry (fun _ _ => True) (fun _ => trivial) (fun _ _ _ _ _ => trivial)
          (fun _ => trivial) _ s.frames).1
      · rfl
    · obtain ⟨hlookup, hsize, hentries⟩ := callback_spec c.now h
        fun e he => List.mem_append_right _ (hreads e he)
      have hsplit : (pending ++ loads s.requests).Perm
          (c.request.reads ++ (pending ++ loads (s.requests.erase c.request))) :=
        (hperm.append_left pending).trans (by
          rw [← List.append_assoc, ← List.append_assoc]
          exact List.perm_append_comm.append_right _)
      have honce := hsplit.nodup_iff.mp h.once
      refine ⟨h.samePages hsize hlookup (fun e => (hentries e).1.toSamePage) (fun e hfree => ?_)
        (List.nodup_append.mp honce).2.1 fun e he => ?_, fun e => ⟨(hentries e).1, fun addr hd hw => ?_⟩⟩
      · exact (hentries e).1.loading (h.blank e hfree).loading
      · have hnot : e ∉ c.request.reads := fun hin =>
          (List.nodup_append.mp honce).2.2 e hin e he rfl
        rw [(hentries e).2.1 hnot]
        exact h.loading e (hsplit.mem_iff.mpr (List.mem_append_right _ he))
      · refine ⟨(hentries e).1.free.trans hd.free, ?_, (hentries e).1.addr.trans hd.addr⟩
        rw [(hentries e).2.2 (hw c List.mem_cons_self)]
        exact hd.clean
  · exact (failure_eq_some.mp hs').elim

theorem Completes.trans {completions completions' : List Completion} {s'' : CacheState}
    (h : Completes completions s s') (h' : Completes completions' s' s'') :
    Completes (completions ++ completions') s s'' := by
  obtain ⟨hwaits, hsize, hlookup, hinv⟩ := h
  obtain ⟨hwaits', hsize', hlookup', hinv'⟩ := h'
  refine ⟨hwaits'.trans hwaits, hsize'.trans hsize, hlookup'.trans hlookup, fun pending hs => ?_⟩
  obtain ⟨hs', hentries⟩ := hinv pending hs
  obtain ⟨hs'', hentries'⟩ := hinv' pending hs'
  refine ⟨hs'', fun e => ⟨(hentries e).1.trans (hentries' e).1, fun addr hd hw => ?_⟩⟩
  exact (hentries' e).2 addr
    ((hentries e).2 addr hd fun c hc => hw c (List.mem_append_left _ hc))
    fun c hc => hw c (List.mem_append_right _ hc)

theorem completeAll_spec (completions : List Completion) : ∀ {s s' : CacheState} {u : Unit},
    completions.forM complete s = some (u, s') → Completes completions s s' := by
  induction completions with
  | nil =>
      intro s s' u hs'
      obtain ⟨-, rfl⟩ := pure_eq_some.mp hs'
      exact ⟨rfl, rfl, rfl, fun pending h => ⟨h, fun e => ⟨still_refl _, fun _ hd _ => hd⟩⟩⟩
  | cons c completions ih =>
      intro s s' u hs'
      obtain ⟨_, s₁, hfirst, hrest⟩ := bind_eq_some.mp hs'
      exact (complete_spec hfirst).trans (ih hrest)

def Waits (s s' : CacheState) : Prop :=
  Sweeps s s' ∧ ∀ pending, MappingInv pending s → ∀ e, (s.frames.entry e).Still (s'.frames.entry e)

theorem Waits.refl (s : CacheState) : Waits s s := ⟨Moves.refl s, fun _ _ _ => still_refl _⟩

theorem Waits.trans {s'' : CacheState} (h : Waits s s') (h' : Waits s' s'') : Waits s s'' := by
  refine ⟨h.1.trans h'.1, fun pending hinv e => (h.2 pending hinv e).trans (h'.2 pending ?_ e)⟩
  obtain ⟨_, -, -, hmoves⟩ := h.1
  exact (hmoves pending hinv).1

theorem wait_waits : Steps Waits wait := by
  intro s u s' hs'
  rw [wait, get_bind] at hs'
  cases hwaits : s.waits with
  | nil =>
      rw [hwaits] at hs'
      exact (failure_eq_some.mp hs').elim
  | cons completions waits =>
      rw [hwaits] at hs'
      obtain ⟨hsame, hsize, hlookup, hinv⟩ := completeAll_spec completions hs'
      have h₁ : ∀ {pending}, MappingInv pending s → MappingInv pending { s with waits := waits } :=
        fun h => ⟨h.mapped, h.lookup, h.blank, h.once, h.loading⟩
      refine ⟨⟨[completions], ?_, hsize, fun pending h => ?_⟩, fun pending h e =>
        ((hinv pending (h₁ h)).2 e).1⟩
      · rw [hsame, hwaits]
        rfl
      · obtain ⟨hs', hentries⟩ := hinv pending (h₁ h)
        refine ⟨hs', fun _ n hn => hlookup ▸ hn,
          fun e addr _ hd hw => (hentries e).2 addr hd fun c hc => ?_⟩
        exact hw c (by simpa using hc)

theorem waits_bind {α β : Type} {m : CacheM α} {f : α → CacheM β} (hm : Steps Waits m)
    (hf : ∀ a, Steps Waits (f a)) : Steps Waits (m >>= f) :=
  Steps.bind (R := Waits) (fun _ _ _ h h' => Waits.trans h h') hm hf

theorem modifyEntry_waits {f : Entry → Entry} (hf : ∀ e : Entry, e.Quiet (f e)) (n : Nat) :
    Steps Waits (modifyEntry n f) := by
  refine Steps.modify fun s => ⟨Sweeps.of_entry fun _ _ => hf _, fun pending _ e => ?_⟩
  change (s.frames.entry e).Still (Function.update s.frames.entry n (f (s.frames.entry n)) e)
  by_cases he : e = n
  · subst he
    rw [Function.update_self]
    exact (hf _).still
  · rw [Function.update_of_ne he]
    exact still_refl _

theorem waitWhile_waits (flag : EntryStatus) (n fuel : Nat) : Steps Waits (waitWhile flag n fuel) :=
  waitWhile_steps Waits.refl (fun _ _ _ h h' => Waits.trans h h') wait_waits flag n fuel

theorem waitWhile_clear {flag : EntryStatus} {n fuel : Nat} : ∀ {s s' : CacheState} {u : Unit},
    waitWhile flag n fuel s = some (u, s') → testFlag (s'.frames.entry n).status flag = false := by
  induction fuel with
  | zero => exact fun h => (failure_eq_some.mp h).elim
  | succ fuel ih =>
      intro s s' u h
      rw [waitWhile, get_bind] at h
      split at h
      · obtain ⟨_, s₁, -, hrest⟩ := bind_eq_some.mp h
        exact ih hrest
      · rename_i hclear
        obtain ⟨-, rfl⟩ := pure_eq_some.mp h
        simpa using hclear

end Requests

/-! ## Steps that sweep -/

section Sweeps

variable {α β : Type}

theorem moves_pure {maps : Prop} {gone : Nat → Prop} (a : α) :
    Steps (Moves maps gone) (pure a : CacheM α) := Steps.pure Moves.refl a

theorem moves_bind {maps : Prop} {gone : Nat → Prop} {m : CacheM α} {f : α → CacheM β}
    (hm : Steps (Moves maps gone) m) (hf : ∀ a, Steps (Moves maps gone) (f a)) :
    Steps (Moves maps gone) (m >>= f) :=
  Steps.bind (R := Moves maps gone) (fun _ _ _ h h' => Moves.trans h h') hm hf

theorem moves_forM {maps : Prop} {gone : Nat → Prop} {γ : Type} {f : γ → CacheM PUnit}
    {xs : List γ} (hf : ∀ x ∈ xs, Steps (Moves maps gone) (f x)) : Steps (Moves maps gone) (xs.forM f) :=
  Steps.forM Moves.refl (fun _ _ _ h h' => Moves.trans h h') hf

theorem sweeps_moves {maps : Prop} {gone : Nat → Prop} {m : CacheM α} (hm : Steps Sweeps m) :
    Steps (Moves maps gone) m := hm.mono fun _ _ h => h.moves

theorem waits_sweeps {m : CacheM α} (hm : Steps Waits m) : Steps Sweeps m := hm.mono fun _ _ h => h.1

theorem wait_sweeps : Steps Sweeps wait := waits_sweeps wait_waits

theorem modifyEntry_sweeps {f : Entry → Entry} (hf : ∀ e : Entry, e.Quiet (f e)) (n : Nat) :
    Steps Sweeps (modifyEntry n f) := waits_sweeps (modifyEntry_waits hf n)

theorem onEntry_sweeps {helper : Entry → GetRc × Entry} (hhelper : ∀ e : Entry, e.Quiet (helper e).2) (n : Nat) :
    Steps Sweeps (onEntry n helper) := by
  intro s rc s' h
  rw [onEntry, get_bind, modify_bind] at h
  obtain ⟨-, rfl⟩ := pure_eq_some.mp h
  exact Sweeps.of_entry fun _ _ => hhelper _

theorem onEntry_spec {helper : Entry → GetRc × Entry} {n : Nat} {rc : GetRc} {s s' : CacheState}
    (h : onEntry n helper s = some (rc, s')) : rc = (helper (s.frames.entry n)).1 ∧
      s' = s.setFrames (s.frames.setEntry n (helper (s.frames.entry n)).2) := by
  rw [onEntry, get_bind, modify_bind] at h
  obtain ⟨rfl, rfl⟩ := pure_eq_some.mp h
  exact ⟨rfl, rfl⟩

theorem issueWrite_sweeps (numPasses : Nat) (entries : List Nat) :
    Steps Sweeps (issueRequest (fun entries => .write entries numPasses) entries) := by
  rw [issueRequest]
  refine Steps.ite (fun _ => moves_pure _) fun _ => Steps.modify fun s => ?_
  exact Sweeps.of_frames rfl rfl (by simp [loads, Request.reads])

/-! ## Writeback -/

def QuietFrames (cc cc' : TreePassCache) : Prop :=
  cc'.lookup = cc.lookup ∧ cc'.logPageSize = cc.logPageSize ∧ ∀ n, (cc.entry n).Quiet (cc'.entry n)

theorem QuietFrames.refl (cc : TreePassCache) : QuietFrames cc cc := ⟨rfl, rfl, fun _ => quiet_refl _⟩

theorem QuietFrames.trans {cc cc' cc'' : TreePassCache} (h : QuietFrames cc cc') (h' : QuietFrames cc' cc'') :
    QuietFrames cc cc'' :=
  ⟨h'.1.trans h.1, h'.2.1.trans h.2.1, fun n => (h.2.2 n).trans (h'.2.2 n)⟩

theorem QuietFrames.sweeps {s : CacheState} {cc : TreePassCache} (h : QuietFrames s.frames cc) : Sweeps s (s.setFrames cc) :=
  Sweeps.of_quiet rfl h.2.1 h.1 rfl fun _ _ n => h.2.2 n

theorem quietFrames_setEntry {cc : TreePassCache} {n : Nat} {e : Entry} (h : (cc.entry n).Quiet e) :
    QuietFrames cc (cc.setEntry n e) := by
  refine ⟨rfl, rfl, fun m => ?_⟩
  change (cc.entry m).Quiet (Function.update cc.entry n e m)
  by_cases hm : m = n
  · subst hm
    rw [Function.update_self]
    exact h
  · rw [Function.update_of_ne hm]
    exact quiet_refl _

theorem trySetWriteback_quiet (cc : TreePassCache) (n numPasses : Nat) :
    QuietFrames cc (trySetWriteback cc n numPasses).2 := by
  rw [trySetWriteback]
  split
  · exact quietFrames_setEntry (quiet_setFlag _ (f := .writeback) (Or.inl rfl))
  · exact QuietFrames.refl cc

theorem extendBackwards_quiet (cfg : CacheConfig) (addr numPasses fuel : Nat) :
    ∀ (cc : TreePassCache) (firstAddr : Nat),
      QuietFrames cc (extendBackwards cfg addr numPasses fuel cc firstAddr).1 := by
  induction fuel with
  | zero => exact fun cc _ => QuietFrames.refl cc
  | succ fuel ih =>
      intro cc firstAddr
      rw [extendBackwards]
      split
      · exact QuietFrames.refl cc
      · cases cc.lookupAddr (firstAddr - cc.pageSize) with
        | none => exact QuietFrames.refl cc
        | some next =>
            dsimp only
            split
            · exact (trySetWriteback_quiet cc next numPasses).trans (ih _ _)
            · exact trySetWriteback_quiet cc next numPasses

theorem extendForwards_quiet (cfg : CacheConfig) (addr numPasses fuel : Nat) :
    ∀ (cc : TreePassCache) (lastAddr : Nat),
      QuietFrames cc (extendForwards cfg addr numPasses fuel cc lastAddr).1 := by
  induction fuel with
  | zero => exact fun cc _ => QuietFrames.refl cc
  | succ fuel ih =>
      intro cc lastAddr
      rw [extendForwards]
      dsimp only
      split
      · exact QuietFrames.refl cc
      · cases cc.lookupAddr (lastAddr + cc.pageSize) with
        | none => exact QuietFrames.refl cc
        | some next =>
            dsimp only
            split
            · exact (trySetWriteback_quiet cc next numPasses).trans (ih _ _)
            · exact trySetWriteback_quiet cc next numPasses

theorem writebackAround_quiet (cfg : CacheConfig) (cc : TreePassCache) (addr numPasses : Nat) :
    QuietFrames cc (writebackAround cfg cc addr numPasses).1 :=
  (extendBackwards_quiet cfg addr numPasses _ cc addr).trans (extendForwards_quiet cfg addr numPasses _ _ addr)

theorem startWriteback_sweeps (cfg : CacheConfig) (numPasses n : Nat) :
    Steps Sweeps (startWriteback cfg numPasses n) := by
  refine Steps.get_bind fun s u s' h => ?_
  dsimp only at h
  split at h
  · exact moves_pure _ _ _ _ h
  · rw [modify_bind] at h
    refine Moves.trans (trySetWriteback_quiet s.frames n numPasses).sweeps ?_
    cases haddr : (s.frames.entry n).diskAddr with
    | none =>
        rw [haddr] at h
        exact moves_pure _ _ _ _ h
    | some addr =>
        rw [haddr] at h
        dsimp only at h
        split at h
        · rw [modify_bind] at h
          have haround := writebackAround_quiet cfg (trySetWriteback s.frames n numPasses).2 addr numPasses
          exact Moves.trans (QuietFrames.sweeps haround) (issueWrite_sweeps _ _ _ _ _ h)
        · exact moves_pure _ _ _ _ h

/-! ## Eviction and the clock hand -/

theorem testFlag_lockedEvictable (f : Flag) : testFlag tpLockedEvictableStatus f.mask =
    decide (f = .clean ∨ f = .claimed ∨ f = .writelocked) := by
  cases f <;> decide

theorem lockRel_quiet (tid : Nat) : LockRel tid Entry.Quiet where
  refl := quiet_refl
  trans := fun _ _ _ h h' => h.trans h'
  tick := quiet_subTick
  read := fun e => quiet_tryGetRead e tid false
  claim := quiet_tryGetClaim
  write := fun e => quiet_tryGetWrite e tid
  unclaim := fun e => quiet_clearFlag e (f := .claimed) (by decide) (by decide)
  unlock := fun e => quiet_clearFlag e (f := .writelocked) (by decide) (by decide)
  unget := fun e => quiet_decRef e tid

theorem evict_sweeps (tid : Nat) (eePass : Bool) (n : Nat) : Steps Sweeps (evict tid eePass n) := by
  refine Steps.get_bind fun s evicted s' h => ?_
  rw [modify_bind] at h
  obtain ⟨-, rfl⟩ := pure_eq_some.mp h
  rcases tryEvict_cases (lockRel_quiet tid) s.frames n eePass with
    ⟨e', hquiet, heq⟩ | ⟨e', hquiet, hverified, heq⟩
  · rw [heq]
    exact (quietFrames_setEntry hquiet).sweeps
  · have hflag : ∀ f, e'.has f = decide (f = .clean ∨ f = .claimed ∨ f = .writelocked) := fun f => by
      rw [Entry.has, hverified, testFlag_lockedEvictable]
    have hfree := hquiet.free.symm.trans (hflag .free)
    have hclean := hquiet.clean hfree (hflag .clean)
    rw [heq]
    cases haddr : (s.frames.entry n).diskAddr with
    | none =>
        refine ⟨[], rfl, ?_, fun pending hinv => ?_⟩
        · unfold freeEntry
          rw [hquiet.addr.trans haddr]
          rfl
        · obtain ⟨addr, hsome, -⟩ := hinv.mapped n hfree
          rw [haddr] at hsome
          cases hsome
    | some addr =>
        -- The page leaves: the map forgets it, and its frame is free.
        have hleft : (freeEntry s.frames n e').1.setEntry n ((freeEntry s.frames n e').2.decRef tid) =
            (s.frames.setLookup addr none).setEntry n
              ((({ e' with diskAddr := none, entryTime := 0 } : Entry).freed).decRef tid) := by
          simp [freeEntry, hquiet.addr.trans haddr, TreePassCache.setEntry, TreePassCache.setLookup,
            Entry.freed]
        rw [hleft]
        refine ⟨[], rfl, rfl, fun pending hinv => ?_⟩
        obtain ⟨hlookup, hdirty⟩ := vacate_others (fun _ => False) _ haddr (Or.inl hclean)
        exact ⟨hinv.vacate haddr (hquiet.loading.symm.trans (hflag .loading))
          ((blank_freed rfl rfl).decRef tid), fun _ => hlookup,
          fun e addr' hno hd _ => hdirty e addr' hno hd⟩

theorem handRel_sweeps (cfg : CacheConfig) : HandRel cfg Sweeps where
  refl := Moves.refl
  trans := fun _ _ _ h h' => Moves.trans h h'
  beside := fun _ _ hframes hrequests hwaits => Sweeps.of_frames hwaits hframes (by rw [hrequests])
  evicts := evict_sweeps
  writes := startWriteback_sweeps cfg
  waits := wait_sweeps

/-! ## The hunt for a free frame -/

/-- The frame that has been taken: the rest of the cache has been swept, and the frame was free. -/
def Taken (s : CacheState) (n : Nat) (status : EntryStatus) (s' : CacheState) : Prop :=
  ∃ s₁ e₁, Sweeps s s₁ ∧ (s₁.frames.entry n).status = tpFreeStatus ∧
    s' = s₁.setFrames (s₁.frames.setEntry n e₁) ∧ e₁.status = status ∧
    e₁.diskAddr = (s₁.frames.entry n).diskAddr ∧ e₁.entryTime = (s₁.frames.entry n).entryTime

theorem Taken.after {s s₀ s' : CacheState} {n : Nat} {status : EntryStatus} (hfirst : Sweeps s s₀)
    (h : Taken s₀ n status s') : Taken s n status s' := by
  obtain ⟨s₁, e₁, hsweeps, hrest⟩ := h
  exact ⟨s₁, e₁, hfirst.trans hsweeps, hrest⟩

theorem getFreePage_spec {cfg : CacheConfig} {tid fuel : Nat} {status : EntryStatus} {type : PageType}
    {refcount : Bool} {s s' : CacheState} {n : Nat}
    (h : getFreePage cfg tid fuel status type refcount s = some (n, s')) :
    Taken s n status s' := by
  obtain ⟨s₁, m, hsweeps, hfree, htakes⟩ := (handRel_sweeps cfg).getFreePage_takes h
  obtain ⟨_, s₂, hmodify, hpure⟩ := bind_eq_some.mp htakes
  obtain ⟨rfl, rfl⟩ := pure_eq_some.mp hpure
  rw [← modify_eq_some.mp hmodify]
  refine ⟨s₁, _, hsweeps, hfree, rfl, rfl, ?_, ?_⟩
  · cases refcount <;> rfl
  · cases refcount <;> rfl

def Shifts (before after : List Nat) (s s' : CacheState) : Prop :=
  ∃ used, s.waits = used ++ s'.waits ∧ s'.frames.logPageSize = s.frames.logPageSize ∧
    ∀ pending, MappingInv (before ++ pending) s → MappingInv (after ++ pending) s' ∧
      ∀ e addr, (s.frames.entry e).Dirty addr → (∀ c ∈ used.flatten, e ∉ c.request.writes) →
        (s'.frames.entry e).Dirty addr

theorem Shifts.trans {before between after : List Nat} {s s₁ s' : CacheState}
    (h : Shifts before between s s₁) (h' : Shifts between after s₁ s') : Shifts before after s s' := by
  obtain ⟨used, hused, hsize, hinv⟩ := h
  obtain ⟨used', hused', hsize', hinv'⟩ := h'
  refine ⟨used ++ used', by rw [hused, hused', List.append_assoc], hsize'.trans hsize, fun pending hs => ?_⟩
  obtain ⟨hs₁, hdirty⟩ := hinv pending hs
  obtain ⟨hs', hdirty'⟩ := hinv' pending hs₁
  refine ⟨hs', fun e addr hd hw => ?_⟩
  rw [List.flatten_append] at hw
  exact hdirty' e addr (hdirty e addr hd fun c hc => hw c (List.mem_append_left _ hc))
    fun c hc => hw c (List.mem_append_right _ hc)

theorem Sweeps.shifts {s s' : CacheState} (h : Sweeps s s') (frames : List Nat) :
    Shifts frames frames s s' := by
  obtain ⟨used, hused, hsize, hinv⟩ := h
  exact ⟨used, hused, hsize, fun pending hs =>
    ⟨(hinv _ hs).1, fun e addr hd hw => (hinv _ hs).2.2 e addr id hd hw⟩⟩

theorem Shifts.moves {s s' : CacheState} {gone : Nat → Prop} (h : Shifts [] [] s s') :
    Moves True gone s s' := by
  obtain ⟨used, hused, hsize, hinv⟩ := h
  exact ⟨used, hused, hsize, fun pending hs =>
    ⟨(hinv pending hs).1, fun hno => absurd trivial hno, fun e addr _ hd hw => (hinv pending hs).2 e addr hd hw⟩⟩

section Taken

variable {s s' s'' : CacheState} {n addr : Nat} {status : EntryStatus}

theorem free_of_status {e : Entry} (h : e.status = tpFreeStatus) : e.has .free = true := by
  have hflag : testFlag tpFreeStatus Flag.free.mask = true := by decide
  rw [Entry.has, h]
  exact hflag

theorem Taken.fill (h : Taken s n status s') (e' : Entry) (hpage : s.frames.isPageAddr addr = true)
    (hlookup : s.frames.lookupAddr addr = none ∨ s'.frames.lookupAddr addr = none)
    (hused : e'.has .free = false) (haddr : e'.diskAddr = some addr) {pending' : List Nat}
    (hpending : pending' = [] ∨ e'.has .loading = true ∧ pending' = [n])
    (hs'' : s'' = s'.setFrames ((s'.frames.setLookup addr (some n)).setEntry n e')) :
    Shifts [] pending' s s'' := by
  obtain ⟨s₁, e₁, ⟨used, hwaits, hsize, hinv⟩, hstatus, rfl, -⟩ := h
  have hfree := free_of_status hstatus
  have hs₁ : s'' = s₁.setFrames ((s₁.frames.setLookup addr (some n)).setEntry n e') := by
    rw [hs'']
    simp [CacheState.setFrames, TreePassCache.setLookup, TreePassCache.setEntry]
  rw [hs₁]
  refine ⟨used, hwaits, hsize, fun pending hs => ?_⟩
  obtain ⟨hmapping, hunmapped, hdirty⟩ := hinv pending hs
  have hpage₁ : s₁.frames.isPageAddr addr = true := by
    rwa [TreePassCache.isPageAddr, TreePassCache.pageSize, hsize]
  have hlookup₁ : s₁.frames.lookupAddr addr = none := by
    rcases hlookup with hlookup | hlookup
    · rw [TreePassCache.lookupAddr, hsize]
      exact hunmapped id _ hlookup
    · exact hlookup
  refine ⟨hmapping.fill hfree hpage₁ hlookup₁ hused haddr ?_, fun e addr' hd hw => ?_⟩
  · rcases hpending with rfl | ⟨hload, rfl⟩
    · exact Or.inl rfl
    · exact Or.inr ⟨hload, rfl⟩
  · have hkept := hdirty e addr' id hd hw
    have hne : e ≠ n := by
      rintro rfl
      rw [hkept.free] at hfree
      cases hfree
    change (Function.update s₁.frames.entry n e' e).Dirty addr'
    rw [Function.update_of_ne hne]
    exact hkept

theorem Taken.load (h : Taken s n tpReadLoadingStatus s') (e' : Entry)
    (hpage : s.frames.isPageAddr addr = true) (hlookup : s'.frames.lookupAddr addr = none)
    (hsame : e'.status = (s'.frames.entry n).status) (haddr : e'.diskAddr = some addr)
    (hs'' : s'' = s'.setFrames ((s'.frames.setLookup addr (some n)).setEntry n e')) :
    Shifts [] [n] s s'' := by
  have hflag : ∀ f : Flag, e'.has f = testFlag tpReadLoadingStatus f.mask := by
    obtain ⟨s₀, e₀, -, -, rfl, hstatus, -⟩ := h
    intro f
    rw [Entry.has, hsame]
    simp [CacheState.setFrames, TreePassCache.setEntry, hstatus]
  have hused : testFlag tpReadLoadingStatus Flag.free.mask = false := by decide
  have hloading : testFlag tpReadLoadingStatus Flag.loading.mask = true := by decide
  exact h.fill e' hpage (Or.inr hlookup) ((hflag .free).trans hused) haddr
    (Or.inr ⟨(hflag .loading).trans hloading, rfl⟩) hs''

theorem Taken.release (h : Taken s n status s') {f : Entry → Entry}
    (hblank : ∀ e : Entry, e.diskAddr = none → e.entryTime = 0 → (f e).Blank)
    (hs'' : s'' = s'.setFrames (s'.frames.setEntry n (f (s'.frames.entry n)))) : Sweeps s s'' := by
  obtain ⟨s₁, e₁, hsweeps, hstatus, rfl, -, haddr, htime⟩ := h
  have hs₁ : s'' = s₁.setFrames (s₁.frames.setEntry n (f e₁)) := by
    rw [hs'']
    simp [CacheState.setFrames, TreePassCache.setEntry]
  rw [hs₁]
  refine hsweeps.trans (Sweeps.of_entry fun pending hinv => ?_)
  have hbefore := hinv.blank n (free_of_status hstatus)
  exact hbefore.quiet (hblank e₁ (haddr.trans hbefore.addr) (htime.trans hbefore.time))

end Taken

/-! ## Allocation -/

theorem mapFrame_shifts {s s' s'' : CacheState} {n addr entryTime : Nat} {status : EntryStatus}
    {type : PageType} {u : Unit} (h : Taken s n status s') (hused : testFlag status Flag.free.mask = false)
    (hpage : s.frames.isPageAddr addr = true) (hlookup : s.frames.lookupAddr addr = none)
    (hmap : mapFrame n addr type entryTime s' = some (u, s'')) : Shifts [] [] s s'' := by
  have hframe : (s'.frames.entry n).has .free = false := by
    obtain ⟨s₁, e₁, -, -, rfl, hstatus, -⟩ := h
    rw [Entry.has]
    simpa [CacheState.setFrames, TreePassCache.setEntry, hstatus] using hused
  obtain ⟨_, s₂, hmodify, hstore⟩ := bind_eq_some.mp hmap
  refine h.fill { s'.frames.entry n with diskAddr := some addr, type := type, entryTime := entryTime }
    hpage (Or.inl hlookup) hframe rfl (Or.inl rfl) ?_
  rw [← modify_eq_some.mp hstore, ← modify_eq_some.mp hmodify]
  rfl

theorem alloc_moves {cfg : CacheConfig} {tid ts fuel addr : Nat} {type : PageType} {s s' : CacheState}
    {n : Nat} (hpage : s.frames.isPageAddr addr = true) (hlookup : s.frames.lookupAddr addr = none)
    (h : alloc cfg tid ts fuel addr type s = some (n, s')) : Moves True (fun _ => False) s s' := by
  have hused : testFlag (tpAllocStatus ||| tpClockOne) Flag.free.mask = false := by decide
  obtain ⟨m, s₁, htake, hrest⟩ := bind_eq_some.mp h
  split at hrest
  · exact (failure_eq_some.mp hrest).elim
  · obtain ⟨_, s₂, hmap, hpure⟩ := bind_eq_some.mp hrest
    obtain ⟨-, rfl⟩ := pure_eq_some.mp hpure
    exact (mapFrame_shifts (getFreePage_spec htake) hused hpage hlookup hmap).moves

theorem allocCompactionHot_moves {cfg : CacheConfig} {tid now fuel addr : Nat} {type : PageType}
    {s s' : CacheState} {n : Nat} (hpage : s.frames.isPageAddr addr = true)
    (hlookup : s.frames.lookupAddr addr = none)
    (h : allocCompactionHot cfg tid now fuel addr type s = some (n, s')) :
    Moves True (fun _ => False) s s' := by
  have hused : testFlag (tpAllocStatus ||| tpClockMax <<< tpClockShift) Flag.free.mask = false := by
    decide
  obtain ⟨m, s₁, htake, hrest⟩ := bind_eq_some.mp h
  obtain ⟨_, s₂, hmap, hpure⟩ := bind_eq_some.mp hrest
  obtain ⟨-, rfl⟩ := pure_eq_some.mp hpure
  exact (mapFrame_shifts (getFreePage_spec htake) hused hpage hlookup hmap).moves

/-! ## Lookups and loads -/

theorem onEntry_tryGetRead (n tid : Nat) (setAccess : Bool) :
    Steps Sweeps (onEntry n fun e => tryGetRead e tid setAccess) :=
  onEntry_sweeps (fun e => quiet_tryGetRead e tid setAccess) n

theorem dropRef_sweeps (n tid : Nat) : Steps Sweeps (modifyEntry n (·.decRef tid)) :=
  modifyEntry_sweeps (fun e => quiet_decRef e tid) n

theorem finishGet_sweeps (tid ts addr : Nat) (type : PageType) (isWarm : Bool) (n : Nat) :
    Steps Sweeps (finishGet tid ts addr type isWarm n) := by
  refine Steps.get_bind fun s result s' h => ?_
  dsimp only at h
  split at h
  · exact moves_bind (dropRef_sweeps n tid) (fun _ => moves_pure _) _ _ _ h
  · rename_i haddr
    rw [not_not] at haddr
    split at h
    · exact (failure_eq_some.mp h).elim
    · split at h
      · obtain ⟨_, s₁, hmodify, hpure⟩ := bind_eq_some.mp h
        obtain ⟨-, rfl⟩ := pure_eq_some.mp hpure
        rw [← modify_eq_some.mp hmodify]
        refine Sweeps.of_entry fun pending hinv => ⟨⟨rfl, rfl, fun hfree => ?_⟩, rfl, fun _ => id⟩
        rw [hinv.not_free haddr] at hfree
        cases hfree
      · exact moves_pure _ _ _ _ h

theorem getInCache_sweeps (tid ts fuel addr : Nat) (blocking : Bool) (type : PageType) (isWarm : Bool)
    (n : Nat) : Steps Sweeps (getInCache tid ts fuel addr blocking type isWarm n) := by
  refine moves_bind (onEntry_tryGetRead n tid true) fun rc => ?_
  cases rc with
  | evicted => exact moves_pure _
  | conflict => exact Steps.ite (fun _ => Steps.failure) fun _ => moves_pure _
  | flushing => exact Steps.failure
  | success =>
      refine Steps.get_bind fun s result s' h => ?_
      split at h
      · exact moves_bind (dropRef_sweeps n tid) (fun _ => moves_pure _) _ _ _ h
      · exact moves_bind (waits_sweeps (waitWhile_waits _ _ _)) (fun _ => finishGet_sweeps _ _ _ _ _ _)
          _ _ _ h

theorem acquireEntryForLoad_spec {cfg : CacheConfig} {tid fuel addr : Nat} {type : PageType}
    {s s' : CacheState} {result : Option Nat} (hpage : s.frames.isPageAddr addr = true)
    (h : acquireEntryForLoad cfg tid fuel addr type s = some (result, s')) :
    Shifts [] result.toList s s' := by
  obtain ⟨n, s₁, htake, hrest⟩ := bind_eq_some.mp h
  have htaken := getFreePage_spec htake
  rw [get_bind] at hrest
  split at hrest
  · rename_i hlookup
    obtain ⟨_, s₂, hstore, hrest⟩ := bind_eq_some.mp hrest
    obtain ⟨_, s₃, hmodify, hpure⟩ := bind_eq_some.mp hrest
    obtain ⟨rfl, rfl⟩ := pure_eq_some.mp hpure
    refine htaken.load { s₁.frames.entry n with diskAddr := some addr } hpage hlookup rfl rfl ?_
    rw [← modify_eq_some.mp hmodify, ← modify_eq_some.mp hstore]
    rfl
  · obtain ⟨_, s₂, hmodify, hpure⟩ := bind_eq_some.mp hrest
    obtain ⟨rfl, rfl⟩ := pure_eq_some.mp hpure
    refine Sweeps.shifts (htaken.release (f := fun e => (e.decRef tid).freed) (fun e haddr htime => ?_) ?_) []
    · exact blank_freed haddr htime
    · exact (modify_eq_some.mp hmodify).symm

theorem getFromDisk_moves {cfg : CacheConfig} {tid ts fuel addr : Nat} {type : PageType} {isWarm : Bool}
    {s s' : CacheState} {result : GetResult} (hpage : s.frames.isPageAddr addr = true)
    (h : getFromDisk cfg tid ts fuel addr type isWarm s = some (result, s')) :
    Moves True (fun _ => False) s s' := by
  obtain ⟨acquired, s₁, hacquire, hrest⟩ := bind_eq_some.mp h
  have hfirst := acquireEntryForLoad_spec hpage hacquire
  cases acquired with
  | none =>
      obtain ⟨-, rfl⟩ := pure_eq_some.mp hrest
      exact hfirst.moves
  | some n =>
      dsimp only at hrest
      split at hrest
      · exact (failure_eq_some.mp hrest).elim
      · obtain ⟨_, s₂, hmodify, hpure⟩ := bind_eq_some.mp hrest
        obtain ⟨-, rfl⟩ := pure_eq_some.mp hpure
        rw [← modify_eq_some.mp hmodify]
        refine Shifts.moves (Shifts.trans hfirst ?_)
        refine ⟨[], rfl, rfl, fun pending hinv => ?_⟩
        have hused := hinv.not_free_of_loading List.mem_cons_self
        have hloaded : ∀ e₁ : Entry, e₁ = { s₁.frames.entry n with entryTime := ts } ∨
            e₁ = s₁.frames.entry n → (s₁.frames.entry n).Loaded e₁.finishLoad := by
          rintro e₁ (rfl | rfl)
          · refine ⟨⟨⟨(finishLoad_spec _).free, rfl, fun hfree => ?_⟩, (finishLoad_spec _).loading⟩,
              (finishLoad_spec _).clean⟩
            rw [hused] at hfree
            cases hfree
          · exact finishLoad_spec _
        have hload := hloaded (if setsEntryTime type isWarm then { s₁.frames.entry n with entryTime := ts }
          else s₁.frames.entry n) (by split <;> simp)
        refine ⟨hinv.loaded hload.toSamePage, fun e addr' hd _ => ?_⟩
        change (Function.update s₁.frames.entry n _ e).Dirty addr'
        by_cases he : e = n
        · subst he
          rw [Function.update_self]
          exact ⟨hload.free.trans hd.free, hload.clean.trans hd.clean, hload.addr.trans hd.addr⟩
        · rw [Function.update_of_ne he]
          exact hd

theorem getInternal_moves {cfg : CacheConfig} {tid ts fuel addr : Nat} {blocking : Bool} {type : PageType}
    {isWarm : Bool} {s s' : CacheState} {result : GetResult} (hpage : s.frames.isPageAddr addr = true)
    (h : getInternal cfg tid ts fuel addr blocking type isWarm s = some (result, s')) :
    Moves True (fun _ => False) s s' := by
  rw [getInternal, get_bind] at h
  cases hlookup : s.frames.lookupAddr addr with
  | some n =>
      rw [hlookup] at h
      exact (getInCache_sweeps _ _ _ _ _ _ _ _ _ _ _ h).moves
  | none =>
      rw [hlookup] at h
      dsimp only at h
      split at h
      · exact getFromDisk_moves hpage h
      · exact moves_pure _ _ _ _ h

theorem Moves.isPageAddr {maps : Prop} {gone : Nat → Prop} {s s' : CacheState} (h : Moves maps gone s s')
    {addr : Nat} (hpage : s.frames.isPageAddr addr = true) : s'.frames.isPageAddr addr = true := by
  obtain ⟨_, -, hsize, -⟩ := h
  rwa [TreePassCache.isPageAddr, TreePassCache.pageSize, hsize]

theorem getPage_moves {cfg : CacheConfig} {tid ts fuel addr : Nat} {blocking : Bool} {type : PageType}
    {isWarm : Bool} (attempts : Nat) : ∀ {s s' : CacheState} {result : Option Nat},
      s.frames.isPageAddr addr = true →
        getPage cfg tid ts fuel addr blocking type isWarm attempts s = some (result, s') →
          Moves True (fun _ => False) s s' := by
  induction attempts with
  | zero => exact fun _ h => (failure_eq_some.mp h).elim
  | succ attempts ih =>
      intro s s' result hpage h
      obtain ⟨tried, s₁, hfirst, hrest⟩ := bind_eq_some.mp h
      have hmoves := getInternal_moves hpage hfirst
      cases tried with
      | page n =>
          obtain ⟨-, rfl⟩ := pure_eq_some.mp hrest
          exact hmoves
      | retry => exact hmoves.trans (ih (hmoves.isPageAddr hpage) hrest)

theorem getAsync_moves {cfg : CacheConfig} {tid ts fuel addr : Nat} {type : PageType} {isWarm : Bool}
    {s s' : CacheState} {result : GetResult} (hpage : s.frames.isPageAddr addr = true)
    (h : getAsync cfg tid ts fuel addr type isWarm s = some (result, s')) :
    Moves True (fun _ => False) s s' := by
  rw [getAsync, get_bind] at h
  cases hlookup : s.frames.lookupAddr addr with
  | some n =>
      rw [hlookup] at h
      obtain ⟨rc, s₁, hread, hrest⟩ := bind_eq_some.mp h
      refine Moves.trans (onEntry_tryGetRead n tid true _ _ _ hread).moves ?_
      cases rc with
      | evicted => exact moves_pure _ _ _ _ hrest
      | conflict => exact (failure_eq_some.mp hrest).elim
      | flushing => exact (failure_eq_some.mp hrest).elim
      | success =>
          dsimp only at hrest
          rw [get_bind] at hrest
          split at hrest
          · exact moves_bind (sweeps_moves (dropRef_sweeps n tid)) (fun _ => moves_pure _) _ _ _ hrest
          · split at hrest
            · exact moves_pure _ _ _ _ hrest
            · exact (finishGet_sweeps _ _ _ _ _ _ _ _ _ hrest).moves
  | none =>
      rw [hlookup] at h
      obtain ⟨acquired, s₁, hacquire, hrest⟩ := bind_eq_some.mp h
      have hfirst := acquireEntryForLoad_spec hpage hacquire
      cases acquired with
      | none =>
          obtain ⟨-, rfl⟩ := pure_eq_some.mp hrest
          exact hfirst.moves
      | some n =>
          obtain ⟨_, s₂, hmodify, hpure⟩ := bind_eq_some.mp hrest
          obtain ⟨-, rfl⟩ := pure_eq_some.mp hpure
          rw [← modify_eq_some.mp hmodify]
          refine Shifts.moves (Shifts.trans hfirst ?_)
          refine ⟨[], rfl, rfl, fun pending hinv => ⟨?_, fun _ _ hd _ => hd⟩⟩
          have hloads : loads (s₁.requests ++ [.load n type isWarm]) = loads s₁.requests ++ [n] := by
            simp [loads, Request.reads]
          have hperm : (pending ++ (loads s₁.requests ++ [n])).Perm (n :: pending ++ loads s₁.requests) := by
            rw [← List.append_assoc]
            exact List.perm_append_singleton n _
          refine ⟨hinv.mapped, hinv.lookup, hinv.blank, ?_, fun e he => ?_⟩
          · rw [List.nil_append, hloads]
            exact hperm.nodup_iff.mpr hinv.once
          · rw [List.nil_append, hloads] at he
            exact hinv.loading e (hperm.mem_iff.mp he)

/-! ## Prefetch -/

theorem Shifts.snoc {s s' : CacheState} {n : Nat} (h : Shifts [] [n] s s') (frames : List Nat) :
    Shifts frames (frames ++ [n]) s s' := by
  obtain ⟨used, hused, hsize, hinv⟩ := h
  refine ⟨used, hused, hsize, fun pending hs => ?_⟩
  obtain ⟨hs', hdirty⟩ := hinv (frames ++ pending) hs
  refine ⟨hs'.perm ?_, hdirty⟩
  have hperm : (frames ++ [n] ++ pending).Perm ([n] ++ (frames ++ pending)) := by
    rw [← List.append_assoc]
    exact List.perm_append_comm.append_right _
  exact hperm.append_right _

theorem issuePrefetch_spec {s s' : CacheState} {frames : List Nat} {u : Unit}
    (h : issueRequest .prefetch frames s = some (u, s')) : Shifts frames [] s s' := by
  rw [issueRequest] at h
  split at h
  · rename_i hnil
    obtain ⟨-, rfl⟩ := pure_eq_some.mp h
    rw [hnil]
    exact Sweeps.shifts (Moves.refl s) []
  · rw [← modify_eq_some.mp h]
    refine ⟨[], rfl, rfl, fun pending hinv => ⟨?_, fun _ _ hd _ => hd⟩⟩
    have hloads : loads (s.requests ++ [.prefetch frames]) = loads s.requests ++ frames := by
      simp [loads, Request.reads]
    have hperm : (pending ++ (loads s.requests ++ frames)).Perm (frames ++ pending ++ loads s.requests) := by
      rw [← List.append_assoc, List.append_assoc frames]
      exact List.perm_append_comm
    refine ⟨hinv.mapped, hinv.lookup, hinv.blank, ?_, fun e he => ?_⟩
    · rw [List.nil_append, hloads]
      exact hperm.nodup_iff.mpr hinv.once
    · rw [List.nil_append, hloads] at he
      exact hinv.loading e (hperm.mem_iff.mp he)

theorem prefetchPages_spec {cfg : CacheConfig} {tid : Nat} {type : PageType} (fuel : Nat) :
    ∀ {addrs frames : List Nat} {s s' : CacheState} {u : Unit},
      (∀ addr ∈ addrs, s.frames.isPageAddr addr = true) →
        prefetchPages cfg tid type fuel addrs frames s = some (u, s') → Shifts frames [] s s' := by
  induction fuel with
  | zero => exact fun _ h => (failure_eq_some.mp h).elim
  | succ fuel ih =>
      intro addrs frames s s' u hpages h
      cases addrs with
      | nil => exact issuePrefetch_spec h
      | cons addr addrs =>
          rw [prefetchPages, get_bind] at h
          obtain ⟨rc, s₁, hread, hrest⟩ := bind_eq_some.mp h
          have hfirst : Sweeps s s₁ := by
            cases hlookup : s.frames.lookupAddr addr with
            | some n =>
                rw [hlookup] at hread
                exact onEntry_tryGetRead n tid true _ _ _ hread
            | none =>
                rw [hlookup] at hread
                exact moves_pure _ _ _ _ hread
          have hissue : ∀ {s₂ : CacheState}, Sweeps s s₂ → ∀ {u : Unit},
              (do issueRequest .prefetch frames
                  prefetchPages cfg tid type fuel addrs [] : CacheM Unit) s₂ = some (u, s') →
                Shifts frames [] s s' := by
            intro s₂ hs₂ u hrun
            obtain ⟨_, s₃, hrequest, hloop⟩ := bind_eq_some.mp hrun
            have hmore := (hs₂.shifts frames).trans (issuePrefetch_spec hrequest)
            refine hmore.trans (ih (fun a ha => ?_) hloop)
            obtain ⟨_, -, hsize, -⟩ := hmore
            rw [TreePassCache.isPageAddr, TreePassCache.pageSize, hsize]
            exact hpages a (List.mem_cons_of_mem _ ha)
          cases rc with
          | success =>
              obtain ⟨_, s₂, hdrop, hrun⟩ := bind_eq_some.mp hrest
              exact hissue (hfirst.trans (dropRef_sweeps _ _ _ _ _ hdrop)) hrun
          | conflict => exact hissue hfirst hrest
          | flushing => exact (failure_eq_some.mp hrest).elim
          | evicted =>
              obtain ⟨n, s₂, htake, hrest⟩ := bind_eq_some.mp hrest
              have htaken := Taken.after hfirst (getFreePage_spec htake)
              have hpage := hpages addr List.mem_cons_self
              obtain ⟨_, s₃, hmodify, hrest⟩ := bind_eq_some.mp hrest
              have hs₃ := modify_eq_some.mp hmodify
              rw [get_bind] at hrest
              split at hrest
              · rename_i hlookup
                obtain ⟨_, s₄, hstore, hloop⟩ := bind_eq_some.mp hrest
                have hs₄ := modify_eq_some.mp hstore
                have hlookup₂ : s₂.frames.lookupAddr addr = none := by
                  rw [← hs₃] at hlookup
                  exact hlookup
                have hmore : Shifts [] [n] s s₄ := by
                  refine htaken.load { s₂.frames.entry n with diskAddr := some addr, type := type } hpage
                    hlookup₂ rfl rfl ?_
                  rw [← hs₄, ← hs₃]
                  rfl
                refine (hmore.snoc frames).trans (ih (fun a ha => ?_) hloop)
                obtain ⟨_, -, hsize, -⟩ := hmore
                rw [TreePassCache.isPageAddr, TreePassCache.pageSize, hsize]
                exact hpages a (List.mem_cons_of_mem _ ha)
              · obtain ⟨_, s₄, hgive, hloop⟩ := bind_eq_some.mp hrest
                have hs₄ := modify_eq_some.mp hgive
                have hback : Sweeps s s₄ := by
                  refine htaken.release (f := fun e => Entry.freed
                    { { e with diskAddr := some addr, type := type } with diskAddr := none, entryTime := 0 })
                    (fun e _ _ => blank_freed rfl rfl) ?_
                  rw [← hs₄, ← hs₃]
                  simp [CacheState.setFrames, TreePassCache.setEntry]
                refine (hback.shifts frames).trans (ih (fun a ha => ?_) hloop)
                exact Moves.isPageAddr hback (hpages a ha)

theorem isPageAddr_of_mem {cfg : CacheConfig} {cc : TreePassCache} {addr pageAddr : Nat}
    (hpage : cc.isPageAddr addr = true) (h : pageAddr ∈ extentPages cfg cc addr) :
    cc.isPageAddr pageAddr = true := by
  obtain ⟨i, -, rfl⟩ := List.mem_map.mp h
  have hmod : addr % 2 ^ cc.logPageSize = 0 := by
    simpa [TreePassCache.isPageAddr, TreePassCache.pageSize, Nat.shiftLeft_eq] using hpage
  rw [TreePassCache.isPageAddr, TreePassCache.pageSize, beq_iff_eq, Nat.shiftLeft_eq, Nat.shiftLeft_eq,
    Nat.one_mul, Nat.add_mul_mod_self_right]
  exact hmod

theorem prefetch_moves {cfg : CacheConfig} {tid fuel baseAddr : Nat} {type : PageType} {s s' : CacheState}
    {u : Unit} (hpage : s.frames.isPageAddr baseAddr = true)
    (h : prefetch cfg tid fuel baseAddr type s = some (u, s')) : Moves True (fun _ => False) s s' := by
  rw [prefetch, get_bind] at h
  exact (prefetchPages_spec fuel (fun a ha => isPageAddr_of_mem hpage ha) h).moves

/-! ## Locks and discard -/

theorem getWrite_waits (tid fuel n : Nat) : Steps Waits (getWrite tid fuel n) := by
  refine waits_bind (modifyEntry_waits (fun e => ?_) n) fun _ => ?_
  · exact quiet_setFlag e (f := .writelocked) (Or.inr (Or.inl rfl))
  refine waits_bind (waitWhile_waits _ _ _) fun _ => Steps.get_bind fun s u s' h => ?_
  split at h
  · exact Steps.pure Waits.refl () _ _ _ h
  · exact (failure_eq_some.mp h).elim

theorem onEntry_waits {helper : Entry → GetRc × Entry} (hhelper : ∀ e : Entry, e.Quiet (helper e).2)
    (n : Nat) : Steps Waits (onEntry n helper) := by
  intro s rc s' h
  obtain ⟨-, rfl⟩ := onEntry_spec h
  refine ⟨Sweeps.of_entry fun _ _ => hhelper _, fun pending _ e => ?_⟩
  change (s.frames.entry e).Still (Function.update s.frames.entry n (helper (s.frames.entry n)).2 e)
  by_cases he : e = n
  · subst he
    rw [Function.update_self]
    exact (hhelper _).still
  · rw [Function.update_of_ne he]
    exact still_refl _

theorem blank_discarded (e : Entry) (tid : Nat) : (e.discarded tid).Blank := by
  have hfreed : (Entry.freed { e with diskAddr := none, entryTime := 0 }).Blank := blank_freed rfl rfl
  exact ⟨hfreed.free, hfreed.loading, hfreed.addr, hfreed.type, hfreed.time⟩

theorem tryPageDiscard_moves (tid fuel addr attempts : Nat) :
    Steps (Moves False (· = addr)) (tryPageDiscard tid fuel addr attempts) := by
  induction attempts with
  | zero => exact Steps.failure
  | succ attempts ih =>
      refine Steps.get_bind fun s u s' h => ?_
      cases hlookup : s.frames.lookupAddr addr with
      | none =>
          rw [hlookup] at h
          exact moves_pure _ _ _ _ h
      | some n =>
          rw [hlookup] at h
          obtain ⟨rc, s₁, hread, hrest⟩ := bind_eq_some.mp h
          refine Moves.trans (onEntry_tryGetRead n tid true _ _ _ hread).moves ?_
          have hretry : Steps (Moves False (· = addr)) (do
              modifyEntry n (·.decRef tid)
              tryPageDiscard tid fuel addr attempts : CacheM Unit) :=
            moves_bind (sweeps_moves (dropRef_sweeps n tid)) fun _ => ih
          cases rc with
          | evicted => exact ih _ _ _ hrest
          | conflict => exact (failure_eq_some.mp hrest).elim
          | flushing => exact (failure_eq_some.mp hrest).elim
          | success =>
              obtain ⟨_, s₂, hwait, hrest⟩ := bind_eq_some.mp hrest
              refine Moves.trans (waitWhile_waits _ _ _ _ _ _ hwait).1.moves ?_
              have hloaded := waitWhile_clear hwait
              rw [get_bind] at hrest
              split at hrest
              · exact hretry _ _ _ hrest
              rename_i haddr
              rw [not_not] at haddr
              obtain ⟨rc, s₃, hclaim, hrest⟩ := bind_eq_some.mp hrest
              have hclaimed := onEntry_waits (fun e => quiet_tryGetClaim e) n _ _ _ hclaim
              split at hrest
              · exact Moves.trans hclaimed.1.moves (hretry _ _ _ hrest)
              obtain ⟨_, s₄, hwrite, hrest⟩ := bind_eq_some.mp hrest
              obtain ⟨_, s₅, hstore, hdiscard⟩ := bind_eq_some.mp hrest
              have hlocked := hclaimed.trans (getWrite_waits _ _ _ _ _ _ hwrite)
              have hs' : s' = s₄.setFrames ((s₄.frames.setLookup addr none).setEntry n
                  ((s₄.frames.entry n).discarded tid)) := by
                rw [← modify_eq_some.mp hdiscard, ← modify_eq_some.mp hstore]
                rfl
              obtain ⟨⟨used, hused, hsize, hinv⟩, hstill⟩ := hlocked
              rw [hs']
              refine ⟨used, hused, hsize, fun pending hs₂ => ?_⟩
              obtain ⟨hs₄, hunmapped, hdirty⟩ := hinv pending hs₂
              have hstays := hstill pending hs₂ n
              have haddr₄ := hstays.addr.trans haddr
              have hloading₄ := hstays.loading hloaded
              obtain ⟨hlookup₄, hothers⟩ := vacate_others (· = addr)
                ((s₄.frames.entry n).discarded tid) haddr₄ (Or.inr rfl)
              exact ⟨hs₄.vacate haddr₄ hloading₄ (blank_discarded _ _),
                fun _ m hm => hlookup₄ m (hunmapped id m hm),
                fun e addr' hno hd hw => hothers e addr' hno (hdirty e addr' id hd hw)⟩

theorem extentDiscard_moves {cfg : CacheConfig} {tid fuel addr : Nat} {s s' : CacheState} {u : Unit}
    (h : extentDiscard cfg tid fuel addr s = some (u, s')) :
    Moves False (· ∈ extentPages cfg s.frames addr) s s' := by
  rw [extentDiscard, get_bind] at h
  refine moves_forM (fun pageAddr hmem => ?_) _ _ _ h
  refine (tryPageDiscard_moves tid fuel pageAddr fuel).mono fun _ _ hmoves => hmoves.mono id ?_
  rintro _ rfl
  exact hmem

/-! ## Syncs and clocks -/

theorem syncPages_sweeps (pageAddrs : List Nat) : ∀ pending, Steps Sweeps (syncPages pageAddrs pending) := by
  induction pageAddrs with
  | nil => exact fun pending => issueWrite_sweeps 0 pending
  | cons pageAddr pageAddrs ih =>
      refine fun pending => Steps.get_bind fun s u s' h => ?_
      cases hlookup : s.frames.lookupAddr pageAddr with
      | none =>
          rw [hlookup] at h
          exact moves_bind (issueWrite_sweeps 0 pending) (fun _ => ih []) _ _ _ h
      | some n =>
          rw [hlookup] at h
          dsimp only at h
          rw [modify_bind] at h
          refine Moves.trans (trySetWriteback_quiet s.frames n tpClockMax.toNat).sweeps ?_
          split at h
          · exact ih _ _ _ _ h
          · exact moves_bind (issueWrite_sweeps 0 pending) (fun _ => ih []) _ _ _ h

theorem extentSync_sweeps (cfg : CacheConfig) (addr : Nat) : Steps Sweeps (extentSync cfg addr) :=
  Steps.get_bind fun _ _ _ h => syncPages_sweeps _ _ _ _ _ h

theorem inheritClock_sweeps (oldAddr newAddr divisor : Nat) :
    Steps Sweeps (inheritClock oldAddr newAddr divisor) := by
  refine Steps.get_bind fun s u s' h => ?_
  cases hlookup : s.frames.lookupAddr newAddr with
  | none =>
      rw [hlookup] at h
      exact moves_pure _ _ _ _ h
  | some n =>
      rw [hlookup] at h
      obtain ⟨_, s₁, hclock, hrest⟩ := bind_eq_some.mp h
      have hfirst := modifyEntry_waits (fun e => quiet_withClock e _) n _ _ _ hclock
      split at hrest
      · rw [← modify_eq_some.mp hrest]
        obtain ⟨⟨used, hused, hsize, hinv⟩, hstill⟩ := hfirst
        refine Moves.trans ⟨used, hused, hsize, hinv⟩ ?_
        refine Sweeps.of_entry fun pending hs₁ => ⟨⟨rfl, rfl, fun hfree => ?_⟩, rfl, fun _ => id⟩
        obtain ⟨hnot, -⟩ := hs₁.lookup (newAddr >>> s₁.frames.logPageSize) n (by
          rw [← modify_eq_some.mp hclock]
          exact hlookup)
        rw [hnot] at hfree
        cases hfree
      · obtain ⟨-, rfl⟩ := pure_eq_some.mp hrest
        exact hfirst.1

end Sweeps

end Cache
end TreePass
