import TreePass.Cache.Operations

/-!
# The movement of the clock hand

The clock hand writes pages, evicts pages and waits.  What holds of these parts holds of the whole
movement and of the hunt for a free frame.  This is shown once, for every relation between states
that the parts keep.

* `tryEvict_cases` is what an attempt to evict a page does, for every relation between frames that
  the lock helpers keep (`LockRel`).
* `HandRel.moveHand_steps` is the movement of the hand, and `HandRel.getFreePage_takes` the hunt for
  a free frame.
-/

namespace TreePass
namespace Cache

open Lib Lib.Program

/-! ## An attempt to evict -/

/-- A relation between a frame before and after, which the parts of an eviction keep. -/
structure LockRel (tid : Nat) (P : Entry → Entry → Prop) : Prop where
  refl : ∀ e, P e e
  trans : ∀ e e₁ e₂, P e e₁ → P e₁ e₂ → P e e₂
  tick : ∀ e : Entry, P e (e.setStatus (e.status - tpClockOne))
  read : ∀ e, P e (tryGetRead e tid false).2
  claim : ∀ e, P e (tryGetClaim e).2
  write : ∀ e, P e (tryGetWrite e tid).2
  unclaim : ∀ e : Entry, P e (e.setStatus (clearFlag e.status tpClaimed))
  unlock : ∀ e : Entry, P e (e.setStatus (clearFlag e.status tpWritelocked))
  unget : ∀ e : Entry, P e (e.decRef tid)

/-- **What an attempt to evict does.**  Either the page stays, or its frame is freed once it is
locked and still evictable. -/
theorem tryEvict_cases {tid : Nat} {P : Entry → Entry → Prop} (h : LockRel tid P)
    (cc : TreePassCache) (n : Nat) (eePass : Bool) :
    (∃ e', P (cc.entry n) e' ∧ (tryEvict cc n tid eePass).2 = cc.setEntry n e') ∨
      ∃ e', P (cc.entry n) e' ∧ e'.status = tpLockedEvictableStatus ∧
        (tryEvict cc n tid eePass).2 =
          (freeEntry cc n e').1.setEntry n ((freeEntry cc n e').2.decRef tid) := by
  have hundo : ∀ {e : Entry}, P (cc.entry n) e →
      P (cc.entry n) ((e.setStatus (clearFlag e.status tpClaimed)).decRef tid) := fun he =>
    h.trans _ _ _ (h.trans _ _ _ he (h.unclaim _)) (h.unget _)
  unfold tryEvict
  dsimp only
  split
  · refine Or.inl ⟨cc.entry n, h.refl _, ?_⟩
    unfold TreePassCache.setEntry
    rw [Function.update_eq_self]
  have hdec : P (cc.entry n) ((cc.entry n).setStatus
      (if eePass then (false, (cc.entry n).status) else tryDecClock (cc.entry n).status).2) := by
    cases eePass with
    | true => exact h.refl _
    | false =>
        change P (cc.entry n) ((cc.entry n).setStatus (tryDecClock (cc.entry n).status).2)
        unfold tryDecClock
        split
        · exact h.refl _
        · exact h.tick _
  revert hdec
  generalize (if eePass then (false, (cc.entry n).status) else tryDecClock (cc.entry n).status) =
    swept
  obtain ⟨hadClock, status⟩ := swept
  dsimp only
  generalize (cc.entry n).setStatus status = e
  intro hdec
  split
  · exact Or.inl ⟨_, hdec, rfl⟩
  split
  · exact Or.inl ⟨_, hdec, rfl⟩
  have hread := h.trans _ _ _ hdec (h.read e)
  revert hread
  generalize tryGetRead e tid false = read
  intro hread
  obtain ⟨rc, e₁⟩ := read
  cases rc with
  | success =>
      have hclaim := h.trans _ _ _ hread (h.claim e₁)
      dsimp only
      revert hclaim
      generalize tryGetClaim e₁ = claim
      intro hclaim
      obtain ⟨rc, e₂⟩ := claim
      cases rc with
      | success =>
          dsimp only
          split
          · exact Or.inl ⟨_, hundo hclaim, rfl⟩
          · have hwrite := h.trans _ _ _ hclaim (h.write e₂)
            revert hwrite
            generalize tryGetWrite e₂ tid = write
            intro hwrite
            obtain ⟨rc, e₃⟩ := write
            cases rc with
            | success =>
                dsimp only
                split
                · exact Or.inl ⟨_, hundo (h.trans _ _ _ hwrite (h.unlock _)), rfl⟩
                · rename_i hverified
                  rw [not_or, not_not] at hverified
                  exact Or.inr ⟨e₃, hwrite, hverified.1, rfl⟩
            | _ => exact Or.inl ⟨_, hundo hwrite, rfl⟩
      | _ => exact Or.inl ⟨_, h.trans _ _ _ hclaim (h.unget _), rfl⟩
  | _ => exact Or.inl ⟨_, hread, rfl⟩

/-! ## The hand -/

theorem waitWhile_steps {R : CacheState → CacheState → Prop} (hrefl : ∀ s, R s s)
    (htrans : ∀ s s₁ s₂, R s s₁ → R s₁ s₂ → R s s₂) (hwait : Steps R wait) (flag : EntryStatus)
    (n fuel : Nat) : Steps R (waitWhile flag n fuel) := by
  induction fuel with
  | zero => exact Steps.failure
  | succ fuel ih =>
      refine Steps.get_bind fun s u s' h => ?_
      split at h
      · exact Steps.bind htrans hwait (fun _ => ih) _ _ _ h
      · exact Steps.pure hrefl () _ _ _ h

/-- A relation between the states before and after, which the parts of the movement keep. -/
structure HandRel (cfg : CacheConfig) (R : CacheState → CacheState → Prop) : Prop where
  refl : ∀ s, R s s
  trans : ∀ s s₁ s₂, R s s₁ → R s₁ s₂ → R s s₂
  /-- A change beside the frames and the requests. -/
  beside : ∀ s s' : CacheState, s'.frames = s.frames → s'.requests = s.requests →
    s'.waits = s.waits → R s s'
  evicts : ∀ tid eePass n, Steps R (evict tid eePass n)
  writes : ∀ numPasses n, Steps R (startWriteback cfg numPasses n)
  waits : Steps R wait

namespace HandRel

variable {cfg : CacheConfig} {R : CacheState → CacheState → Prop} (h : HandRel cfg R)

include h

theorem evictEach_steps (tid : Nat) (eePass : Bool) (entries : List Nat) :
    Steps R (evictEach tid eePass entries) := by
  induction entries with
  | nil => exact Steps.pure h.refl 0
  | cons n entries ih =>
      unfold evictEach
      refine Steps.bind h.trans (h.evicts tid eePass n) fun _ => ?_
      exact Steps.bind h.trans ih fun _ => Steps.pure h.refl _

theorem evictBatch_steps (tid batch : Nat) : Steps R (evictBatch tid batch) :=
  Steps.bind h.trans (h.evictEach_steps tid false _) fun _ => Steps.pure h.refl _

theorem evictAll_steps (tid : Nat) (ignorePinnedPages : Bool) :
    Steps R (evictAll cfg tid ignorePinnedPages) := by
  refine Steps.get_bind fun s u s' hrun => ?_
  split at hrun
  · refine Steps.forM h.refl h.trans (fun evictHand _ => ?_) _ _ _ hrun
    exact Steps.forM h.refl h.trans fun _ _ => h.evictBatch_steps tid evictHand
  · exact (failure_eq_some.mp hrun).elim

theorem batchStartWriteback_steps (batch numPasses : Nat) :
    Steps R (batchStartWriteback cfg batch numPasses) :=
  Steps.forM h.refl h.trans fun n _ => h.writes numPasses n

theorem nextBatch_steps (numPasses fuel : Nat) : Steps R (nextBatch cfg numPasses fuel) := by
  induction fuel with
  | zero => exact Steps.failure
  | succ fuel ih =>
      refine Steps.bind h.trans (Steps.modify fun s => h.beside _ _ rfl rfl rfl) fun _ => ?_
      refine Steps.get_bind fun s batch s' hrun => ?_
      dsimp only at hrun
      have hrest : ∀ hand : Nat, Steps R (if s.batchBusy hand = true then
          nextBatch cfg numPasses fuel
          else do
            modify fun s : CacheState => { s with batchBusy := Function.update s.batchBusy hand true }
            pure hand : CacheM Nat) := by
        intro hand
        refine Steps.ite (fun _ => ih) fun _ => ?_
        exact Steps.bind h.trans (Steps.modify fun s => h.beside _ _ rfl rfl rfl) fun _ =>
          Steps.pure h.refl _
      split at hrun
      · exact hrest _ _ _ _ hrun
      · exact Steps.bind h.trans (h.batchStartWriteback_steps _ _) (fun _ => hrest _) _ _ _ hrun

theorem moveHand_steps (tid numPasses fuel : Nat) : Steps R (moveHand cfg tid numPasses fuel) := by
  refine Steps.bind h.trans (Steps.modify fun s => ?_) fun _ => ?_
  · cases s.freeHand tid with
    | none => exact h.refl s
    | some batch => exact h.beside _ _ rfl rfl rfl
  refine Steps.bind h.trans (h.nextBatch_steps numPasses fuel) fun batch => ?_
  refine Steps.bind h.trans (h.evictEach_steps tid true _) fun evictCount => ?_
  have hhand : Steps R (modify fun s : CacheState =>
      { s with freeHand := Function.update s.freeHand tid (some batch) } : CacheM PUnit) :=
    Steps.modify fun s => h.beside _ _ rfl rfl rfl
  exact Steps.ite (fun _ => Steps.bind h.trans (h.evictBatch_steps tid batch) fun _ => hhand)
    fun _ => hhand

variable {tid : Nat} {status : EntryStatus} {type : PageType} {refcount : Bool}

theorem freePageLoop_takes (fuel : Nat) :
    ∀ {numPasses : Nat} {maxHand : Option Nat} {s s' : CacheState} {n : Nat},
      freePageLoop cfg tid status type refcount fuel numPasses maxHand s = some (n, s') →
        ∃ s₁ m, R s s₁ ∧ (s₁.frames.entry m).status = tpFreeStatus ∧
          takeFrame m tid status type refcount s₁ = some (n, s') := by
  induction fuel with
  | zero => exact fun hrun => (failure_eq_some.mp hrun).elim
  | succ fuel ih =>
      intro numPasses maxHand s s' n hrun
      rw [freePageLoop, get_bind] at hrun
      cases hfound : (batchEntries ((s.freeHand tid).getD 0)).find?
          fun e => (s.frames.entry e).status == tpFreeStatus with
      | some m =>
          rw [hfound] at hrun
          have hfree := List.find?_some hfound
          exact ⟨s, m, h.refl s, beq_iff_eq.mp hfree, hrun⟩
      | none =>
          rw [hfound] at hrun
          obtain ⟨_, s₁, hhand, hrest⟩ := bind_eq_some.mp hrun
          have hmoved := h.moveHand_steps tid numPasses _ _ _ _ hhand
          rw [get_bind] at hrest
          split at hrest
          · obtain ⟨_, s₂, hwait, hloop⟩ := bind_eq_some.mp hrest
            obtain ⟨s₃, m, hswept, htakes⟩ := ih hloop
            exact ⟨s₃, m, h.trans _ _ _ hmoved (h.trans _ _ _ (h.waits _ _ _ hwait) hswept), htakes⟩
          · obtain ⟨s₂, m, hswept, htakes⟩ := ih hrest
            exact ⟨s₂, m, h.trans _ _ _ hmoved hswept, htakes⟩

theorem getFreePage_takes {fuel n : Nat} {s s' : CacheState}
    (hrun : getFreePage cfg tid fuel status type refcount s = some (n, s')) :
    ∃ s₁ m, R s s₁ ∧ (s₁.frames.entry m).status = tpFreeStatus ∧
      takeFrame m tid status type refcount s₁ = some (n, s') := by
  rw [getFreePage, get_bind] at hrun
  dsimp only at hrun
  split at hrun
  · obtain ⟨_, s₁, hhand, hloop⟩ := bind_eq_some.mp hrun
    obtain ⟨s₂, m, hswept, htakes⟩ := h.freePageLoop_takes fuel hloop
    exact ⟨s₂, m, h.trans _ _ _ (h.moveHand_steps _ _ _ _ _ _ hhand) hswept, htakes⟩
  · exact h.freePageLoop_takes fuel hrun

end HandRel

end Cache
end TreePass
