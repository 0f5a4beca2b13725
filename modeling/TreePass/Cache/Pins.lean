import TreePass.Cache.LockExclusion

/-!
# The pin count of a frame

A pin keeps a page in the cache without a lock.  It is taken under the write lock, tested by the
evictor under the write lock, and reset by a discard after the frame has been given back.

* `PinState` adds to the locks the number of pins that are out: those made since the frame was last
  taken for a page, less those given back.
* `PinGuard` is the condition on a step: besides `NoStaleReader`, the pin count does not overflow,
  and a frame is not taken while a discard has still to reset its pin count.
* `PinAccess` lists the accesses that matter to the pin count, `pinAccess_of_next` is the one case
  analysis over all accesses.
-/

namespace TreePass
namespace Cache

open Lib

/-- The locks of a frame, and the pins that are out. -/
structure PinState (n : Nat) where
  lock : LockState n
  pins : Nat

variable {n : Nat}

/-- A step of the frame.  Only a thread that holds the page pins it or gives a pin back: pinning
needs the write lock, and a page is not held before its load is over. -/
def pinNext (s : PinState n) (a : Fin n × LockAct) : Option (PinState n) :=
  (lockNext s.lock a).bind fun lock =>
    match a.2, (s.lock.thread a.1).pc with
    | .pin, _ =>
        if testFlag s.lock.word.status Flag.loading.mask then none else some ⟨lock, s.pins + 1⟩
    | .unpin, _ =>
        if 0 < (s.lock.thread a.1).readLocks ∧ 0 < s.pins then some ⟨lock, s.pins - 1⟩ else none
    | .next _, .allocCas _ =>
        some ⟨lock, if s.lock.word.status = tpFreeStatus then 0 else s.pins⟩
    | _, _ => some ⟨lock, s.pins⟩

/-- The interleavings of all operations on one frame, with its pins. -/
def pinSystem (n : Nat) : System (PinState n) (Fin n × LockAct) :=
  System.ofFun (fun s => s = ⟨freeEntryState n, 0⟩) pinNext

/-! ## Positions -/

/-- A discard that has freed the frame and not yet reset its pin count. -/
def Pc.resetting : Pc → Bool
  | .resetPinTest | .resetPin => true
  | _ => false

def Pc.evicting : Pc → Bool
  | .freeStore who => who != .discard
  | _ => false

def Pc.installing : Pc → Bool
  | .allocInc _ | .allocStore _ | .loadLookup | .abortRef | .abortStore | .loading => true
  | _ => false

/-- A load that has set `TP_LOADING`. -/
def Pc.loadsPage : Pc → Bool
  | .loadLookup | .abortRef | .abortStore | .loading => true
  | _ => false

/-- An evictor or a discard that has found `TP_LOADING` clear. -/
def Pc.foundLoaded : Pc → Bool
  | .discardLoaded | .discardClaim => true
  | .writeStart who | .writeFlag who | .writeScan who _ => who != .client
  | .evictVerify | .evictVerifyPin | .freeStore _ => true
  | _ => false

def Pc.taking : Pc → Bool
  | .allocCas _ => true
  | _ => false

def PinGuard (s : PinState n) (a : Fin n × LockAct) : Prop :=
  NoStaleReader s.lock a ∧
    match a.2, (s.lock.thread a.1).pc with
    | .pin, _ => s.lock.word.pincount + 1 < pincountMod
    | .next _, .allocCas _ =>
        s.lock.word.status = tpFreeStatus → ∀ r, (s.lock.thread r).pc.resetting = false
    | _, _ => True

/-- **What a pin count is for.** -/
structure PinsConserved (s : PinState n) : Prop where
  /-- While the frame has a page, its pin count is the number of pins that are out. -/
  conserved : testFlag s.lock.word.status Flag.free.mask = false → s.lock.word.pincount = s.pins
  /-- A page that is about to be evicted is not pinned. -/
  not_evicted : ∀ t, (s.lock.thread t).pc.evicting = true → s.pins = 0

/-! ## Accesses -/

/-- A position that is none of the above unless the one before is. -/
structure Pc.NoNewer (pc pc' : Pc) : Prop where
  resetting : pc'.resetting = pc.resetting
  evicting : pc'.evicting = true → pc.evicting = true
  installing : pc'.installing = true → pc.installing = true
  loadsPage : pc'.loadsPage = true → pc.loadsPage = true
  foundLoaded : pc'.foundLoaded = true → pc.foundLoaded = true

instance (pc pc' : Pc) : Decidable (pc.NoNewer pc') :=
  decidable_of_iff
    (pc'.resetting = pc.resetting ∧ (pc'.evicting = true → pc.evicting = true) ∧
      (pc'.installing = true → pc.installing = true) ∧ (pc'.loadsPage = true → pc.loadsPage = true) ∧
        (pc'.foundLoaded = true → pc.foundLoaded = true))
    ⟨fun ⟨hr, he, hi, hl, hf⟩ => ⟨hr, he, hi, hl, hf⟩, fun ⟨hr, he, hi, hl, hf⟩ => ⟨hr, he, hi, hl, hf⟩⟩

theorem Pc.NoNewer.refl (pc : Pc) : pc.NoNewer pc := ⟨rfl, id, id, id, id⟩

theorem Pc.NoNewer.of_false {pc pc' : Pc} (hresetting : pc'.resetting = pc.resetting)
    (hevicting : pc'.evicting = false) (hinstalling : pc'.installing = false)
    (hloads : pc'.loadsPage = false) (hfound : pc'.foundLoaded = false ∨ pc.foundLoaded = true) :
    pc.NoNewer pc' := by
  refine ⟨hresetting, ?_, ?_, ?_, ?_⟩
  · rw [hevicting]
    exact fun h => absurd h Bool.false_ne_true
  · rw [hinstalling]
    exact fun h => absurd h Bool.false_ne_true
  · rw [hloads]
    exact fun h => absurd h Bool.false_ne_true
  · intro h
    rcases hfound with hfalse | htrue
    · rw [hfalse] at h
      exact absurd h Bool.false_ne_true
    · exact htrue

theorem Pc.NoNewer.idle {pc : Pc} (hresetting : pc.resetting = false) : pc.NoNewer .idle := by
  refine ⟨hresetting.symm, ?_, ?_, ?_, ?_⟩ <;> intro h <;> cases h

theorem Pc.NoNewer.writeUndo {pc : Pc} (hresetting : pc.resetting = false) : pc.NoNewer .writeUndo := by
  refine ⟨hresetting.symm, ?_, ?_, ?_, ?_⟩ <;> intro h <;> cases h

/-- What the accesses of one thread do to the pin count. -/
inductive PinAccess (w : EntryWord) (th : Thread) : LockAct → EntryWord → Thread → Prop
  | take (outcome load : Bool) (hpc : th.pc = .allocCas load) (hstatus : w.status = tpFreeStatus) :
      PinAccess w th (.next outcome) { w with status := tpAllocStatus } (th.goto (.allocInc load))
  | install (outcome load : Bool) (hpc : th.pc = .allocStore load) (status : EntryStatus) (th' : Thread)
      (hfree : testFlag status Flag.free.mask = false)
      (hloading : th'.pc.loadsPage = true → testFlag status Flag.loading.mask = true)
      (hother : th'.pc.resetting = false ∧ th'.pc.evicting = false ∧ th'.pc.foundLoaded = false) :
      PinAccess w th (.next outcome) { w with status := status } th'
  | loaded (outcome : Bool) (hpc : th.pc = .loading) :
      PinAccess w th (.next outcome) { w with status := clearFlag w.status Flag.loading.mask }
        { th with pc := .idle, readLocks := th.readLocks + 1 }
  | abort (outcome : Bool) (hpc : th.pc = .abortStore) :
      PinAccess w th (.next outcome) { w with status := tpFreeStatus } (th.goto .idle)
  | verified (outcome : Bool) (hpc : th.pc = .evictVerifyPin) (hpins : w.pincount = 0) :
      PinAccess w th (.next outcome) w (th.goto (.freeStore .evict))
  | store (outcome : Bool) (who : Who) (hpc : th.pc = .freeStore who) :
      PinAccess w th (.next outcome) { w with status := tpFreeStatus }
        (th.goto (if who = .discard then .resetPinTest else .refFinal))
  | resetTest (outcome : Bool) (hpc : th.pc = .resetPinTest) :
      PinAccess w th (.next outcome) w (th.goto (if w.pincount ≠ 0 then .resetPin else .refFinal))
  | reset (outcome : Bool) (hpc : th.pc = .resetPin) :
      PinAccess w th (.next outcome) { w with pincount := 0 } (th.goto .refFinal)
  | findLoaded (outcome : Bool) (pc' : Pc) (hpc : th.pc = .evictClaimed ∨ th.pc = .discardRead)
      (hloading : testFlag w.status Flag.loading.mask = false)
      (hother : pc'.resetting = false ∧ pc'.evicting = false ∧ pc'.installing = false ∧
        pc'.loadsPage = false) :
      PinAccess w th (.next outcome) w (th.goto pc')
  | pin (hpc : th.pc = .idle) (hwrite : th.write = true) :
      PinAccess w th .pin { w with pincount := (w.pincount + 1) % pincountMod } th
  | unpin (hpc : th.pc = .idle) :
      PinAccess w th .unpin { w with pincount := (w.pincount + (pincountMod - 1)) % pincountMod } th
  | other (act : LockAct) (w' : EntryWord) (th' : Thread) (hpins : w'.pincount = w.pincount)
      (hfree : testFlag w'.status Flag.free.mask = testFlag w.status Flag.free.mask)
      (hloading : testFlag w'.status Flag.loading.mask = testFlag w.status Flag.loading.mask)
      (hpc : th.pc.NoNewer th'.pc) (hact : act ≠ .pin ∧ act ≠ .unpin)
      (hcas : ∀ outcome, act = .next outcome → th.pc.taking = true → w.status ≠ tpFreeStatus) :
      PinAccess w th act w' th'

section Accesses

variable {tid : Nat} {w w' : EntryWord} {th th' : Thread}

theorem not_taking {act : LockAct} (hcas : th.pc.taking = false) (outcome : Bool)
    (_ : act = .next outcome) (htaking : th.pc.taking = true) : w.status ≠ tpFreeStatus := by
  rw [hcas] at htaking
  cases htaking

theorem PinAccess.move {act : LockAct} {pc pc' : Pc} (hpc : th.pc = pc) (hnew : pc.NoNewer pc')
    (hcas : pc.taking = false) (hact : act ≠ .pin ∧ act ≠ .unpin) :
    PinAccess w th act w (th.goto pc') := by
  subst hpc
  exact PinAccess.other act w (th.goto pc') rfl rfl rfl hnew hact (not_taking hcas)

theorem PinAccess.status {act : LockAct} {pc pc' : Pc} {status : EntryStatus} (hpc : th.pc = pc)
    (hnew : pc.NoNewer pc') (hcas : pc.taking = false)
    (hfree : testFlag status Flag.free.mask = testFlag w.status Flag.free.mask)
    (hloading : testFlag status Flag.loading.mask = testFlag w.status Flag.loading.mask)
    (hact : act ≠ .pin ∧ act ≠ .unpin) :
    PinAccess w th act { w with status := status } (th.goto pc') := by
  subst hpc
  exact PinAccess.other act _ (th.goto pc') rfl hfree hloading hnew hact (not_taking hcas)

theorem PinAccess.ref {act : LockAct} {pc pc' : Pc} {refcount : Nat → Nat} (hpc : th.pc = pc)
    (hnew : pc.NoNewer pc') (hcas : pc.taking = false) (hact : act ≠ .pin ∧ act ≠ .unpin) :
    PinAccess w th act { w with refcount := refcount } (th.goto pc') := by
  subst hpc
  exact PinAccess.other act _ (th.goto pc') rfl rfl rfl hnew hact (not_taking hcas)

theorem pinAccess_startRead {act : LockAct} {pc : Pc} (hpc : th.pc = pc) (who : Who)
    (hidle : pc.NoNewer .idle) (htested : pc.NoNewer (.readTested who)) (hcas : pc.taking = false)
    (hact : act ≠ .pin ∧ act ≠ .unpin) :
    PinAccess w th act (startRead w th who).1 (startRead w th who).2 := by
  unfold startRead
  split
  · exact PinAccess.move hpc hidle hcas hact
  · exact PinAccess.move hpc htested hcas hact

theorem pinAccess_claimStep {act : LockAct} {pc pc' : Pc} (hpc : th.pc = pc)
    (hfail : pc.NoNewer .refUndo) (hclaimed : pc.NoNewer pc') (hcas : pc.taking = false)
    (hact : act ≠ .pin ∧ act ≠ .unpin) :
    PinAccess w th act (claimStep w th pc').1 (claimStep w th pc').2 := by
  unfold claimStep
  split
  · exact PinAccess.status hpc hfail hcas (by simp) (by simp) hact
  · exact PinAccess.status hpc hclaimed hcas (by simp) (by simp) hact

theorem pinAccess_readSuccess {act : LockAct} {who : Who} {ccFree : Bool}
    (hpc : th.pc = .readFreeTested who ccFree) (hact : act ≠ .pin ∧ act ≠ .unpin) :
    PinAccess w th act w (readSuccess th who) := by
  cases who with
  | client =>
      exact PinAccess.other act w _ rfl rfl rfl (Pc.NoNewer.idle (by rw [hpc]; rfl)) hact (not_taking (by rw [hpc]; rfl))
  | evict => exact PinAccess.move hpc (by cases ccFree <;> decide) rfl hact
  | discard => exact PinAccess.move hpc (by cases ccFree <;> decide) rfl hact

theorem pinAccess_writeBlocked {act : LockAct} (who : Who) (hcas : th.pc.taking = false)
    (hresetting : th.pc.resetting = false) (hact : act ≠ .pin ∧ act ≠ .unpin) : PinAccess w th act w (writeBlocked th who) := by
  cases who with
  | evict => exact PinAccess.move rfl (Pc.NoNewer.writeUndo hresetting) hcas hact
  | client =>
      exact PinAccess.other act w th rfl rfl rfl (Pc.NoNewer.refl _) hact (not_taking hcas)
  | discard =>
      exact PinAccess.other act w th rfl rfl rfl (Pc.NoNewer.refl _) hact (not_taking hcas)

theorem pinAccess_scanStep {act : LockAct} {who : Who} {i : Nat} (hpc : th.pc = .writeScan who i)
    (hact : act ≠ .pin ∧ act ≠ .unpin) :
    PinAccess w th act (scanStep tid w th who i).1 (scanStep tid w th who i).2 := by
  unfold scanStep
  by_cases hempty : getRef w.refcount i ≤ (if tid % tpRcWidth = i then 1 else 0)
  · rw [if_pos hempty]
    by_cases hmore : i + 1 < tpRcWidth
    · rw [if_pos hmore]
      exact PinAccess.move hpc ⟨rfl, id, id, id, id⟩ rfl hact
    · rw [if_neg hmore]
      cases who with
      | client => exact PinAccess.other act w _ rfl rfl rfl (Pc.NoNewer.idle (by rw [hpc]; rfl)) hact (not_taking (by rw [hpc]; rfl))
      | evict => exact PinAccess.move hpc (Pc.NoNewer.of_false rfl rfl rfl rfl (.inr rfl)) rfl hact
      | discard => exact PinAccess.move hpc (Pc.NoNewer.of_false rfl rfl rfl rfl (.inr rfl)) rfl hact
  · rw [if_neg hempty]
    exact pinAccess_writeBlocked who (by rw [hpc]; rfl) (by rw [hpc]; rfl) hact

theorem pinAccess_of_pcNext {outcome : Bool} {r : EntryWord × Thread}
    (h : pcNext tid w th outcome = some r) : PinAccess w th (.next outcome) r.1 r.2 := by
  have hact : LockAct.next outcome ≠ .pin ∧ LockAct.next outcome ≠ .unpin :=
    ⟨LockAct.noConfusion, LockAct.noConfusion⟩
  cases hpc : th.pc <;> simp only [pcNext, hpc, Option.some.injEq, reduceCtorEq] at h <;> subst h
  case readTested who => exact PinAccess.ref hpc (by cases who <;> decide) rfl hact
  case readCounted who =>
    refine PinAccess.move hpc ?_ rfl hact
    exact Pc.NoNewer.of_false rfl rfl rfl rfl (.inl rfl)
  case readFreeTested who ccFree =>
    split
    · exact pinAccess_readSuccess hpc hact
    · exact PinAccess.move hpc (Pc.NoNewer.of_false rfl rfl rfl rfl (.inl rfl)) rfl hact
  case readFailed => exact PinAccess.ref hpc (by decide) rfl hact
  case evictSub => exact PinAccess.status hpc (by decide) rfl (by simp) (by simp) hact
  case evictStatus => split <;> exact PinAccess.move hpc (by decide) rfl hact
  case evictRef => split <;> exact PinAccess.move hpc (by decide) rfl hact
  case evictPin => split <;> exact PinAccess.move hpc (by decide) rfl hact
  case evictTryRead => exact pinAccess_startRead hpc .evict (by decide) (by decide) rfl hact
  case evictRead => exact pinAccess_claimStep hpc (by decide) (by decide) rfl hact
  case evictClaimed =>
    split
    · exact PinAccess.move hpc (by decide) rfl hact
    · rename_i hloading
      exact PinAccess.findLoaded outcome _ (Or.inl hpc) (by simpa using hloading) ⟨rfl, rfl, rfl, rfl⟩
  case discardRead =>
    split
    · exact PinAccess.other _ w th rfl rfl rfl (Pc.NoNewer.refl _) hact (not_taking (by rw [hpc]; rfl))
    · rename_i hloading
      exact PinAccess.findLoaded outcome _ (Or.inr hpc) (by simpa using hloading) ⟨rfl, rfl, rfl, rfl⟩
  case discardLoaded => split <;> exact PinAccess.move hpc (by decide) rfl hact
  case discardClaim => exact pinAccess_claimStep hpc (by decide) (by decide) rfl hact
  case writeStart who =>
    exact PinAccess.status hpc (by cases who <;> decide) rfl (by simp) (by simp) hact
  case writeFlag who =>
    split
    · exact pinAccess_writeBlocked who (by rw [hpc]; rfl) (by rw [hpc]; rfl) hact
    · exact PinAccess.move hpc (by cases who <;> decide) rfl hact
  case writeScan who i => exact pinAccess_scanStep hpc hact
  case writeUndo => exact PinAccess.status hpc (by decide) rfl (by simp) (by simp) hact
  case claimUndo => exact PinAccess.status hpc (by decide) rfl (by simp) (by simp) hact
  case refUndo => exact PinAccess.ref hpc (by decide) rfl hact
  case evictVerify => split <;> exact PinAccess.move hpc (by decide) rfl hact
  case evictVerifyPin =>
    split
    · exact PinAccess.move hpc (by decide) rfl hact
    · rename_i hpins
      exact PinAccess.verified outcome hpc (not_not.mp hpins)
  case freeStore who => exact PinAccess.store outcome who hpc
  case resetPinTest => exact PinAccess.resetTest outcome hpc
  case resetPin => exact PinAccess.reset outcome hpc
  case refFinal => exact PinAccess.ref hpc (by decide) rfl hact
  case allocCas load =>
    split
    · rename_i hstatus
      exact PinAccess.take outcome load hpc hstatus
    · rename_i hstatus
      refine PinAccess.other _ w _ rfl rfl rfl ?_ hact fun _ _ _ => hstatus
      rw [hpc]
      exact Pc.NoNewer.idle rfl
  case allocInc load => exact PinAccess.ref hpc (by cases load <;> decide) rfl hact
  case allocStore load =>
    cases load with
    | true =>
        rw [if_pos rfl]
        exact PinAccess.install outcome true hpc _ _ (by decide) (fun _ => by decide) ⟨rfl, rfl, rfl⟩
    | false =>
        rw [if_neg Bool.false_ne_true]
        exact PinAccess.install outcome false hpc _ ⟨.idle, th.readLocks + 1, true, true⟩ (by decide)
          (fun h => by cases h) ⟨rfl, rfl, rfl⟩
  case loadLookup => split <;> exact PinAccess.move hpc (by decide) rfl hact
  case abortRef => exact PinAccess.ref hpc (by decide) rfl hact
  case abortStore => exact PinAccess.abort outcome hpc
  case loading => exact PinAccess.loaded outcome hpc

theorem pinAccess_of_idleNext {act : LockAct} {r : EntryWord × Thread} (hpc : th.pc = .idle)
    (h : idleNext tid w th act = some r) : PinAccess w th act r.1 r.2 := by
  cases act <;> simp only [idleNext, Option.ite_none_right_eq_some, Option.some.injEq, reduceCtorEq] at h
  case getRead =>
    subst h
    exact pinAccess_startRead hpc .client (by decide) (by decide) rfl ⟨LockAct.noConfusion, LockAct.noConfusion⟩
  case unget =>
    obtain ⟨-, rfl⟩ := h
    exact PinAccess.other _ _ _ rfl rfl rfl (Pc.NoNewer.refl _) ⟨LockAct.noConfusion, LockAct.noConfusion⟩ (not_taking (by rw [hpc]; rfl))
  case tryClaim =>
    obtain ⟨-, rfl⟩ := h
    exact PinAccess.other _ _ _ rfl (by simp) (by simp) (Pc.NoNewer.refl _)
      ⟨LockAct.noConfusion, LockAct.noConfusion⟩ (not_taking (by rw [hpc]; rfl))
  case unclaim =>
    obtain ⟨-, rfl⟩ := h
    exact PinAccess.other _ _ _ rfl (by simp) (by simp) (Pc.NoNewer.refl _)
      ⟨LockAct.noConfusion, LockAct.noConfusion⟩ (not_taking (by rw [hpc]; rfl))
  case lock =>
    obtain ⟨-, rfl⟩ := h
    exact PinAccess.status hpc (by decide) rfl (by simp) (by simp) ⟨LockAct.noConfusion, LockAct.noConfusion⟩
  case unlock =>
    obtain ⟨-, rfl⟩ := h
    exact PinAccess.other _ _ _ rfl (by simp) (by simp) (Pc.NoNewer.refl _)
      ⟨LockAct.noConfusion, LockAct.noConfusion⟩ (not_taking (by rw [hpc]; rfl))
  case alloc =>
    subst h
    split <;> exact PinAccess.move hpc (by decide) rfl ⟨LockAct.noConfusion, LockAct.noConfusion⟩
  case load =>
    subst h
    split <;> exact PinAccess.move hpc (by decide) rfl ⟨LockAct.noConfusion, LockAct.noConfusion⟩
  case tryEvict eePass =>
    subst h
    split <;> exact PinAccess.move hpc (by decide) rfl ⟨LockAct.noConfusion, LockAct.noConfusion⟩
  case discard =>
    subst h
    exact pinAccess_startRead hpc .discard (by decide) (by decide) rfl ⟨LockAct.noConfusion, LockAct.noConfusion⟩
  case pin =>
    obtain ⟨hwrite, rfl⟩ := h
    exact PinAccess.pin hpc hwrite
  case unpin =>
    subst h
    exact PinAccess.unpin hpc

theorem pinAccess_of_next {act : LockAct} {r : EntryWord × Thread}
    (h : threadNext tid w th act = some r) : PinAccess w th act r.1 r.2 := by
  cases act
  case other op =>
    obtain ⟨status, hop, rfl⟩ := Option.map_eq_some_iff.mp h
    exact PinAccess.other (.other op) { w with status := status } th rfl
      (otherAccess_flags hop (by decide)) (otherAccess_flags hop (by decide)) (Pc.NoNewer.refl _)
      ⟨LockAct.noConfusion, LockAct.noConfusion⟩ fun _ hact => by cases hact
  case next outcome => exact pinAccess_of_pcNext h
  all_goals
    obtain ⟨hpc, hidle⟩ := Option.ite_none_right_eq_some.mp h
    exact pinAccess_of_idleNext hpc hidle

end Accesses

end Cache
end TreePass
