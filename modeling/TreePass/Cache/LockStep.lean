import TreePass.Cache.Locks

/-!
# What one access does to the locks

Every lock is a token of the thread that holds it: a reference counts in its stripe of the
reference count, the claim and the write lock each in one flag.  `Delta` says all that an access
can do to these accounts, given what the thread may assume of the word (`LocalView`);
`threadNext_delta` is the one case analysis over all accesses, and everything about runs is
derived from it.
-/

namespace TreePass
namespace Cache

/-! ## Accounts of a thread -/

def Pc.refs : Pc → Nat
  | .readCounted _ | .readFreeTested _ _ | .readFailed => 1
  | .evictRead | .evictClaimed | .discardRead | .discardLoaded | .discardClaim => 1
  | .writeStart who | .writeFlag who | .writeScan who _ => if who = .client then 0 else 1
  | .writeUndo | .claimUndo | .refUndo | .evictVerify | .evictVerifyPin | .freeStore _ => 1
  | .resetPinTest | .resetPin | .refFinal | .allocStore _ | .loadLookup | .abortRef | .loading => 1
  | _ => 0

def Pc.setsWrite : Pc → Bool
  | .writeFlag _ | .writeScan _ _ | .writeUndo | .evictVerify | .evictVerifyPin => true
  | .freeStore _ | .allocInc _ | .allocStore _ => true
  | _ => false

/-- Stripes of the reference count a writer has found empty of others. -/
def Pc.scanned : Pc → Nat
  | .writeScan _ i => i
  | .evictVerify | .evictVerifyPin | .freeStore _ | .allocInc _ | .allocStore _ => tpRcWidth
  | _ => 0

/-- The next access stores `TP_FREE_STATUS`. -/
def Pc.storesFree : Pc → Bool
  | .freeStore _ | .abortStore => true
  | _ => false

attribute [local simp] Pc.refs Pc.setsWrite Pc.scanned Pc.storesFree Pc.holdsRead Pc.holdsClaim

namespace Thread

def refTokens (th : Thread) : Nat := th.readLocks + th.pc.refs

def claimTokens (th : Thread) : Nat := th.claim.toNat + th.pc.holdsClaim.toNat

def writeTokens (th : Thread) : Nat := th.write.toNat + th.pc.setsWrite.toNat

def scanned (th : Thread) : Nat := if th.write then tpRcWidth else th.pc.scanned

end Thread

/-- What holding the locks of `th` means at a position: only an evictor and a discard start a
write lock inside their operation, a client scan is under its claim and stays inside the stripes,
and whoever frees or installs a frame has no lock on it from before. -/
def Pc.Ok (tid : Nat) (th : Thread) : Pc → Prop
  | .writeStart who => who ≠ .client
  | .writeFlag who => who = .client → th.claim = true ∧ th.write = false
  | .writeScan who i => i < tpRcWidth ∧ (who = .client → th.claim = true ∧ th.write = false) ∧
      (who ≠ .client → tid % tpRcWidth < i → th.readLocks = 0)
  | .evictVerify | .evictVerifyPin | .freeStore _ => th.readLocks = 0
  | .allocInc _ | .allocStore _ | .loadLookup | .abortRef | .abortStore | .loading =>
      th.readLocks = 0
  | _ => True

/-- How the holdings of a thread fit together: a write lock is under a claim, a claim under a
read lock. -/
structure ThreadOk (tid : Nat) (th : Thread) : Prop where
  claim_read : th.claim = true → 0 < th.readLocks
  write_claim : th.write = true → th.claim = true
  pc_ok : th.pc.Ok tid th

/-- What a thread may assume of the shared words when it makes an access. -/
structure LocalView (tid : Nat) (w : EntryWord) (th : Thread) : Prop where
  ok : ThreadOk tid th
  claim : th.claimTokens ≤ (testFlag w.status Flag.claimed.mask).toNat
  write : th.writeTokens ≤ (testFlag w.status Flag.writelocked.mask).toNat
  /-- The claim excludes the write locks of others. -/
  excl : 0 < th.claimTokens → th.writeTokens = 0 →
    testFlag w.status Flag.writelocked.mask = false
  ref : th.refTokens ≤ getRef w.refcount tid
  ref_lt : getRef w.refcount tid < 2 ^ 16
  free : testFlag w.status Flag.free.mask = true →
    testFlag w.status Flag.claimed.mask = false ∧
      testFlag w.status Flag.writelocked.mask = false ∧ th.holdsRead = false ∧
        th.pc.inWindow = false

/-- What a thread may assume, besides, when it goes on with its operation. -/
structure NextView (tid : Nat) (w : EntryWord) (th : Thread) : Prop where
  room : (∃ who, th.pc = .readTested who) ∨ (∃ load, th.pc = .allocInc load) →
    getRef w.refcount tid ≠ maxReadRefcount
  abort : th.pc = .abortStore → testFlag w.status Flag.claimed.mask = false ∧
    testFlag w.status Flag.writelocked.mask = false

/-- All that an access can do. -/
structure Delta (tid : Nat) (w : EntryWord) (th : Thread) (w' : EntryWord) (th' : Thread) : Prop where
  ref : getRef w'.refcount tid + th.refTokens = getRef w.refcount tid + th'.refTokens
  ref_other : ∀ i, i % tpRcWidth ≠ tid % tpRcWidth → getRef w'.refcount i = getRef w.refcount i
  ref_lt : getRef w'.refcount tid < 2 ^ 16
  claim : (testFlag w'.status Flag.claimed.mask).toNat + th.claimTokens =
    (testFlag w.status Flag.claimed.mask).toNat + th'.claimTokens
  write : (testFlag w'.status Flag.writelocked.mask).toNat + th.writeTokens =
    (testFlag w.status Flag.writelocked.mask).toNat + th'.writeTokens
  ok : ThreadOk tid th'
  /-- A read lock is gained only where no other thread has set the write lock flag. -/
  gain : th'.holdsRead = true → th.holdsRead = true ∨
    testFlag w.status Flag.writelocked.mask = false ∨ 0 < th.writeTokens
  /-- A stripe counts as scanned only when it was empty of others, or the entry was free. -/
  scan : ∀ i, i < th'.scanned → i < th.scanned ∨
    (getRef w.refcount i ≤ (if tid % tpRcWidth = i then 1 else 0) ∧ 0 < th.refTokens) ∨
      testFlag w.status Flag.free.mask = true
  /-- An entry is free only if it was before or the access stores the free status. -/
  free : testFlag w'.status Flag.free.mask = true →
    (testFlag w'.status Flag.claimed.mask = false ∧
      testFlag w'.status Flag.writelocked.mask = false ∧ th'.holdsRead = false ∧
        th'.pc.inWindow = false) ∧
      (testFlag w.status Flag.free.mask = true ∨ th.pc.storesFree = true)

/-! ## Reference counters -/

theorem getRef_incRef {refcount : Nat → Nat} {tid : Nat}
    (hlt : getRef refcount tid < 2 ^ 16) (hroom : getRef refcount tid ≠ maxReadRefcount) :
    getRef (incRef refcount tid) tid = getRef refcount tid + 1 := by
  have hmax : maxReadRefcount = 2 ^ 16 - 1 := rfl
  have hown : getRef (incRef refcount tid) tid = (getRef refcount tid + 1) % 2 ^ 16 := by
    simp [getRef, incRef]
  rw [hown]
  omega

theorem getRef_decRef {refcount : Nat → Nat} {tid : Nat}
    (hlt : getRef refcount tid < 2 ^ 16) (hpos : 0 < getRef refcount tid) :
    getRef (decRef refcount tid) tid = getRef refcount tid - 1 := by
  have hown : getRef (decRef refcount tid) tid = (getRef refcount tid + (2 ^ 16 - 1)) % 2 ^ 16 := by
    simp [getRef, decRef]
  rw [hown]
  omega

theorem getRef_incRef_other {refcount : Nat → Nat} {tid i : Nat}
    (h : i % tpRcWidth ≠ tid % tpRcWidth) : getRef (incRef refcount tid) i = getRef refcount i := by
  simp [getRef, incRef, h]

theorem getRef_decRef_other {refcount : Nat → Nat} {tid i : Nat}
    (h : i % tpRcWidth ≠ tid % tpRcWidth) : getRef (decRef refcount tid) i = getRef refcount i := by
  simp [getRef, decRef, h]

@[simp] theorem goto_pc (th : Thread) (pc : Pc) : (th.goto pc).pc = pc := rfl

@[simp] theorem goto_readLocks (th : Thread) (pc : Pc) : (th.goto pc).readLocks = th.readLocks := rfl

@[simp] theorem goto_claim (th : Thread) (pc : Pc) : (th.goto pc).claim = th.claim := rfl

@[simp] theorem goto_write (th : Thread) (pc : Pc) : (th.goto pc).write = th.write := rfl

theorem ThreadOk.goto {th : Thread} (hok : ThreadOk tid th) {pc : Pc} (hpc : pc.Ok tid th) :
    ThreadOk tid (th.goto pc) := by
  refine ⟨hok.claim_read, hok.write_claim, ?_⟩
  cases pc <;> exact hpc

/-! ## Kinds of accesses -/

section Kinds

variable {tid : Nat} {w : EntryWord} {th : Thread}

/-- `th'` accounts for the same claim and write lock as `th` and promises no more. -/
structure Keeps (th th' : Thread) : Prop where
  claim : th'.claimTokens = th.claimTokens
  write : th'.writeTokens = th.writeTokens
  read : th'.holdsRead = true → th.holdsRead = true
  scan : th'.scanned ≤ th.scanned
  window : th'.pc.inWindow = true → th.pc.inWindow = true

theorem keeps_refl (th : Thread) : Keeps th th := ⟨rfl, rfl, id, le_rfl, id⟩

theorem Keeps.free {th' : Thread} (hkeep : Keeps th th') (hview : LocalView tid w th)
    (hfree : testFlag w.status Flag.free.mask = true) :
    (testFlag w.status Flag.claimed.mask = false ∧
      testFlag w.status Flag.writelocked.mask = false ∧ th'.holdsRead = false ∧
        th'.pc.inWindow = false) ∧
      (testFlag w.status Flag.free.mask = true ∨ th.pc.storesFree = true) := by
  obtain ⟨hc, hw, hr, hwin⟩ := hview.free hfree
  refine ⟨⟨hc, hw, ?_, ?_⟩, Or.inl hfree⟩
  · by_contra h
    have hread := hkeep.read (by simpa using h)
    rw [hr] at hread
    cases hread
  · by_contra h
    have hwindow := hkeep.window (by simpa using h)
    rw [hwin] at hwindow
    cases hwindow

theorem delta_incRef (hview : LocalView tid w th) {th' : Thread} (hok : ThreadOk tid th')
    (hroom : getRef w.refcount tid ≠ maxReadRefcount)
    (hrefs : th'.refTokens = th.refTokens + 1) (hkeep : Keeps th th') :
    Delta tid w th { w with refcount := incRef w.refcount tid } th' := by
  have hinc := getRef_incRef hview.ref_lt hroom
  have hmax : maxReadRefcount = 2 ^ 16 - 1 := rfl
  have hlt := hview.ref_lt
  have hfree := hkeep.free hview
  refine ⟨?_, fun i hi => getRef_incRef_other hi, ?_, by rw [hkeep.claim], by rw [hkeep.write],
    hok, fun h => Or.inl (hkeep.read h), fun i hi => Or.inl (lt_of_lt_of_le hi hkeep.scan),
    hfree⟩
  · change getRef (incRef w.refcount tid) tid + th.refTokens = _
    rw [hinc, hrefs]
    omega
  · change getRef (incRef w.refcount tid) tid < _
    rw [hinc]
    omega

theorem delta_decRef (hview : LocalView tid w th) {th' : Thread} (hok : ThreadOk tid th')
    (hrefs : th'.refTokens + 1 = th.refTokens) (hkeep : Keeps th th') :
    Delta tid w th { w with refcount := decRef w.refcount tid } th' := by
  have hown := hview.ref
  have hlt := hview.ref_lt
  have hdec := getRef_decRef hlt (by omega)
  have hfree := hkeep.free hview
  refine ⟨?_, fun i hi => getRef_decRef_other hi, ?_, by rw [hkeep.claim], by rw [hkeep.write],
    hok, fun h => Or.inl (hkeep.read h), fun i hi => Or.inl (lt_of_lt_of_le hi hkeep.scan),
    hfree⟩
  · change getRef (decRef w.refcount tid) tid + th.refTokens = _
    rw [hdec]
    omega
  · change getRef (decRef w.refcount tid) tid < _
    rw [hdec]
    omega

theorem delta_status (hview : LocalView tid w th) {th' : Thread} {status : EntryStatus}
    (hok : ThreadOk tid th') (hfree : testFlag status Flag.free.mask = false)
    (hrefs : th'.refTokens = th.refTokens)
    (hclaim : (testFlag status Flag.claimed.mask).toNat + th.claimTokens =
      (testFlag w.status Flag.claimed.mask).toNat + th'.claimTokens)
    (hwrite : (testFlag status Flag.writelocked.mask).toNat + th.writeTokens =
      (testFlag w.status Flag.writelocked.mask).toNat + th'.writeTokens)
    (hgain : th'.holdsRead = true → th.holdsRead = true ∨
      testFlag w.status Flag.writelocked.mask = false ∨ 0 < th.writeTokens)
    (hscan : ∀ i, i < th'.scanned → i < th.scanned ∨
      (getRef w.refcount i ≤ (if tid % tpRcWidth = i then 1 else 0) ∧ 0 < th.refTokens) ∨
        testFlag w.status Flag.free.mask = true) :
    Delta tid w th { w with status := status } th' where
  ref := by rw [hrefs]
  ref_other _ _ := rfl
  ref_lt := hview.ref_lt
  claim := hclaim
  write := hwrite
  ok := hok
  gain := hgain
  scan := hscan
  free h := absurd (hfree.symm.trans h) Bool.false_ne_true

theorem delta_flags (hview : LocalView tid w th) {th' : Thread} {status : EntryStatus}
    {pincount : Nat} (hok : ThreadOk tid th') (hrefs : th'.refTokens = th.refTokens)
    (hkeep : Keeps th th')
    (hfree : testFlag status Flag.free.mask = testFlag w.status Flag.free.mask)
    (hclaim : testFlag status Flag.claimed.mask = testFlag w.status Flag.claimed.mask)
    (hwrite : testFlag status Flag.writelocked.mask = testFlag w.status Flag.writelocked.mask) :
    Delta tid w th { w with status := status, pincount := pincount } th' where
  ref := by rw [hrefs]
  ref_other _ _ := rfl
  ref_lt := hview.ref_lt
  claim := by rw [hclaim, hkeep.claim]
  write := by rw [hwrite, hkeep.write]
  ok := hok
  gain h := Or.inl (hkeep.read h)
  scan i hi := Or.inl (lt_of_lt_of_le hi hkeep.scan)
  free h := by
    rw [hclaim, hwrite]
    exact hkeep.free hview (hfree.symm.trans h)

theorem delta_move (hview : LocalView tid w th) {th' : Thread} (hok : ThreadOk tid th')
    (hrefs : th'.refTokens = th.refTokens) (hkeep : Keeps th th') : Delta tid w th w th' :=
  delta_flags hview hok hrefs hkeep rfl rfl rfl

/-! ## What a holder knows -/

theorem LocalView.not_free (hview : LocalView tid w th) (hread : th.holdsRead = true) :
    testFlag w.status Flag.free.mask = false := by
  by_contra h
  rw [(hview.free (by simpa using h)).2.2.1] at hread
  cases hread

theorem LocalView.own_claim (hview : LocalView tid w th) (hpc : th.pc.holdsClaim = true) :
    th.claim = false ∧ th.write = false ∧ testFlag w.status Flag.claimed.mask = true := by
  have hle := hview.claim
  have hbit := Bool.toNat_le (testFlag w.status Flag.claimed.mask)
  simp only [Thread.claimTokens, hpc, Bool.toNat_true] at hle
  have hclaim : th.claim = false := Bool.toNat_eq_zero.mp (by omega)
  refine ⟨hclaim, ?_, Bool.toNat_eq_one.mp (by omega)⟩
  by_contra h
  have := hview.ok.write_claim (by simpa using h)
  rw [hclaim] at this
  cases this

theorem LocalView.own_write (hview : LocalView tid w th) (hpc : th.pc.setsWrite = true) :
    th.write = false ∧ testFlag w.status Flag.writelocked.mask = true := by
  have hle := hview.write
  have hbit := Bool.toNat_le (testFlag w.status Flag.writelocked.mask)
  simp only [Thread.writeTokens, hpc, Bool.toNat_true] at hle
  exact ⟨Bool.toNat_eq_zero.mp (by omega), Bool.toNat_eq_one.mp (by omega)⟩

/-! ## Positions -/

/-- The accounts of two positions agree, and the second promises no more. -/
structure Pc.Keeps (pc pc' : Pc) : Prop where
  claim : pc'.holdsClaim = pc.holdsClaim
  write : pc'.setsWrite = pc.setsWrite
  read : pc'.holdsRead = true → pc.holdsRead = true
  scan : pc'.scanned ≤ pc.scanned
  window : pc'.inWindow = true → pc.inWindow = true

instance (pc pc' : Pc) : Decidable (pc.Keeps pc') :=
  decidable_of_iff
    (pc'.holdsClaim = pc.holdsClaim ∧ pc'.setsWrite = pc.setsWrite ∧
      (pc'.holdsRead = true → pc.holdsRead = true) ∧ pc'.scanned ≤ pc.scanned ∧
        (pc'.inWindow = true → pc.inWindow = true))
    ⟨fun ⟨hc, hw, hr, hs, hi⟩ => ⟨hc, hw, hr, hs, hi⟩, fun ⟨hc, hw, hr, hs, hi⟩ => ⟨hc, hw, hr, hs, hi⟩⟩

theorem scanned_goto {pc' : Pc} (h : pc'.scanned ≤ th.pc.scanned) :
    (th.goto pc').scanned ≤ th.scanned := by
  by_cases hwrite : th.write = true
  · simp [Thread.scanned, hwrite]
  · simpa [Thread.scanned, hwrite] using h

theorem keeps_goto {pc pc' : Pc} (hpc : th.pc = pc) (hkeep : pc.Keeps pc') :
    Keeps th (th.goto pc') := by
  subst hpc
  refine ⟨?_, ?_, ?_, ?_, hkeep.window⟩
  · simp only [Thread.claimTokens, goto_claim, goto_pc, hkeep.claim]
  · simp only [Thread.writeTokens, goto_write, goto_pc, hkeep.write]
  · simp only [Thread.holdsRead, goto_readLocks, goto_pc, Bool.or_eq_true]
    exact Or.imp id hkeep.read
  · exact scanned_goto hkeep.scan

theorem refTokens_goto {pc : Pc} (hpc : th.pc = pc) (pc' : Pc) :
    (th.goto pc').refTokens + pc.refs = th.refTokens + pc'.refs := by
  simp only [Thread.refTokens, goto_readLocks, goto_pc, hpc]
  omega

theorem claimTokens_goto {pc : Pc} (hpc : th.pc = pc) (pc' : Pc) :
    (th.goto pc').claimTokens + pc.holdsClaim.toNat = th.claimTokens + pc'.holdsClaim.toNat := by
  simp only [Thread.claimTokens, goto_claim, goto_pc, hpc]
  omega

theorem writeTokens_goto {pc : Pc} (hpc : th.pc = pc) (pc' : Pc) :
    (th.goto pc').writeTokens + pc.setsWrite.toNat = th.writeTokens + pc'.setsWrite.toNat := by
  simp only [Thread.writeTokens, goto_write, goto_pc, hpc]
  omega

theorem delta_goto (hview : LocalView tid w th) {pc pc' : Pc} (hpc : th.pc = pc) (hok : pc'.Ok tid th)
    (hrefs : pc'.refs = pc.refs) (hkeep : pc.Keeps pc') : Delta tid w th w (th.goto pc') :=
  have htokens := refTokens_goto hpc pc'
  delta_move hview (hview.ok.goto hok) (by omega) (keeps_goto hpc hkeep)

theorem delta_startRead (hview : LocalView tid w th) {pc : Pc} (hpc : th.pc = pc) (who : Who)
    (hrefs : pc.refs = 0) (hkeep : pc.Keeps (.readTested who)) (hidle : pc.Keeps .idle) :
    Delta tid w th (startRead w th who).1 (startRead w th who).2 := by
  by_cases htest : testFlag w.status Flag.writelocked.mask = true
  · simp only [startRead, htest, if_true]
    exact delta_goto hview hpc trivial hrefs.symm hidle
  · simp only [startRead, htest]
    exact delta_goto hview hpc trivial hrefs.symm hkeep

theorem delta_claimStep (hview : LocalView tid w th) {pc claimed : Pc} (hpc : th.pc = pc)
    (hok : claimed.Ok tid th) (hrefs : pc.refs = 1 ∧ claimed.refs = 1)
    (hold : pc.holdsRead = true ∧ pc.holdsClaim = false ∧ pc.setsWrite = false)
    (hnew : claimed.holdsClaim = true ∧ claimed.setsWrite = false ∧ claimed.scanned = 0) :
    Delta tid w th (claimStep w th claimed).1 (claimStep w th claimed).2 := by
  have hread : th.holdsRead = true := by simp [Thread.holdsRead, hpc, hold.1, -Pc.holdsRead]
  have hfree := hview.not_free hread
  obtain ⟨-, hnoClaim, hnoWrite⟩ := hold
  obtain ⟨hclaims, hwrites, hscanned⟩ := hnew
  by_cases htest : testFlag w.status Flag.claimed.mask = true
  · have hc := claimTokens_goto hpc .refUndo
    have hw := writeTokens_goto hpc .refUndo
    have hr := refTokens_goto hpc .refUndo
    rw [hnoClaim] at hc
    rw [hnoWrite] at hw
    rw [hrefs.1] at hr
    simp only [claimStep, htest, if_true]
    refine delta_status hview (hview.ok.goto trivial) (by simp [hfree]) (Nat.add_right_cancel hr) ?_ ?_
      (fun _ => Or.inl hread) (fun i hi => Or.inl (lt_of_lt_of_le hi (scanned_goto (Nat.zero_le _))))
    · rw [testFlag_setFlag, htest, ← Nat.add_right_cancel hc]
      rfl
    · rw [testFlag_setFlag, ← Nat.add_right_cancel hw]
      simp
  · have hc := claimTokens_goto hpc claimed
    have hw := writeTokens_goto hpc claimed
    have hr := refTokens_goto hpc claimed
    have hscan : claimed.scanned ≤ th.pc.scanned := by rw [hscanned]; exact Nat.zero_le _
    rw [hnoClaim, hclaims] at hc
    rw [hnoWrite, hwrites] at hw
    rw [hrefs.1, hrefs.2] at hr
    simp only [claimStep, htest]
    refine delta_status hview (hview.ok.goto hok) (by simp [hfree]) (Nat.add_right_cancel hr) ?_ ?_
      (fun _ => Or.inl hread) (fun i hi => Or.inl (lt_of_lt_of_le hi (scanned_goto hscan)))
    · simp only [Bool.toNat_false, Bool.toNat_true] at hc
      simp [htest]
      omega
    · simp [Nat.add_right_cancel hw]

theorem delta_readCounted (hview : LocalView tid w th) {who : Who} (hpc : th.pc = .readCounted who) :
    Delta tid w th w (th.goto (.readFreeTested who (testFlag w.status Flag.free.mask))) := by
  cases hfree : testFlag w.status Flag.free.mask with
  | true => exact delta_goto hview hpc trivial rfl (by cases who <;> decide)
  | false =>
      have hr := refTokens_goto hpc (.readFreeTested who false)
      have hc := claimTokens_goto hpc (.readFreeTested who false)
      have hw := writeTokens_goto hpc (.readFreeTested who false)
      refine delta_status hview (hview.ok.goto trivial) hfree (Nat.add_right_cancel hr) ?_ ?_ ?_
        (fun i hi => Or.inl (lt_of_lt_of_le hi (scanned_goto (Nat.zero_le _))))
      · rw [Nat.add_right_cancel hc]
      · rw [Nat.add_right_cancel hw]
      · intro h
        rw [Thread.holdsRead, goto_readLocks, goto_pc] at h
        exact Or.inl (by rw [Thread.holdsRead, hpc]; exact h)

theorem delta_readFreeTested (hview : LocalView tid w th) {who : Who} {ccFree : Bool}
    (hpc : th.pc = .readFreeTested who ccFree) :
    Delta tid w th w (if !ccFree && !testFlag w.status Flag.writelocked.mask then readSuccess th who
        else th.goto .readFailed) := by
  split
  · rename_i hpass
    obtain ⟨hcc, hunlocked⟩ : ccFree = false ∧ testFlag w.status Flag.writelocked.mask = false := by
      simpa using hpass
    have hwindow : th.pc.inWindow = true := by rw [hpc, hcc]; rfl
    have hfree : testFlag w.status Flag.free.mask = false := by
      by_contra h
      rw [(hview.free (by simpa using h)).2.2.2] at hwindow
      cases hwindow
    have hok : ThreadOk tid (readSuccess th who) := by
      cases who with
      | client => exact ⟨fun _ => Nat.succ_pos _, hview.ok.write_claim, trivial⟩
      | evict => exact hview.ok.goto trivial
      | discard => exact hview.ok.goto trivial
    refine delta_status hview hok hfree ?_ ?_ ?_ (fun _ => Or.inr (Or.inl hunlocked)) ?_
    · cases who <;> simp [Thread.refTokens, readSuccess, Thread.goto, hpc]
    · cases who <;> simp [Thread.claimTokens, readSuccess, Thread.goto, hpc]
    · cases who <;> simp [Thread.writeTokens, readSuccess, Thread.goto, hpc]
    · intro i hi
      refine Or.inl (lt_of_lt_of_le hi ?_)
      rw [Thread.scanned, Thread.scanned, hpc]
      cases who <;> exact le_rfl
  · exact delta_goto hview hpc trivial rfl (by cases who <;> cases ccFree <;> decide)

theorem delta_setWrite (hview : LocalView tid w th) {pc' : Pc} (hok : pc'.Ok tid th)
    (hread : th.holdsRead = true) (hclaim : 0 < th.claimTokens) (hwrite : th.writeTokens = 0)
    (hrefs : pc'.refs = th.pc.refs) (hkeep : pc'.holdsClaim = th.pc.holdsClaim)
    (hsets : pc'.setsWrite = true) (hscan : pc'.scanned ≤ th.pc.scanned) :
    Delta tid w th { w with status := setFlag w.status Flag.writelocked.mask } (th.goto pc') := by
  have hfree := hview.not_free hread
  have hunlocked := hview.excl hclaim hwrite
  have hr := refTokens_goto (rfl : th.pc = th.pc) pc'
  have hc := claimTokens_goto (rfl : th.pc = th.pc) pc'
  have hw := writeTokens_goto (rfl : th.pc = th.pc) pc'
  have hold : th.pc.setsWrite.toNat = 0 := by
    simp only [Thread.writeTokens] at hwrite
    omega
  refine delta_status hview (hview.ok.goto hok) (by simp [hfree]) (by omega) ?_ ?_
    (fun _ => Or.inl hread) (fun i hi => Or.inl (lt_of_lt_of_le hi (scanned_goto hscan)))
  · rw [hkeep] at hc
    simp [Nat.add_right_cancel hc]
  · rw [hsets, hold, hwrite] at hw
    simp only [Bool.toNat_true, Nat.add_zero, Nat.zero_add] at hw
    simp [hunlocked, hwrite, hw]

theorem delta_writeStart (hview : LocalView tid w th) {who : Who} (hpc : th.pc = .writeStart who) :
    Delta tid w th { w with status := setFlag w.status Flag.writelocked.mask }
      (th.goto (.writeFlag who)) := by
  have hwho : who ≠ .client := by
    have hok := hview.ok.pc_ok
    rw [hpc] at hok
    exact hok
  have hholds : th.pc.holdsClaim = true := by rw [hpc]; simpa [Pc.holdsClaim] using hwho
  obtain ⟨-, hwrite, -⟩ := hview.own_claim hholds
  refine delta_setWrite hview (fun h => absurd h hwho) ?_ ?_ ?_ ?_ ?_ rfl ?_
  · simp [Thread.holdsRead, hpc, hwho]
  · simp [Thread.claimTokens, hholds, -Pc.holdsClaim]
  · simp [Thread.writeTokens, hwrite, hpc]
  · rw [hpc]
    rfl
  · rw [hpc]
    rfl
  · rw [hpc]
    exact Nat.le_refl 0

theorem delta_writeFlag (hview : LocalView tid w th) {who : Who} (hpc : th.pc = .writeFlag who) :
    Delta tid w th w (if testFlag w.status Flag.writeback.mask then writeBlocked th who
        else th.goto (.writeScan who 0)) := by
  have hok : who = .client → th.claim = true ∧ th.write = false := by
    have hok := hview.ok.pc_ok
    rw [hpc] at hok
    exact hok
  split
  · cases who with
    | evict => exact delta_goto hview hpc trivial rfl (by decide)
    | client => exact delta_move hview hview.ok rfl (keeps_refl th)
    | discard => exact delta_move hview hview.ok rfl (keeps_refl th)
  · exact delta_goto hview hpc ⟨by decide, hok, fun _ h => absurd h (Nat.not_lt_zero _)⟩ rfl
      (by cases who <;> decide)

/-- **One step of the scan**: the stripe it finds empty of others is one more stripe scanned, and
after the last one the write lock is obtained. -/
theorem delta_writeScan (hview : LocalView tid w th) {who : Who} {i : Nat}
    (hpc : th.pc = .writeScan who i) :
    Delta tid w th (scanStep tid w th who i).1 (scanStep tid w th who i).2 := by
  have hok := hview.ok.pc_ok
  rw [hpc] at hok
  obtain ⟨hlt, hclient, hother⟩ := hok
  obtain ⟨hwrite, -⟩ := hview.own_write (by rw [hpc]; rfl)
  have hscanned : th.scanned = i := by simp [Thread.scanned, hwrite, hpc]
  have hrefs : 0 < th.refTokens := by
    cases who with
    | client => exact Nat.add_pos_left (hview.ok.claim_read (hclient rfl).1) _
    | evict => simp [Thread.refTokens, hpc]
    | discard => simp [Thread.refTokens, hpc]
  have hread : th.holdsRead = true := by
    cases who with
    | client => simp [Thread.holdsRead, hview.ok.claim_read (hclient rfl).1]
    | evict => simp [Thread.holdsRead, hpc]
    | discard => simp [Thread.holdsRead, hpc]
  by_cases hempty : getRef w.refcount i ≤ (if tid % tpRcWidth = i then 1 else 0)
  · have hfree := hview.not_free hread
    have hadvance : ∀ {th' : Thread}, ThreadOk tid th' → th'.refTokens = th.refTokens →
        th'.claimTokens = th.claimTokens → th'.writeTokens = th.writeTokens →
        th'.scanned = i + 1 → Delta tid w th w th' := by
      intro th' hok' hr hc hw hs
      refine delta_status hview hok' hfree hr (by rw [hc]) (by rw [hw]) (fun _ => Or.inl hread) ?_
      intro j hj
      rcases Nat.lt_or_ge j i with hbelow | habove
      · exact Or.inl (by omega)
      · obtain rfl : j = i := by omega
        exact Or.inr (Or.inl ⟨hempty, hrefs⟩)
    have hsole : who ≠ .client → tid % tpRcWidth < i + 1 → th.readLocks = 0 := by
      intro hwho hle
      rcases Nat.lt_or_eq_of_le (Nat.le_of_lt_succ hle) with hbelow | hown
      · exact hother hwho hbelow
      · have hall := hview.ref
        have hone : th.pc.refs = 1 := by simp [hpc, hwho]
        have hstripe : getRef w.refcount tid = getRef w.refcount i := by
          rw [getRef, getRef, hown, Nat.mod_eq_of_lt hlt]
        rw [if_pos hown, ← hstripe] at hempty
        rw [Thread.refTokens, hone] at hall
        omega
    simp only [scanStep, hempty, if_true]
    by_cases hmore : i + 1 < tpRcWidth
    · simp only [hmore, if_true]
      refine hadvance (hview.ok.goto ⟨hmore, hclient, hsole⟩) ?_ ?_ ?_ ?_
      · simp [Thread.refTokens, hpc]
      · simp [Thread.claimTokens, hpc]
      · simp [Thread.writeTokens, hpc]
      · simp [Thread.scanned, hwrite]
    · have hlast : tpRcWidth = i + 1 := by omega
      simp only [hmore, if_false]
      cases who with
      | client =>
          obtain ⟨hclaim, -⟩ := hclient rfl
          refine hadvance ⟨hview.ok.claim_read, fun _ => hclaim, trivial⟩ ?_ ?_ ?_ ?_
          · simp [writeObtained, Thread.refTokens, hpc]
          · simp [writeObtained, Thread.claimTokens, hpc]
          · simp [writeObtained, Thread.writeTokens, hpc, hwrite]
          · simp [writeObtained, Thread.scanned, hlast]
      | evict =>
          have hreads : th.readLocks = 0 := hsole (by decide) (hlast ▸ Nat.mod_lt _ (by decide))
          simp only [writeObtained]
          refine hadvance (hview.ok.goto hreads) ?_ ?_ ?_ ?_
          · simp [Thread.refTokens, hpc]
          · simp [Thread.claimTokens, hpc]
            rfl
          · simp [Thread.writeTokens, hpc]
          · simp [Thread.scanned, hwrite, hlast]
      | discard =>
          have hreads : th.readLocks = 0 := hsole (by decide) (hlast ▸ Nat.mod_lt _ (by decide))
          simp only [writeObtained]
          refine hadvance (hview.ok.goto hreads) ?_ ?_ ?_ ?_
          · simp [Thread.refTokens, hpc]
          · simp [Thread.claimTokens, hpc]
            rfl
          · simp [Thread.writeTokens, hpc]
          · simp [Thread.scanned, hwrite, hlast]
  · simp only [scanStep, hempty, if_false]
    cases who with
    | evict =>
        exact delta_goto hview hpc trivial rfl ⟨rfl, rfl, fun _ => rfl, Nat.zero_le _, id⟩
    | client => exact delta_move hview hview.ok rfl (keeps_refl th)
    | discard => exact delta_move hview hview.ok rfl (keeps_refl th)

theorem delta_writeUndo (hview : LocalView tid w th) (hpc : th.pc = .writeUndo) :
    Delta tid w th { w with status := clearFlag w.status Flag.writelocked.mask }
      (th.goto .claimUndo) := by
  have hread : th.holdsRead = true := by simp [Thread.holdsRead, hpc]
  have hfree := hview.not_free hread
  obtain ⟨hwrite, hbit⟩ := hview.own_write (by rw [hpc]; rfl)
  refine delta_status hview (hview.ok.goto trivial) (by simp [hfree]) ?_ ?_ ?_
    (fun _ => Or.inl hread) (fun i hi => Or.inl (lt_of_lt_of_le hi (scanned_goto (Nat.zero_le _))))
  · simp [Thread.refTokens, hpc]
  · simp [Thread.claimTokens, hpc]
  · simp [Thread.writeTokens, hpc, hwrite, hbit]

theorem delta_claimUndo (hview : LocalView tid w th) (hpc : th.pc = .claimUndo) :
    Delta tid w th { w with status := clearFlag w.status Flag.claimed.mask }
      (th.goto .refUndo) := by
  have hread : th.holdsRead = true := by simp [Thread.holdsRead, hpc]
  have hfree := hview.not_free hread
  obtain ⟨hclaim, -, hbit⟩ := hview.own_claim (by rw [hpc]; rfl)
  refine delta_status hview (hview.ok.goto trivial) (by simp [hfree]) ?_ ?_ ?_
    (fun _ => Or.inl hread) (fun i hi => Or.inl (lt_of_lt_of_le hi (scanned_goto (Nat.zero_le _))))
  · simp [Thread.refTokens, hpc]
  · simp [Thread.claimTokens, hpc, hclaim, hbit]
  · simp [Thread.writeTokens, hpc]

theorem testFlag_allocStatus (f : Flag) :
    testFlag tpAllocStatus f.mask = decide (f = .writelocked ∨ f = .claimed) := by
  cases f <;> decide

theorem delta_storeFree (hview : LocalView tid w th) {pc' : Pc} (hok : pc'.Ok tid th)
    (hstores : th.pc.storesFree = true) (hrefs : pc'.refs = th.pc.refs)
    (hclaim : (testFlag w.status Flag.claimed.mask).toNat = th.pc.holdsClaim.toNat)
    (hwrite : (testFlag w.status Flag.writelocked.mask).toNat = th.pc.setsWrite.toNat)
    (hreads : th.readLocks = 0)
    (hpc' : pc'.holdsClaim = false ∧ pc'.setsWrite = false ∧ pc'.holdsRead = false ∧
      pc'.inWindow = false ∧ pc'.scanned = 0) :
    Delta tid w th { w with status := tpFreeStatus } (th.goto pc') := by
  obtain ⟨hnoClaim, hnoWrite, hnoRead, hnoWindow, hscan⟩ := hpc'
  have hr := refTokens_goto (rfl : th.pc = th.pc) pc'
  have hc := claimTokens_goto (rfl : th.pc = th.pc) pc'
  have hw := writeTokens_goto (rfl : th.pc = th.pc) pc'
  rw [hnoClaim] at hc
  rw [hnoWrite] at hw
  refine ⟨?_, fun _ _ => rfl, hview.ref_lt, ?_, ?_, hview.ok.goto hok, ?_, ?_, ?_⟩
  · change getRef w.refcount tid + th.refTokens = getRef w.refcount tid + _
    omega
  · simp only [testFlag_freeStatus, hclaim, reduceCtorEq, decide_false, Bool.toNat_false] at hc ⊢
    omega
  · simp only [testFlag_freeStatus, hwrite, reduceCtorEq, decide_false, Bool.toNat_false] at hw ⊢
    omega
  · intro h
    simp [Thread.holdsRead, hreads, hnoRead, -Pc.holdsRead] at h
  · intro i hi
    exact Or.inl (lt_of_lt_of_le hi (scanned_goto (by omega)))
  · intro _
    refine ⟨⟨?_, ?_, ?_, hnoWindow⟩, Or.inr hstores⟩
    · exact testFlag_freeStatus .claimed
    · exact testFlag_freeStatus .writelocked
    · simp [Thread.holdsRead, hreads, hnoRead, -Pc.holdsRead]

theorem delta_freeStore (hview : LocalView tid w th) {who : Who} (hpc : th.pc = .freeStore who) :
    Delta tid w th { w with status := tpFreeStatus }
      (th.goto (if who = .discard then .resetPinTest else .refFinal)) := by
  have hreads : th.readLocks = 0 := by
    have hok := hview.ok.pc_ok
    rw [hpc] at hok
    exact hok
  obtain ⟨-, -, hclaim⟩ := hview.own_claim (by rw [hpc]; rfl)
  obtain ⟨-, hwrite⟩ := hview.own_write (by rw [hpc]; rfl)
  have hstores : th.pc.storesFree = true := by rw [hpc]; rfl
  have hpos : (testFlag w.status Flag.claimed.mask).toNat = th.pc.holdsClaim.toNat ∧
      (testFlag w.status Flag.writelocked.mask).toNat = th.pc.setsWrite.toNat := by
    rw [hpc, hclaim, hwrite]
    exact ⟨rfl, rfl⟩
  split
  · exact delta_storeFree hview trivial hstores (by rw [hpc]; rfl) hpos.1 hpos.2 hreads
      ⟨rfl, rfl, rfl, rfl, rfl⟩
  · exact delta_storeFree hview trivial hstores (by rw [hpc]; rfl) hpos.1 hpos.2 hreads
      ⟨rfl, rfl, rfl, rfl, rfl⟩

theorem delta_abortStore (hview : LocalView tid w th) (hview' : NextView tid w th)
    (hpc : th.pc = .abortStore) : Delta tid w th { w with status := tpFreeStatus } (th.goto .idle) := by
  have hreads : th.readLocks = 0 := by
    have hok := hview.ok.pc_ok
    rw [hpc] at hok
    exact hok
  obtain ⟨hclaim, hwrite⟩ := hview'.abort hpc
  refine delta_storeFree hview trivial (by rw [hpc]; rfl) (by rw [hpc]; rfl) ?_ ?_ hreads
    ⟨rfl, rfl, rfl, rfl, rfl⟩
  · rw [hclaim, hpc]
    rfl
  · rw [hwrite, hpc]
    rfl

/-- **Taking a free entry**: nobody else has a lock on it, so every stripe counts as scanned. -/
theorem delta_allocCas (hview : LocalView tid w th) {load : Bool} (hpc : th.pc = .allocCas load) :
    Delta tid w th
      (if w.status = tpFreeStatus then ({ w with status := tpAllocStatus }, th.goto (.allocInc load))
        else (w, th.goto .idle)).1
      (if w.status = tpFreeStatus then ({ w with status := tpAllocStatus }, th.goto (.allocInc load))
        else (w, th.goto .idle)).2 := by
  by_cases hstatus : w.status = tpFreeStatus
  · have hfree : testFlag w.status Flag.free.mask = true := by rw [hstatus, testFlag_freeStatus]; rfl
    obtain ⟨hclaim, hwrite, hread, -⟩ := hview.free hfree
    have hreads : th.readLocks = 0 := by
      simp only [Thread.holdsRead, Bool.or_eq_false_iff, decide_eq_false_iff_not] at hread
      omega
    have hnoRead : (th.goto (.allocInc load)).holdsRead = false := by
      simp [Thread.holdsRead, hreads]
    simp only [hstatus, if_true]
    refine delta_status hview (hview.ok.goto hreads) (testFlag_allocStatus .free) ?_ ?_ ?_ ?_
      (fun i _ => Or.inr (Or.inr hfree))
    · simp [Thread.refTokens, hpc]
    · have hc := claimTokens_goto hpc (.allocInc load)
      rw [testFlag_allocStatus, hclaim]
      simp only [Pc.holdsClaim, Bool.toNat_true, Bool.toNat_false] at hc
      simp
      omega
    · have hw := writeTokens_goto hpc (.allocInc load)
      rw [testFlag_allocStatus, hwrite]
      simp only [Pc.setsWrite, Bool.toNat_true, Bool.toNat_false] at hw
      simp
      omega
    · intro h
      rw [hnoRead] at h
      cases h
  · simp only [hstatus, if_false]
    exact delta_goto hview hpc trivial rfl (by cases load <;> decide)

/-- **Publishing a taken entry**, as being loaded or as a new page under its write lock. -/
theorem delta_allocStore (hview : LocalView tid w th) {load : Bool} (hpc : th.pc = .allocStore load) :
    Delta tid w th
      (if load then ({ w with status := tpReadLoadingStatus }, th.goto .loadLookup)
        else ({ w with status := tpAllocStatus ||| tpClockOne },
          { pc := .idle, readLocks := th.readLocks + 1, claim := true, write := true })).1
      (if load then ({ w with status := tpReadLoadingStatus }, th.goto .loadLookup)
        else ({ w with status := tpAllocStatus ||| tpClockOne },
          { pc := .idle, readLocks := th.readLocks + 1, claim := true, write := true })).2 := by
  have hreads : th.readLocks = 0 := by
    have hok := hview.ok.pc_ok
    rw [hpc] at hok
    exact hok
  obtain ⟨hnoClaim, hnoWrite, hclaim⟩ := hview.own_claim (by rw [hpc]; rfl)
  obtain ⟨-, hwrite⟩ := hview.own_write (by rw [hpc]; rfl)
  have hpos : 0 < th.writeTokens := by simp [Thread.writeTokens, hpc]
  have hscanned : th.scanned = tpRcWidth := by simp [Thread.scanned, hnoWrite, hpc]
  cases load with
  | true =>
      refine delta_status hview (hview.ok.goto hreads) (by decide) ?_ ?_ ?_
        (fun _ => Or.inr (Or.inr hpos)) ?_
      · simp [Thread.refTokens, hpc]
      · have hbit : testFlag tpReadLoadingStatus Flag.claimed.mask = false := by decide
        simp [Thread.claimTokens, hpc, hbit, hclaim, hnoClaim]
      · have hbit : testFlag tpReadLoadingStatus Flag.writelocked.mask = false := by decide
        simp [Thread.writeTokens, hpc, hbit, hwrite, hnoWrite]
      · intro i hi
        exact Or.inl (lt_of_lt_of_le hi (scanned_goto (Nat.zero_le _)))
  | false =>
      refine delta_status hview ⟨fun _ => Nat.succ_pos _, fun _ => rfl, trivial⟩ (by decide) ?_ ?_ ?_
        (fun _ => Or.inr (Or.inr hpos)) ?_
      · simp [Thread.refTokens, hpc]
      · have hbit : testFlag (tpAllocStatus ||| tpClockOne) Flag.claimed.mask = true := by decide
        simp [Thread.claimTokens, hpc, hbit, hclaim, hnoClaim]
      · have hbit : testFlag (tpAllocStatus ||| tpClockOne) Flag.writelocked.mask = true := by decide
        simp [Thread.writeTokens, hpc, hbit, hwrite, hnoWrite]
      · intro i hi
        rw [hscanned]
        exact Or.inl hi

theorem delta_loading (hview : LocalView tid w th) (hpc : th.pc = .loading) :
    Delta tid w th { w with status := clearFlag w.status Flag.loading.mask }
      { th with pc := .idle, readLocks := th.readLocks + 1 } := by
  have hread : th.holdsRead = true := by simp [Thread.holdsRead, hpc]
  have hfree := hview.not_free hread
  refine delta_status hview ⟨fun _ => Nat.succ_pos _, hview.ok.write_claim, trivial⟩
    (by simp [hfree]) ?_ ?_ ?_ (fun _ => Or.inl hread) ?_
  · simp [Thread.refTokens, hpc]
  · simp [Thread.claimTokens, hpc]
  · simp [Thread.writeTokens, hpc]
  · intro i hi
    rw [Thread.scanned, hpc]
    exact Or.inl hi

theorem pcNext_delta (hview : LocalView tid w th) (hview' : NextView tid w th) {outcome : Bool}
    {r : EntryWord × Thread} (hnext : pcNext tid w th outcome = some r) : Delta tid w th r.1 r.2 := by
  have hok := hview.ok.pc_ok
  cases hpc : th.pc <;> simp only [pcNext, hpc, Option.some.injEq, reduceCtorEq] at hnext hok <;> subst hnext
  case readTested who =>
    have htokens := refTokens_goto hpc (.readCounted who)
    exact delta_incRef hview (hview.ok.goto trivial) (hview'.room (Or.inl ⟨who, hpc⟩))
      htokens (keeps_goto hpc (by cases who <;> decide))
  case readCounted who =>
    exact delta_readCounted hview hpc
  case readFreeTested who ccFree =>
    exact delta_readFreeTested hview hpc
  case readFailed =>
    exact delta_decRef hview (hview.ok.goto trivial) (refTokens_goto hpc .idle)
      (keeps_goto hpc (by decide))
  case evictSub =>
    exact delta_flags hview (hview.ok.goto trivial) (refTokens_goto hpc .idle)
      (keeps_goto hpc (by decide)) (testFlag_sub _ _) (testFlag_sub _ _) (testFlag_sub _ _)
  case evictStatus =>
    split
    · exact delta_goto hview hpc trivial rfl (by decide)
    · exact delta_goto hview hpc trivial rfl (by decide)
  case evictRef =>
    split
    · exact delta_goto hview hpc trivial rfl (by decide)
    · exact delta_goto hview hpc trivial rfl (by decide)
  case evictPin =>
    split
    · exact delta_goto hview hpc trivial rfl (by decide)
    · exact delta_goto hview hpc trivial rfl (by decide)
  case evictTryRead =>
    exact delta_startRead hview hpc .evict rfl (by decide) (by decide)
  case evictRead =>
    exact delta_claimStep hview hpc trivial ⟨rfl, rfl⟩ ⟨rfl, rfl, rfl⟩ ⟨rfl, rfl, rfl⟩
  case evictClaimed =>
    split
    · exact delta_goto hview hpc trivial rfl (by decide)
    · exact delta_goto hview hpc Who.noConfusion rfl (by decide)
  case discardRead =>
    split
    · exact delta_move hview hview.ok rfl (keeps_refl th)
    · exact delta_goto hview hpc trivial rfl (by decide)
  case discardLoaded =>
    split
    · exact delta_goto hview hpc trivial rfl (by decide)
    · exact delta_goto hview hpc trivial rfl (by decide)
  case discardClaim =>
    exact delta_claimStep hview hpc Who.noConfusion ⟨rfl, rfl⟩ ⟨rfl, rfl, rfl⟩ ⟨rfl, rfl, rfl⟩
  case writeStart who =>
    exact delta_writeStart hview hpc
  case writeFlag who =>
    exact delta_writeFlag hview hpc
  case writeScan who i =>
    exact delta_writeScan hview hpc
  case writeUndo =>
    exact delta_writeUndo hview hpc
  case claimUndo =>
    exact delta_claimUndo hview hpc
  case refUndo =>
    exact delta_decRef hview (hview.ok.goto trivial) (refTokens_goto hpc .idle)
      (keeps_goto hpc (by decide))
  case evictVerify =>
    split
    · exact delta_goto hview hpc trivial rfl (by decide)
    · exact delta_goto hview hpc hok rfl (by decide)
  case evictVerifyPin =>
    split
    · exact delta_goto hview hpc trivial rfl (by decide)
    · exact delta_goto hview hpc hok rfl (by decide)
  case freeStore who =>
    exact delta_freeStore hview hpc
  case resetPinTest =>
    split
    · exact delta_goto hview hpc trivial rfl (by decide)
    · exact delta_goto hview hpc trivial rfl (by decide)
  case resetPin =>
    have htokens : (th.goto .refFinal).refTokens = th.refTokens := by
      simpa [Pc.refs] using refTokens_goto hpc .refFinal
    exact delta_flags hview (hview.ok.goto trivial) htokens (keeps_goto hpc (by decide)) rfl rfl rfl
  case refFinal =>
    exact delta_decRef hview (hview.ok.goto trivial) (refTokens_goto hpc .idle)
      (keeps_goto hpc (by decide))
  case allocCas load =>
    exact delta_allocCas hview hpc
  case allocInc load =>
    exact delta_incRef hview (hview.ok.goto hok) (hview'.room (Or.inr ⟨load, hpc⟩))
      (refTokens_goto hpc (.allocStore load)) (keeps_goto hpc (by cases load <;> decide))
  case allocStore load =>
    exact delta_allocStore hview hpc
  case loadLookup =>
    split
    · exact delta_goto hview hpc hok rfl (by decide)
    · exact delta_goto hview hpc hok rfl (by decide)
  case abortRef =>
    exact delta_decRef hview (hview.ok.goto hok) (refTokens_goto hpc .abortStore)
      (keeps_goto hpc (by decide))
  case abortStore =>
    exact delta_abortStore hview hview' hpc
  case loading =>
    exact delta_loading hview hpc

theorem idleNext_delta (hview : LocalView tid w th) (hpc : th.pc = .idle) {act : LockAct}
    {r : EntryWord × Thread} (hnext : idleNext tid w th act = some r) : Delta tid w th r.1 r.2 := by
  cases act <;> simp only [idleNext, Option.ite_none_right_eq_some, Option.some.injEq, reduceCtorEq]
    at hnext
  case getRead =>
    subst hnext
    exact delta_startRead hview hpc .client rfl (by decide) (by decide)
  case unget =>
    obtain ⟨hheld, rfl⟩ := hnext
    have hrefs : ({ th with readLocks := th.readLocks - 1 } : Thread).refTokens + 1 = th.refTokens := by
      simp only [Thread.refTokens]
      omega
    have hok : ThreadOk tid { th with readLocks := th.readLocks - 1 } := by
      refine ⟨fun hclaim => ?_, hview.ok.write_claim, by rw [hpc]; trivial⟩
      change 0 < th.readLocks - 1
      rw [if_pos hclaim] at hheld
      omega
    refine delta_decRef hview hok hrefs ⟨rfl, rfl, fun _ => ?_, le_rfl, id⟩
    simp only [Thread.holdsRead, Bool.or_eq_true, decide_eq_true_eq]
    exact Or.inl (by omega)
  case tryClaim =>
    obtain ⟨hheld, rfl⟩ := hnext
    have hread : th.holdsRead = true := by simp [Thread.holdsRead, hheld]
    have hfree := hview.not_free hread
    refine delta_status hview ⟨fun _ => hheld, ?_, by rw [hpc]; trivial⟩ (by simp [hfree]) rfl ?_ ?_
      (fun _ => Or.inl hread) (fun i hi => Or.inl hi)
    · intro hwrite
      simp [hview.ok.write_claim hwrite]
    · have hle := hview.claim
      cases hbit : testFlag w.status Flag.claimed.mask <;> cases hclaim : th.claim <;>
        simp_all [Thread.claimTokens, Pc.holdsClaim]
    · simp [Thread.writeTokens]
  case unclaim =>
    obtain ⟨hheld, rfl⟩ := hnext
    obtain ⟨hclaim, hwrite⟩ : th.claim = true ∧ th.write = false := by simpa using hheld
    have hreads := hview.ok.claim_read hclaim
    have hread : th.holdsRead = true := by simp [Thread.holdsRead, hreads]
    have hbit : testFlag w.status Flag.claimed.mask = true := by
      have hle := hview.claim
      simp only [Thread.claimTokens, hclaim, Bool.toNat_true] at hle
      by_contra h
      rw [Bool.not_eq_true] at h
      simp [h] at hle
    refine delta_status hview ⟨nofun, fun h => absurd h (by simp [hwrite]), by rw [hpc]; trivial⟩
      (by simp [hview.not_free hread]) rfl ?_ ?_ (fun _ => Or.inl hread) (fun i hi => Or.inl hi)
    · simp [Thread.claimTokens, hclaim, hbit]
    · simp [Thread.writeTokens]
  case lock =>
    obtain ⟨hheld, rfl⟩ := hnext
    obtain ⟨hclaim, hwrite⟩ : th.claim = true ∧ th.write = false := by simpa using hheld
    have hreads := hview.ok.claim_read hclaim
    refine delta_setWrite hview (fun _ => ⟨hclaim, hwrite⟩) ?_ ?_ ?_ (by rw [hpc]; rfl)
      (by rw [hpc]; rfl) rfl (by rw [hpc]; exact le_rfl)
    · simp [Thread.holdsRead, hreads]
    · simp [Thread.claimTokens, hclaim]
    · simp [Thread.writeTokens, hwrite, hpc]
  case unlock =>
    obtain ⟨hwrite, rfl⟩ := hnext
    have hclaim := hview.ok.write_claim hwrite
    have hread : th.holdsRead = true := by simp [Thread.holdsRead, hview.ok.claim_read hclaim]
    have hbit : testFlag w.status Flag.writelocked.mask = true := by
      have hle := hview.write
      simp only [Thread.writeTokens, hwrite, Bool.toNat_true] at hle
      by_contra h
      rw [Bool.not_eq_true] at h
      simp [h] at hle
    refine delta_status hview ⟨hview.ok.claim_read, nofun, by rw [hpc]; trivial⟩
      (by simp [hview.not_free hread]) rfl ?_ ?_ (fun _ => Or.inl hread) ?_
    · simp [Thread.claimTokens]
    · simp [Thread.writeTokens, hwrite, hbit]
    · intro i hi
      simp [Thread.scanned, hpc] at hi
  case alloc =>
    subst hnext
    split
    · exact delta_goto hview hpc trivial rfl (by decide)
    · exact delta_goto hview hpc trivial rfl (by decide)
  case load =>
    subst hnext
    split
    · exact delta_goto hview hpc trivial rfl (by decide)
    · exact delta_goto hview hpc trivial rfl (by decide)
  case tryEvict eePass =>
    subst hnext
    split
    · exact delta_goto hview hpc trivial rfl (by decide)
    · exact delta_goto hview hpc trivial rfl (by decide)
  case discard =>
    subst hnext
    exact delta_startRead hview hpc .discard rfl (by decide) (by decide)
  case pin =>
    obtain ⟨-, rfl⟩ := hnext
    exact delta_flags hview hview.ok rfl (keeps_refl th) rfl rfl rfl
  case unpin =>
    obtain ⟨-, rfl⟩ := hnext
    exact delta_flags hview hview.ok rfl (keeps_refl th) rfl rfl rfl

theorem otherAccess_flags {status status' : EntryStatus} {op : OtherAccess}
    (hop : op.apply status = some status') {f : Flag} (hf : f ≠ .clean ∧ f ≠ .writeback) :
    testFlag status' f.mask = testFlag status f.mask := by
  obtain ⟨hclean, hwriteback⟩ := hf
  cases op with
  | setFlag g =>
      obtain ⟨hg, rfl⟩ := by simpa [OtherAccess.apply] using hop
      rcases hg with rfl | rfl <;> simp [hclean.symm, hwriteback.symm]
  | clearFlag g =>
      obtain ⟨hg, rfl⟩ := by simpa [OtherAccess.apply] using hop
      rcases hg with rfl | rfl <;> simp [hclean.symm, hwriteback.symm]
  | addTick =>
      obtain rfl : status + tpClockOne = status' := by simpa [OtherAccess.apply] using hop
      exact testFlag_add status f
  | subTick =>
      obtain rfl : status - tpClockOne = status' := by simpa [OtherAccess.apply] using hop
      exact testFlag_sub status f

theorem otherAccess_delta (hview : LocalView tid w th) {op : OtherAccess} {status : EntryStatus}
    (hop : op.apply w.status = some status) : Delta tid w th { w with status := status } th :=
  delta_flags hview hview.ok rfl (keeps_refl th) (otherAccess_flags hop (by decide))
    (otherAccess_flags hop (by decide)) (otherAccess_flags hop (by decide))

theorem threadNext_delta (hview : LocalView tid w th) {act : LockAct}
    (hview' : ∀ outcome, act = .next outcome → NextView tid w th) {r : EntryWord × Thread}
    (hnext : threadNext tid w th act = some r) : Delta tid w th r.1 r.2 := by
  cases act
  case other op =>
    obtain ⟨status, hop, rfl⟩ := Option.map_eq_some_iff.mp hnext
    exact otherAccess_delta hview hop
  case next outcome => exact pcNext_delta hview (hview' outcome rfl) hnext
  all_goals
    obtain ⟨hpc, hidle⟩ := Option.ite_none_right_eq_some.mp hnext
    exact idleNext_delta hview hpc hidle

theorem storesFree_next {act : LockAct} {r : EntryWord × Thread}
    (hnext : threadNext tid w th act = some r) (hstores : th.pc.storesFree = true)
    (hfree : testFlag r.1.status Flag.free.mask = true) :
    testFlag w.status Flag.free.mask = true ∨ ∃ outcome, act = .next outcome := by
  cases act
  case other op =>
    obtain ⟨status, hop, rfl⟩ := Option.map_eq_some_iff.mp hnext
    exact Or.inl ((otherAccess_flags hop (by decide)).symm.trans hfree)
  case next outcome => exact Or.inr ⟨outcome, rfl⟩
  all_goals
    obtain ⟨hpc, -⟩ := Option.ite_none_right_eq_some.mp hnext
    rw [hpc] at hstores
    cases hstores

end Kinds

end Cache
end TreePass
