import TreePass.Lib.Tally
import TreePass.Cache.LockStep

/-!
# Lock exclusion

Every flag and every stripe of the reference count is the sum of what the threads account for
(`LockInv`).  One access changes the account of one thread and the shared words by the same
amount (`Delta`), so the sums survive, and exclusion follows from them by counting.

* `lockInv_step`: an access that meets `NoStaleReader` keeps the invariant.
* `lock_exclusion_of_no_stale_reader`: exclusion in every state such a run visits.
* `stale_reader_breaks_exclusion`: an eviction, a reader between its two tests and a new page
  on one entry.
-/

namespace TreePass
namespace Cache

open Lib Lib.System

/-! ## From accounts to locks -/

theorem Pc.refs_pos_of_holdsRead {pc : Pc} (h : pc.holdsRead = true) : 0 < pc.refs := by
  cases pc
  case writeStart who => cases who <;> first | exact Nat.one_pos | cases h
  case writeFlag who => cases who <;> first | exact Nat.one_pos | cases h
  case writeScan who i => cases who <;> first | exact Nat.one_pos | cases h
  all_goals first | exact Nat.one_pos | cases h

theorem Pc.setsWrite_of_scanned {pc : Pc} (h : 0 < pc.scanned) : pc.setsWrite = true := by
  cases pc <;> first | rfl | exact absurd h (Nat.lt_irrefl 0)

theorem Pc.scanned_of_holdsWrite {pc : Pc} (h : pc.holdsWrite = true) : pc.scanned = tpRcWidth := by
  cases pc <;> first | rfl | cases h

theorem Pc.claim_of_setsWrite {tid : Nat} {th : Thread} {pc : Pc} (hok : pc.Ok tid th)
    (h : pc.setsWrite = true) : th.claim = true ∨ pc.holdsClaim = true := by
  cases pc
  case writeFlag who =>
    cases who with
    | client => exact Or.inl (hok rfl).1
    | evict => exact Or.inr rfl
    | discard => exact Or.inr rfl
  case writeScan who i =>
    cases who with
    | client => exact Or.inl (hok.2.1 rfl).1
    | evict => exact Or.inr rfl
    | discard => exact Or.inr rfl
  all_goals first | exact Or.inr rfl | cases h

section Accounts

variable {tid : Nat} {th : Thread}

theorem refTokens_pos (h : th.holdsRead = true) : 0 < th.refTokens := by
  rw [Thread.holdsRead, Bool.or_eq_true, decide_eq_true_eq] at h
  rcases h with hheld | hpc
  · exact Nat.add_pos_left hheld _
  · exact Nat.add_pos_right _ (Pc.refs_pos_of_holdsRead hpc)

theorem claimTokens_pos_iff : 0 < th.claimTokens ↔ th.holdsClaim = true := by
  cases hclaim : th.claim <;> cases hpc : th.pc.holdsClaim <;>
    simp [Thread.claimTokens, Thread.holdsClaim, hclaim, hpc]

theorem writeTokens_pos_of_scanned (h : 0 < th.scanned) : 0 < th.writeTokens := by
  by_cases hwrite : th.write = true
  · simp [Thread.writeTokens, hwrite]
  · have hpc : 0 < th.pc.scanned := by simpa [Thread.scanned, hwrite] using h
    simp [Thread.writeTokens, Pc.setsWrite_of_scanned hpc]

theorem scanned_of_holdsWrite (h : th.holdsWrite = true) : th.scanned = tpRcWidth := by
  by_cases hwrite : th.write = true
  · simp [Thread.scanned, hwrite]
  · have hpc : th.pc.holdsWrite = true := by simpa [Thread.holdsWrite, hwrite] using h
    simp [Thread.scanned, hwrite, Pc.scanned_of_holdsWrite hpc]

theorem claimTokens_pos_of_writeTokens (hok : ThreadOk tid th) (h : 0 < th.writeTokens) :
    0 < th.claimTokens := by
  rw [claimTokens_pos_iff, Thread.holdsClaim, Bool.or_eq_true]
  by_cases hwrite : th.write = true
  · exact Or.inl (hok.write_claim hwrite)
  · have hsets : th.pc.setsWrite = true := by
      by_contra hnot
      rw [Bool.not_eq_true] at hnot hwrite
      simp [Thread.writeTokens, hwrite, hnot] at h
    exact Pc.claim_of_setsWrite hok.pc_ok hsets

end Accounts

/-! ## The invariant -/

variable {n : Nat}

def stripeTokens (i : Nat) (t : Fin n) (th : Thread) : Nat :=
  if t.val % tpRcWidth = i then th.refTokens else 0

/-- The shared words are the sums of what the threads account for. -/
structure LockInv (s : LockState n) : Prop where
  ok : ∀ t : Fin n, ThreadOk t.val (s.thread t)
  ref : ∀ i, i < tpRcWidth → ∑ t, stripeTokens i t (s.thread t) = getRef s.word.refcount i
  ref_lt : ∀ i, i < tpRcWidth → getRef s.word.refcount i < 2 ^ 16
  claim : ∑ t, (s.thread t).claimTokens = (testFlag s.word.status Flag.claimed.mask).toNat
  write : ∑ t, (s.thread t).writeTokens = (testFlag s.word.status Flag.writelocked.mask).toNat
  /-- No other thread holds a read lock in a stripe a writer has scanned. -/
  scan : ∀ t r : Fin n, t ≠ r → r.val % tpRcWidth < (s.thread t).scanned →
    (s.thread r).holdsRead = false
  free : testFlag s.word.status Flag.free.mask = true →
    testFlag s.word.status Flag.claimed.mask = false ∧
      testFlag s.word.status Flag.writelocked.mask = false ∧
        ∀ t, (s.thread t).holdsRead = false ∧ (s.thread t).pc.inWindow = false

theorem LockInv.exclusion {s : LockState n} (h : LockInv s) : LockExclusion s where
  write_excludes_read t r hne hwrite := by
    refine h.scan t r hne ?_
    rw [scanned_of_holdsWrite hwrite]
    exact Nat.mod_lt _ (by decide)
  one_claim t r ht hr := by
    by_contra hne
    have hboth := add_le_tally (fun _ th => Thread.claimTokens th) s.thread hne
    have hbit := Bool.toNat_le (testFlag s.word.status Flag.claimed.mask)
    have htpos := claimTokens_pos_iff.mpr ht
    have hrpos := claimTokens_pos_iff.mpr hr
    have hsum := h.claim
    omega
  read_not_free t hread := by
    by_contra hfree
    rw [((h.free (by simpa using hfree)).2.2 t).1] at hread
    cases hread

theorem lockInv_free (n : Nat) : LockInv (freeEntryState n) := by
  refine ⟨fun t => ⟨nofun, nofun, trivial⟩, ?_, ?_, ?_, ?_, ?_, ?_⟩
  · intro i _
    simp [freeEntryState, stripeTokens, Thread.refTokens, Pc.refs, getRef]
  · intro i _
    simp [freeEntryState, getRef]
  · simp [freeEntryState, Thread.claimTokens, Pc.holdsClaim, testFlag_freeStatus]
  · simp [freeEntryState, Thread.writeTokens, Pc.setsWrite, testFlag_freeStatus]
  · intro t r _ _
    rfl
  · intro _
    exact ⟨testFlag_freeStatus .claimed, testFlag_freeStatus .writelocked, fun _ => ⟨rfl, rfl⟩⟩

theorem LockInv.localView {s : LockState n} (h : LockInv s) (t : Fin n) :
    LocalView t.val s.word (s.thread t) := by
  have hmod : t.val % tpRcWidth < tpRcWidth := Nat.mod_lt _ (by decide)
  have hget : getRef s.word.refcount (t.val % tpRcWidth) = getRef s.word.refcount t.val := by
    rw [getRef, getRef, Nat.mod_mod]
  have hclaims := le_tally (fun _ th => Thread.claimTokens th) s.thread t
  have hwrites := le_tally (fun _ th => Thread.writeTokens th) s.thread t
  have hrefs := le_tally (stripeTokens (t.val % tpRcWidth)) s.thread t
  rw [h.claim] at hclaims
  rw [h.write] at hwrites
  rw [h.ref _ hmod, hget, stripeTokens, if_pos rfl] at hrefs
  refine ⟨h.ok t, hclaims, hwrites, ?_, hrefs, hget ▸ h.ref_lt _ hmod, ?_⟩
  · intro hclaim hwrite
    -- Another write lock flag would stand under a second claim.
    have hzero : ∑ r, (s.thread r).writeTokens = 0 := by
      refine Finset.sum_eq_zero fun r _ => ?_
      by_contra hpos
      have hne : t ≠ r := fun heq => hpos (heq ▸ hwrite)
      have hboth := add_le_tally (fun _ th => Thread.claimTokens th) s.thread hne
      have hother := claimTokens_pos_of_writeTokens (h.ok r) (Nat.pos_of_ne_zero hpos)
      have hbit := Bool.toNat_le (testFlag s.word.status Flag.claimed.mask)
      rw [h.claim] at hboth
      omega
    exact Bool.toNat_eq_zero.mp (h.write.symm.trans hzero)
  · intro hfree
    obtain ⟨hc, hw, hall⟩ := h.free hfree
    exact ⟨hc, hw, hall t⟩

theorem LockInv.nextView {s : LockState n} (h : LockInv s) {t : Fin n} {outcome : Bool}
    (hguard : NoStaleReader s (t, .next outcome)) : NextView t.val s.word (s.thread t) := by
  constructor
  · rintro (⟨who, hpc⟩ | ⟨load, hpc⟩)
    · simpa [NoStaleReader, hpc] using hguard
    · simpa [NoStaleReader, hpc] using hguard
  · intro hpc
    have hothers : ∀ r, r ≠ t → (s.thread r).pc.inWindow = false ∧ (s.thread r).holdsRead = false ∧
        (s.thread r).holdsClaim = false := by
      simpa only [NoStaleReader, hpc] using hguard
    have hown : (s.thread t).claimTokens = 0 := by
      have hok := h.ok t
      have hreads := hok.pc_ok
      rw [hpc] at hreads
      have hclaim : (s.thread t).claim = false := by
        by_contra hset
        have := hok.claim_read (by simpa using hset)
        have hzero : (s.thread t).readLocks = 0 := hreads
        omega
      simp [Thread.claimTokens, hclaim, hpc, Pc.holdsClaim]
    have hclaims : ∀ r, (s.thread r).claimTokens = 0 := by
      intro r
      by_cases hr : r = t
      · rw [hr, hown]
      · by_contra hpos
        have hholds := claimTokens_pos_iff.mp (Nat.pos_of_ne_zero hpos)
        rw [(hothers r hr).2.2] at hholds
        cases hholds
    have hwrites : ∀ r, (s.thread r).writeTokens = 0 := by
      intro r
      by_contra hpos
      have := claimTokens_pos_of_writeTokens (h.ok r) (Nat.pos_of_ne_zero hpos)
      rw [hclaims r] at this
      cases this
    constructor
    · refine Bool.toNat_eq_zero.mp (h.claim.symm.trans (Finset.sum_eq_zero fun r _ => hclaims r))
    · refine Bool.toNat_eq_zero.mp (h.write.symm.trans (Finset.sum_eq_zero fun r _ => hwrites r))

section Step

variable {s : LockState n} {t : Fin n} {w' : EntryWord} {th' : Thread}

theorem LockInv.ref_step (h : LockInv s) (hd : Delta t.val s.word (s.thread t) w' th') {i : Nat}
    (hi : i < tpRcWidth) :
    ∑ r, stripeTokens i r (Function.update s.thread t th' r) = getRef w'.refcount i ∧
      getRef w'.refcount i < 2 ^ 16 := by
  have hsum := tally_update (stripeTokens i) s.thread t th'
  rw [h.ref i hi] at hsum
  by_cases hown : t.val % tpRcWidth = i
  · have hget : ∀ refcount, getRef refcount i = getRef refcount t.val := by
      intro refcount
      rw [getRef, getRef, hown, Nat.mod_eq_of_lt hi]
    have href := hd.ref
    simp only [stripeTokens, if_pos hown] at hsum
    rw [hget] at hsum
    rw [hget]
    exact ⟨by simp only [stripeTokens]; omega, hd.ref_lt⟩
  · have hother := hd.ref_other i (by rw [Nat.mod_eq_of_lt hi]; exact fun heq => hown heq.symm)
    simp only [stripeTokens, if_neg hown, Nat.add_zero] at hsum
    rw [hother]
    exact ⟨hsum, h.ref_lt i hi⟩

theorem LockInv.scan_step (h : LockInv s) (hd : Delta t.val s.word (s.thread t) w' th') (u r : Fin n)
    (hne : u ≠ r) (hscan : r.val % tpRcWidth < (Function.update s.thread t th' u).scanned) :
    (Function.update s.thread t th' r).holdsRead = false := by
  by_cases hu : u = t
  · subst hu
    rw [Function.update_self] at hscan
    rw [Function.update_of_ne (Ne.symm hne)]
    rcases hd.scan _ hscan with hbefore | ⟨hempty, hown⟩ | hfree
    · exact h.scan u r hne hbefore
    · -- A read lock of `r` would be one reference too many in its stripe.
      by_contra hread
      have hpos := refTokens_pos (by simpa using hread)
      have hlt : r.val % tpRcWidth < tpRcWidth := Nat.mod_lt _ (by decide)
      have hboth := add_le_tally (stripeTokens (r.val % tpRcWidth)) s.thread hne
      rw [h.ref _ hlt] at hboth
      simp only [stripeTokens, if_true] at hboth
      split at hempty
      · rename_i hsame
        rw [if_pos hsame] at hboth
        omega
      · omega
    · exact ((h.free hfree).2.2 r).1
  · rw [Function.update_of_ne hu] at hscan
    by_cases hr : r = t
    · subst hr
      rw [Function.update_self]
      by_contra hread
      have hupos := writeTokens_pos_of_scanned (Nat.zero_lt_of_lt hscan)
      have hboth := add_le_tally (fun _ th => Thread.writeTokens th) s.thread hne
      have hbit := Bool.toNat_le (testFlag s.word.status Flag.writelocked.mask)
      rw [h.write] at hboth
      rcases hd.gain (by simpa using hread) with hheld | hunlocked | hown
      · rw [h.scan u r hne hscan] at hheld
        cases hheld
      · rw [hunlocked, Bool.toNat_false] at hboth
        omega
      · omega
    · rw [Function.update_of_ne hr]
      exact h.scan u r hne hscan

end Step

theorem LockInv.no_other_of_storesFree {s : LockState n} (h : LockInv s) {t r : Fin n}
    {outcome : Bool} (hguard : NoStaleReader s (t, .next outcome))
    (hstores : (s.thread t).pc.storesFree = true) (hne : r ≠ t) :
    (s.thread r).holdsRead = false ∧ (s.thread r).pc.inWindow = false := by
  cases hpc : (s.thread t).pc <;> rw [hpc] at hstores <;> try cases hstores
  case freeStore who =>
    have hwindow : ∀ r, r ≠ t → (s.thread r).pc.inWindow = false := by
      simpa only [NoStaleReader, hpc] using hguard
    have hwrite : (s.thread t).holdsWrite = true := by simp [Thread.holdsWrite, hpc, Pc.holdsWrite]
    exact ⟨h.exclusion.write_excludes_read t r (Ne.symm hne) hwrite, hwindow r hne⟩
  case abortStore =>
    have hothers : ∀ r, r ≠ t → (s.thread r).pc.inWindow = false ∧ (s.thread r).holdsRead = false ∧
        (s.thread r).holdsClaim = false := by
      simpa only [NoStaleReader, hpc] using hguard
    exact ⟨(hothers r hne).2.1, (hothers r hne).1⟩

theorem lockInv_step {s s' : LockState n} {a : Fin n × LockAct} (h : LockInv s)
    (hguard : NoStaleReader s a) (hstep : lockNext s a = some s') : LockInv s' := by
  obtain ⟨t, act⟩ := a
  obtain ⟨⟨w', th'⟩, hnext, rfl⟩ := Option.map_eq_some_iff.mp hstep
  have hview' : ∀ outcome, act = .next outcome → NextView t.val s.word (s.thread t) := by
    rintro outcome rfl
    exact h.nextView hguard
  have hd : Delta t.val s.word (s.thread t) w' th' := threadNext_delta (h.localView t) hview' hnext
  change LockInv ⟨w', Function.update s.thread t th'⟩
  refine ⟨?_, fun i hi => (h.ref_step hd hi).1, fun i hi => (h.ref_step hd hi).2, ?_, ?_,
    h.scan_step hd, ?_⟩
  · intro r
    by_cases hr : r = t
    · subst hr
      simpa using hd.ok
    · simpa [hr] using h.ok r
  · have hsum := tally_update (fun _ th => Thread.claimTokens th) s.thread t th'
    have hclaim := hd.claim
    rw [h.claim] at hsum
    change ∑ r, (Function.update s.thread t th' r).claimTokens =
      (testFlag w'.status Flag.claimed.mask).toNat
    omega
  · have hsum := tally_update (fun _ th => Thread.writeTokens th) s.thread t th'
    have hwrite := hd.write
    rw [h.write] at hsum
    change ∑ r, (Function.update s.thread t th' r).writeTokens =
      (testFlag w'.status Flag.writelocked.mask).toNat
    omega
  · intro hfree
    obtain ⟨⟨hclaim, hwrite, hread, hwindow⟩, horigin⟩ := hd.free hfree
    refine ⟨hclaim, hwrite, fun r => ?_⟩
    by_cases hr : r = t
    · subst hr
      simpa using ⟨hread, hwindow⟩
    · simp only [Function.update_of_ne hr]
      rcases horigin with hbefore | hstores
      · exact (h.free hbefore).2.2 r
      · rcases storesFree_next hnext hstores hfree with hbefore | ⟨outcome, rfl⟩
        · exact (h.free hbefore).2.2 r
        · exact h.no_other_of_storesFree hguard hstores hr

/-! ## Runs -/

/-- **Lock exclusion along a run.**  Whatever operations any number of threads interleave on an
entry, exclusion holds in every state they visit, as long as nobody stores `TP_FREE_STATUS` under
a reader between its two tests. -/
theorem lock_exclusion_of_no_stale_reader {s s' : LockState n}
    {tr : List (LockState n × Fin n × LockAct)} (hinit : (lockSystem n).init s)
    (hrun : (lockSystem n).Run s tr s') (hguard : Guarded NoStaleReader tr) :
    Visits LockExclusion tr s' := by
  have hstart : LockInv s := by
    have hs : s = freeEntryState n := hinit
    rw [hs]
    exact lockInv_free n
  have hvisits : Visits LockInv tr s' :=
    hrun.invariant hstart (fun _ _ _ h hnow hstep => lockInv_step h hnow hstep) hguard
  exact hvisits.mono fun _ h => h.exclusion

instance (s : LockState n) (a : Fin n × LockAct) : Decidable (NoStaleReader s a) := by
  unfold NoStaleReader
  split <;> infer_instance

private def goOn (t : Fin n) (k : Nat) : List (Fin n × LockAct) :=
  List.replicate k (t, .next true)

/-- One thread loads a page, a second one reads it, then the first takes the write lock. -/
theorem lock_exclusion_of_handover :
    ∃ tr last, (lockSystem 2).Run (freeEntryState 2) tr last ∧ Guarded NoStaleReader tr ∧
      (last.thread 0).holdsWrite = true ∧ Visits LockExclusion tr last := by
  let acts : List (Fin 2 × LockAct) := [(0, .load)] ++ goOn 0 5 ++ [(1, .getRead)] ++ goOn 1 3 ++
    [(1, .unget), (0, .tryClaim), (0, .lock)] ++ goOn 0 5
  have hchecked : (exec lockNext (freeEntryState 2) acts).map (fun run =>
      ((run.2.thread 0).holdsWrite, run.1.all fun p => decide (NoStaleReader p.1 p.2))) =
      some (true, true) := by decide
  obtain ⟨run, hexec, hrun⟩ := Option.map_eq_some_iff.mp hchecked
  obtain ⟨hwrite, hall⟩ := Prod.mk.inj hrun
  have htrace : (lockSystem 2).Run (freeEntryState 2) run.1 run.2 := run_of_exec hexec
  have hguarded : Guarded NoStaleReader run.1 := by
    intro p hp
    exact of_decide_eq_true (List.all_eq_true.mp hall p hp)
  exact ⟨run.1, run.2, htrace, hguarded, hwrite,
    lock_exclusion_of_no_stale_reader rfl htrace hguarded⟩

/-- **The stale reader.**  Thread 2 has loaded the page and let it go.  Thread 1 finds no write
lock; thread 0 starts an eviction and scans the counters; thread 1 takes its reference and finds
`TP_FREE` clear; thread 0 stores `TP_FREE_STATUS`, which clears the write lock flag as well; so
thread 1 finds no write lock and returns a read lock on a free entry.  Thread 2 then takes the
entry for a new page and holds its write lock, with the read lock still out. -/
theorem stale_reader_breaks_exclusion :
    ∃ tr free tr' last, (lockSystem 3).Run (freeEntryState 3) tr free ∧
      (lockSystem 3).Run free tr' last ∧
      (free.thread 1).holdsRead = true ∧ testFlag free.word.status Flag.free.mask = true ∧
      ¬ LockExclusion free ∧
      (last.thread 1).holdsRead = true ∧ (last.thread 2).holdsWrite = true ∧
      ¬ LockExclusion last := by
  let acts : List (Fin 3 × LockAct) := [(2, .load)] ++ goOn 2 5 ++ [(2, .unget), (1, .getRead),
    (0, .tryEvict false)] ++ goOn 0 17 ++ goOn 1 2 ++ goOn 0 1 ++ goOn 1 1
  let acts' : List (Fin 3 × LockAct) := goOn 0 1 ++ [(2, .alloc)] ++ goOn 2 3
  have hchecked : (exec lockNext (freeEntryState 3) acts).bind (fun run =>
      (exec lockNext run.2 acts').map fun run' =>
        (((run.2.thread 1).holdsRead, testFlag run.2.word.status Flag.free.mask),
          (run'.2.thread 1).holdsRead, (run'.2.thread 2).holdsWrite)) =
      some ((true, true), true, true) := by decide
  obtain ⟨run, hexec, hrest⟩ := Option.bind_eq_some_iff.mp hchecked
  obtain ⟨run', hexec', heq⟩ := Option.map_eq_some_iff.mp hrest
  simp only [Prod.mk.injEq] at heq
  obtain ⟨⟨hread, hfree⟩, hread', hwrite⟩ := heq
  refine ⟨run.1, run.2, run'.1, run'.2, run_of_exec hexec, run_of_exec hexec', hread, hfree,
    fun hexcl => ?_, hread', hwrite, fun hexcl => ?_⟩
  · rw [hexcl.read_not_free 1 hread] at hfree
    cases hfree
  · rw [hexcl.write_excludes_read 2 1 (by decide) hwrite] at hread'
    cases hread'

end Cache
end TreePass
