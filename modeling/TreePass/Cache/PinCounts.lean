import TreePass.Cache.Pins
import Mathlib.Logic.Function.Basic

/-!
# Pin counts are conserved

* `LoadInv`: only one thread at a time fills a frame, and no evictor or discard that has found
  `TP_LOADING` clear meets one.
* `PinInv`: while the frame has a page its pin count is the number of pins that are out; when it is
  free the pin count is 0, or a discard has still to reset it.
* `pins_conserved_of_guard`: the pin count is conserved in every state of a run whose steps all meet
  `PinGuard`.
* `late_reset_erases_pin`: a discard frees the frame, another thread takes it for a new page and
  pins that page, and the discard then resets the pin count.
-/

namespace TreePass
namespace Cache

open Lib Lib.System

variable {n : Nat}

/-! ## Positions and locks -/

theorem Pc.installing_of_loadsPage {pc : Pc} (h : pc.loadsPage = true) : pc.installing = true := by
  cases pc <;> first | rfl | cases h

theorem Pc.holdsRead_of_foundLoaded {pc : Pc} (h : pc.foundLoaded = true) : pc.holdsRead = true := by
  cases pc <;> first | exact h | rfl

theorem Pc.holdsWrite_or_loadsPage {pc : Pc} (h : pc.installing = true) :
    pc.holdsWrite = true ∨ pc.loadsPage = true := by
  cases pc <;> first | exact Or.inl rfl | exact Or.inr rfl | cases h

theorem Pc.holdsClaim_of_holdsWrite {pc : Pc} (h : pc.holdsWrite = true) : pc.holdsClaim = true := by
  cases pc <;> first | rfl | cases h

theorem Pc.holdsWrite_of_evicting {pc : Pc} (h : pc.evicting = true) : pc.holdsWrite = true := by
  cases pc <;> first | rfl | cases h

theorem Thread.holdsClaim_of_pc {th : Thread} (h : th.pc.holdsWrite = true) : th.holdsClaim = true := by
  simp [Thread.holdsClaim, Pc.holdsClaim_of_holdsWrite h]

theorem Thread.holdsRead_of_pc {th : Thread} (h : th.pc.holdsRead = true) : th.holdsRead = true := by
  simp [Thread.holdsRead, h]

theorem LockInv.not_free_of_claim {s : LockState n} (h : LockInv s) {t : Fin n}
    (hclaim : (s.thread t).holdsClaim = true) : testFlag s.word.status Flag.free.mask = false := by
  by_contra hfree
  have hpos := claimTokens_pos_iff.mpr hclaim
  have hle := (h.localView t).claim
  rw [(h.free (by simpa using hfree)).1] at hle
  exact absurd hle (Nat.not_le.mpr hpos)

theorem update_pc_cases {s : LockState n} {t r : Fin n} {th' : Thread} (P : Pc → Prop)
    (h : P (Function.update s.thread t th' r).pc) : r = t ∧ P th'.pc ∨ r ≠ t ∧ P (s.thread r).pc := by
  by_cases hne : r = t
  · subst hne
    rw [Function.update_self] at h
    exact Or.inl ⟨rfl, h⟩
  · rw [Function.update_of_ne hne] at h
    exact Or.inr ⟨hne, h⟩

/-! ## One frame, one load -/

/-- What a load that is under way excludes. -/
structure LoadInv (s : LockState n) : Prop where
  not_free : ∀ t, (s.thread t).pc.installing = true → testFlag s.word.status Flag.free.mask = false
  loads : ∀ t, (s.thread t).pc.loadsPage = true → testFlag s.word.status Flag.loading.mask = true
  one : ∀ t r, (s.thread t).pc.installing = true → (s.thread r).pc.installing = true → t = r
  found : ∀ t, (s.thread t).pc.foundLoaded = true → testFlag s.word.status Flag.loading.mask = false

section LoadStep

variable {s : LockState n} {t : Fin n} {w' : EntryWord} {th' : Thread}

theorem LoadInv.alone (hothers : ∀ r, r ≠ t → (s.thread r).pc.installing = false)
    (hfree : th'.pc.installing = true → testFlag w'.status Flag.free.mask = false)
    (hloads : th'.pc.loadsPage = true → testFlag w'.status Flag.loading.mask = true)
    (hfound : ∀ r, (Function.update s.thread t th' r).pc.foundLoaded = true →
      testFlag w'.status Flag.loading.mask = false) :
    LoadInv ⟨w', Function.update s.thread t th'⟩ := by
  have hown : ∀ r, (Function.update s.thread t th' r).pc.installing = true →
      r = t ∧ th'.pc.installing = true := by
    intro r hr
    rcases update_pc_cases (fun pc => pc.installing = true) hr with hself | ⟨hne, hr⟩
    · exact hself
    · rw [hothers r hne] at hr
      cases hr
  refine ⟨fun r hr => hfree (hown r hr).2, fun r hr => ?_,
    fun r r' hr hr' => (hown r hr).1.trans (hown r' hr').1.symm, hfound⟩
  rcases update_pc_cases (fun pc => pc.loadsPage = true) hr with ⟨-, hr⟩ | ⟨hne, hr⟩
  · exact hloads hr
  · have hinstalling := Pc.installing_of_loadsPage hr
    rw [hothers r hne] at hinstalling
    cases hinstalling

theorem LoadInv.frame (h : LoadInv s)
    (hfree : testFlag w'.status Flag.free.mask = testFlag s.word.status Flag.free.mask)
    (hloading : testFlag w'.status Flag.loading.mask = testFlag s.word.status Flag.loading.mask)
    (hinstalling : th'.pc.installing = true → (s.thread t).pc.installing = true)
    (hloads : th'.pc.loadsPage = true → (s.thread t).pc.loadsPage = true)
    (hfound : th'.pc.foundLoaded = true →
      (s.thread t).pc.foundLoaded = true ∨ testFlag s.word.status Flag.loading.mask = false) :
    LoadInv ⟨w', Function.update s.thread t th'⟩ := by
  have hback : ∀ r, (Function.update s.thread t th' r).pc.installing = true →
      (s.thread r).pc.installing = true := by
    intro r hr
    rcases update_pc_cases (fun pc => pc.installing = true) hr with ⟨rfl, hnew⟩ | ⟨-, hold⟩
    · exact hinstalling hnew
    · exact hold
  refine ⟨fun r hr => hfree.trans (h.not_free r (hback r hr)), fun r hr => hloading.trans ?_,
    fun r r' hr hr' => h.one r r' (hback r hr) (hback r' hr'), fun r hr => hloading.trans ?_⟩
  · rcases update_pc_cases (fun pc => pc.loadsPage = true) hr with ⟨rfl, hnew⟩ | ⟨-, hold⟩
    · exact h.loads r (hloads hnew)
    · exact h.loads r hold
  · rcases update_pc_cases (fun pc => pc.foundLoaded = true) hr with ⟨rfl, hnew⟩ | ⟨-, hold⟩
    · rcases hfound hnew with hold | hclear
      · exact h.found r hold
      · exact hclear
    · exact h.found r hold

theorem LoadInv.none_installing_of_freeStore (h : LoadInv s) (hlocks : LockInv s) {who : Who}
    (hpc : (s.thread t).pc = .freeStore who) (r : Fin n) : (s.thread r).pc.installing = false := by
  by_contra hinstalling
  rw [Bool.not_eq_false] at hinstalling
  have hwrite : (s.thread t).pc.holdsWrite = true := by rw [hpc]; rfl
  rcases Pc.holdsWrite_or_loadsPage hinstalling with hrwrite | hloads
  · have hsame := hlocks.exclusion.one_claim t r (Thread.holdsClaim_of_pc hwrite)
      (Thread.holdsClaim_of_pc hrwrite)
    rw [← hsame, hpc] at hinstalling
    cases hinstalling
  · have hset := h.loads r hloads
    rw [h.found t (by rw [hpc]; rfl)] at hset
    cases hset

theorem loadInv_access {act : LockAct} (h : LoadInv s) (hlocks : LockInv s)
    (haccess : PinAccess s.word (s.thread t) act w' th') :
    LoadInv ⟨w', Function.update s.thread t th'⟩ := by
  -- A thread that installs is the only one.
  have hothers : (s.thread t).pc.installing = true → ∀ r, r ≠ t → (s.thread r).pc.installing = false := by
    intro ht r hne
    by_contra hr
    exact hne (h.one r t (by simpa using hr) ht)
  cases haccess with
  | take outcome load hpc hstatus =>
      have hfree : testFlag s.word.status Flag.free.mask = true := by rw [hstatus]; decide
      refine LoadInv.alone (fun r _ => ?_) (fun _ => testFlag_allocStatus .free) (fun hl => by cases hl)
        (fun _ _ => testFlag_allocStatus .loading)
      by_contra hr
      rw [h.not_free r (by simpa using hr)] at hfree
      cases hfree
  | install outcome load hpc status th' hfree hloading hother =>
      have hinstalling : (s.thread t).pc.installing = true := by rw [hpc]; rfl
      refine LoadInv.alone (hothers hinstalling) (fun _ => hfree) hloading fun r hr => ?_
      exfalso
      rcases update_pc_cases (fun pc => pc.foundLoaded = true) hr with ⟨-, hr⟩ | ⟨hne, hr⟩
      · rw [hother.2.2] at hr
        cases hr
      · have hwrite : (s.thread t).holdsWrite = true := by simp [Thread.holdsWrite, hpc, Pc.holdsWrite]
        have hread := hlocks.exclusion.write_excludes_read t r (Ne.symm hne) hwrite
        rw [Thread.holdsRead_of_pc (Pc.holdsRead_of_foundLoaded hr)] at hread
        cases hread
  | loaded outcome hpc =>
      have hinstalling : (s.thread t).pc.installing = true := by rw [hpc]; rfl
      exact LoadInv.alone (hothers hinstalling) (fun hi => by cases hi) (fun hl => by cases hl)
        (fun _ _ => by simp)
  | abort outcome hpc =>
      have hinstalling : (s.thread t).pc.installing = true := by rw [hpc]; rfl
      exact LoadInv.alone (hothers hinstalling) (fun hi => by cases hi) (fun hl => by cases hl)
        (fun _ _ => testFlag_freeStatus .loading)
  | store outcome who hpc =>
      have hnone := h.none_installing_of_freeStore hlocks hpc
      refine LoadInv.alone (fun r _ => hnone r) (fun hi => ?_) (fun hl => ?_)
        (fun _ _ => testFlag_freeStatus .loading)
      · cases who <;> cases hi
      · cases who <;> cases hl
  | verified outcome hpc hpins =>
      exact h.frame rfl rfl (fun hi => by cases hi) (fun hl => by cases hl)
        (fun _ => Or.inl (by rw [hpc]; rfl))
  | resetTest outcome hpc =>
      refine h.frame rfl rfl (fun hi => ?_) (fun hl => ?_) (fun hf => ?_)
      · by_cases hzero : s.word.pincount = 0 <;> simp [hzero, Pc.installing] at hi
      · by_cases hzero : s.word.pincount = 0 <;> simp [hzero, Pc.loadsPage] at hl
      · by_cases hzero : s.word.pincount = 0 <;> simp [hzero, Pc.foundLoaded] at hf
  | reset outcome hpc =>
      exact h.frame rfl rfl (fun hi => by cases hi) (fun hl => by cases hl) (fun hf => by cases hf)
  | findLoaded outcome pc' hpc hloading hother =>
      refine h.frame rfl rfl (fun hi => ?_) (fun hl => ?_) (fun _ => Or.inr hloading)
      · rw [goto_pc, hother.2.2.1] at hi
        cases hi
      · rw [goto_pc, hother.2.2.2] at hl
        cases hl
  | pin hpc hwrite => exact h.frame rfl rfl id id Or.inl
  | unpin hpc => exact h.frame rfl rfl id id Or.inl
  | other _ _ _ hpins hfree hloading hpc hact hcas =>
      exact h.frame hfree hloading hpc.installing hpc.loadsPage fun hf => Or.inl (hpc.foundLoaded hf)

end LoadStep

theorem loadInv_step {s s' : LockState n} {a : Fin n × LockAct} (h : LoadInv s) (hlocks : LockInv s)
    (hstep : lockNext s a = some s') : LoadInv s' := by
  obtain ⟨⟨w', th'⟩, hnext, rfl⟩ := Option.map_eq_some_iff.mp hstep
  exact loadInv_access h hlocks (pinAccess_of_next hnext)

/-! ## The invariant of the pin count -/

/-- While the frame has a page its pin count is the number of pins that are out. -/
structure PinInv (s : PinState n) : Prop where
  locks : LockInv s.lock
  load : LoadInv s.lock
  lt : s.lock.word.pincount < pincountMod
  held : testFlag s.lock.word.status Flag.free.mask = false →
    s.lock.word.pincount = s.pins ∧ ∀ t, (s.lock.thread t).pc.resetting = false
  freed : testFlag s.lock.word.status Flag.free.mask = true →
    (∃ t, (s.lock.thread t).pc.resetting = true) ∨ s.lock.word.pincount = 0
  evicting : ∀ t, (s.lock.thread t).pc.evicting = true → s.pins = 0
  installing : ∀ t, (s.lock.thread t).pc.installing = true → s.pins = 0

theorem PinInv.conserved {s : PinState n} (h : PinInv s) : PinsConserved s where
  conserved hheld := (h.held hheld).1
  not_evicted := h.evicting

theorem pinInv_free (n : Nat) : PinInv (⟨freeEntryState n, 0⟩ : PinState n) := by
  refine ⟨lockInv_free n, ⟨?_, ?_, ?_, ?_⟩, Nat.two_pow_pos 8, ?_, fun _ => Or.inr rfl, ?_, ?_⟩
  · intro t ht
    cases ht
  · intro t ht
    cases ht
  · intro t r ht
    cases ht
  · intro t ht
    cases ht
  · intro hheld
    cases hheld.symm.trans (testFlag_freeStatus .free)
  · intro t ht
    cases ht
  · intro t ht
    cases ht

section PinStep

variable {s : PinState n} {t : Fin n} {w' : EntryWord} {th' : Thread}

theorem PinInv.frame (h : PinInv s)
    (hlocks : LockInv ⟨w', Function.update s.lock.thread t th'⟩)
    (hload : LoadInv ⟨w', Function.update s.lock.thread t th'⟩)
    (hpins : w'.pincount = s.lock.word.pincount)
    (hfree : testFlag w'.status Flag.free.mask = testFlag s.lock.word.status Flag.free.mask)
    (hresetting : th'.pc.resetting = (s.lock.thread t).pc.resetting)
    (hevicting : th'.pc.evicting = true → (s.lock.thread t).pc.evicting = true)
    (hinstalling : th'.pc.installing = true → (s.lock.thread t).pc.installing = true) :
    PinInv ⟨⟨w', Function.update s.lock.thread t th'⟩, s.pins⟩ := by
  have hsame : ∀ r, (Function.update s.lock.thread t th' r).pc.resetting =
      (s.lock.thread r).pc.resetting := by
    intro r
    by_cases hr : r = t
    · subst hr
      rw [Function.update_self, hresetting]
    · rw [Function.update_of_ne hr]
  refine ⟨hlocks, hload, hpins ▸ h.lt, fun hheld => ?_, fun hfreed => ?_, fun r hr => ?_, fun r hr => ?_⟩
  · obtain ⟨hcount, hnone⟩ := h.held (hfree ▸ hheld)
    exact ⟨hpins.trans hcount, fun r => (hsame r).trans (hnone r)⟩
  · rcases h.freed (hfree ▸ hfreed) with ⟨r, hr⟩ | hzero
    · exact Or.inl ⟨r, (hsame r).trans hr⟩
    · exact Or.inr (hpins.trans hzero)
  · rcases update_pc_cases (fun pc => pc.evicting = true) hr with ⟨rfl, hnew⟩ | ⟨-, hold⟩
    · exact h.evicting r (hevicting hnew)
    · exact h.evicting r hold
  · rcases update_pc_cases (fun pc => pc.installing = true) hr with ⟨rfl, hnew⟩ | ⟨-, hold⟩
    · exact h.installing r (hinstalling hnew)
    · exact h.installing r hold

theorem PinInv.take (h : PinInv s) {load : Bool}
    (hlocks : LockInv ⟨{ s.lock.word with status := tpAllocStatus },
      Function.update s.lock.thread t ((s.lock.thread t).goto (.allocInc load))⟩)
    (hload : LoadInv ⟨{ s.lock.word with status := tpAllocStatus },
      Function.update s.lock.thread t ((s.lock.thread t).goto (.allocInc load))⟩)
    (hstatus : s.lock.word.status = tpFreeStatus)
    (hnone : ∀ r, (s.lock.thread r).pc.resetting = false) :
    PinInv ⟨⟨{ s.lock.word with status := tpAllocStatus },
      Function.update s.lock.thread t ((s.lock.thread t).goto (.allocInc load))⟩, 0⟩ := by
  have hfree : testFlag s.lock.word.status Flag.free.mask = true := by rw [hstatus]; decide
  have hzero : s.lock.word.pincount = 0 := by
    rcases h.freed hfree with ⟨r, hr⟩ | hzero
    · rw [hnone r] at hr
      cases hr
    · exact hzero
  refine ⟨hlocks, hload, h.lt, fun _ => ⟨hzero, fun r => ?_⟩, fun _ => Or.inr hzero, fun _ _ => rfl,
    fun _ _ => rfl⟩
  by_contra hr
  rcases update_pc_cases (fun pc => ¬ pc.resetting = false) hr with ⟨-, hnew⟩ | ⟨-, hold⟩
  · exact hnew rfl
  · exact hold (hnone r)

/-- **Giving the frame back.**  An evictor has found no pin; a discard has still to reset them. -/
theorem PinInv.store (h : PinInv s) {who : Who}
    (hlocks : LockInv ⟨{ s.lock.word with status := tpFreeStatus }, Function.update s.lock.thread t
      ((s.lock.thread t).goto (if who = .discard then .resetPinTest else .refFinal))⟩)
    (hload : LoadInv ⟨{ s.lock.word with status := tpFreeStatus }, Function.update s.lock.thread t
      ((s.lock.thread t).goto (if who = .discard then .resetPinTest else .refFinal))⟩)
    (hpc : (s.lock.thread t).pc = .freeStore who) :
    PinInv ⟨⟨{ s.lock.word with status := tpFreeStatus }, Function.update s.lock.thread t
      ((s.lock.thread t).goto (if who = .discard then .resetPinTest else .refFinal))⟩, s.pins⟩ := by
  have hclaim : (s.lock.thread t).holdsClaim = true := Thread.holdsClaim_of_pc (by rw [hpc]; rfl)
  have hcount := (h.held (h.locks.not_free_of_claim hclaim)).1
  refine ⟨hlocks, hload, h.lt, fun hheld => ?_, fun _ => ?_, fun r hr => ?_, fun r hr => ?_⟩
  · cases hheld.symm.trans (testFlag_freeStatus .free)
  · by_cases hdiscard : who = .discard
    · refine Or.inl ⟨t, ?_⟩
      change (Function.update s.lock.thread t _ t).pc.resetting = true
      rw [Function.update_self, if_pos hdiscard]
      rfl
    · have hevicting : (s.lock.thread t).pc.evicting = true := by
        rw [hpc]
        simpa [Pc.evicting] using hdiscard
      exact Or.inr (hcount.trans (h.evicting t hevicting))
  · rcases update_pc_cases (fun pc => pc.evicting = true) hr with ⟨-, hnew⟩ | ⟨-, hold⟩
    · cases who <;> cases hnew
    · exact h.evicting r hold
  · rcases update_pc_cases (fun pc => pc.installing = true) hr with ⟨-, hnew⟩ | ⟨-, hold⟩
    · cases who <;> cases hnew
    · exact h.installing r hold

theorem PinInv.abort (h : PinInv s)
    (hlocks : LockInv ⟨{ s.lock.word with status := tpFreeStatus },
      Function.update s.lock.thread t ((s.lock.thread t).goto .idle)⟩)
    (hload : LoadInv ⟨{ s.lock.word with status := tpFreeStatus },
      Function.update s.lock.thread t ((s.lock.thread t).goto .idle)⟩)
    (hpc : (s.lock.thread t).pc = .abortStore) :
    PinInv ⟨⟨{ s.lock.word with status := tpFreeStatus },
      Function.update s.lock.thread t ((s.lock.thread t).goto .idle)⟩, s.pins⟩ := by
  have hinstalling : (s.lock.thread t).pc.installing = true := by rw [hpc]; rfl
  have hcount := (h.held (h.load.not_free t hinstalling)).1
  refine ⟨hlocks, hload, h.lt, fun hheld => ?_,
    fun _ => Or.inr (hcount.trans (h.installing t hinstalling)), fun _ _ => h.installing t hinstalling,
    fun _ _ => h.installing t hinstalling⟩
  cases hheld.symm.trans (testFlag_freeStatus .free)

theorem PinInv.free_of_resetting (h : PinInv s) (hresetting : (s.lock.thread t).pc.resetting = true) :
    testFlag s.lock.word.status Flag.free.mask = true := by
  by_contra hheld
  rw [(h.held (by simpa using hheld)).2 t] at hresetting
  cases hresetting

theorem PinInv.reset (h : PinInv s) {pincount : Nat} {pc' : Pc}
    (hlocks : LockInv ⟨{ s.lock.word with pincount := pincount },
      Function.update s.lock.thread t ((s.lock.thread t).goto pc')⟩)
    (hload : LoadInv ⟨{ s.lock.word with pincount := pincount },
      Function.update s.lock.thread t ((s.lock.thread t).goto pc')⟩)
    (hresetting : (s.lock.thread t).pc.resetting = true) (hlt : pincount < pincountMod)
    (hdone : pc'.resetting = true ∨ pincount = 0) (hevicting : pc'.evicting = false)
    (hinstalling : pc'.installing = false) :
    PinInv ⟨⟨{ s.lock.word with pincount := pincount },
      Function.update s.lock.thread t ((s.lock.thread t).goto pc')⟩, s.pins⟩ := by
  have hfree := h.free_of_resetting hresetting
  refine ⟨hlocks, hload, hlt, fun hheld => ?_, fun _ => ?_, fun r hr => ?_, fun r hr => ?_⟩
  · cases hheld.symm.trans hfree
  · rcases hdone with hmore | hzero
    · refine Or.inl ⟨t, ?_⟩
      change (Function.update s.lock.thread t _ t).pc.resetting = true
      rw [Function.update_self]
      exact hmore
    · exact Or.inr hzero
  · rcases update_pc_cases (fun pc => pc.evicting = true) hr with ⟨-, hnew⟩ | ⟨-, hold⟩
    · cases hevicting.symm.trans hnew
    · exact h.evicting r hold
  · rcases update_pc_cases (fun pc => pc.installing = true) hr with ⟨-, hnew⟩ | ⟨-, hold⟩
    · cases hinstalling.symm.trans hnew
    · exact h.installing r hold

theorem PinInv.pin (h : PinInv s) (hpc : (s.lock.thread t).pc = .idle)
    (hwrite : (s.lock.thread t).write = true)
    (hloading : testFlag s.lock.word.status Flag.loading.mask = false)
    (hroom : s.lock.word.pincount + 1 < pincountMod)
    (hlocks : LockInv ⟨{ s.lock.word with pincount := s.lock.word.pincount + 1 }, s.lock.thread⟩)
    (hload : LoadInv ⟨{ s.lock.word with pincount := s.lock.word.pincount + 1 }, s.lock.thread⟩) :
    PinInv ⟨⟨{ s.lock.word with pincount := s.lock.word.pincount + 1 }, s.lock.thread⟩, s.pins + 1⟩ := by
  have hclaim : (s.lock.thread t).holdsClaim = true := by
    simp [Thread.holdsClaim, (h.locks.ok t).write_claim hwrite]
  have hheld := h.locks.not_free_of_claim hclaim
  have hother : ∀ r, (s.lock.thread r).pc.holdsWrite = false := by
    intro r
    by_contra hr
    rw [Bool.not_eq_false] at hr
    have hsame := h.locks.exclusion.one_claim t r hclaim (Thread.holdsClaim_of_pc hr)
    rw [← hsame, hpc] at hr
    cases hr
  refine ⟨hlocks, hload, hroom, fun _ => ⟨congrArg (· + 1) (h.held hheld).1, (h.held hheld).2⟩,
    fun hfree => ?_, fun r hr => ?_, fun r hr => ?_⟩
  · cases hheld.symm.trans hfree
  · cases (hother r).symm.trans (Pc.holdsWrite_of_evicting hr)
  · rcases Pc.holdsWrite_or_loadsPage hr with hrwrite | hloads
    · cases (hother r).symm.trans hrwrite
    · cases hloading.symm.trans (h.load.loads r hloads)

theorem PinInv.unpin (h : PinInv s) (hreads : 0 < (s.lock.thread t).readLocks) (hout : 0 < s.pins)
    (hlocks : LockInv ⟨{ s.lock.word with pincount := s.lock.word.pincount - 1 }, s.lock.thread⟩)
    (hload : LoadInv ⟨{ s.lock.word with pincount := s.lock.word.pincount - 1 }, s.lock.thread⟩) :
    PinInv ⟨⟨{ s.lock.word with pincount := s.lock.word.pincount - 1 }, s.lock.thread⟩, s.pins - 1⟩ := by
  have hheld : testFlag s.lock.word.status Flag.free.mask = false :=
    h.locks.exclusion.read_not_free t (by simp [Thread.holdsRead, hreads])
  have hnone : s.pins ≠ 0 := by omega
  refine ⟨hlocks, hload, lt_of_le_of_lt (Nat.sub_le _ _) h.lt,
    fun _ => ⟨congrArg (· - 1) (h.held hheld).1, (h.held hheld).2⟩, fun hfree => ?_,
    fun r hr => absurd (h.evicting r hr) hnone, fun r hr => absurd (h.installing r hr) hnone⟩
  cases hheld.symm.trans hfree

theorem pinNext_pins {s s' : PinState n} {t : Fin n} {act : LockAct} {lock : LockState n}
    (hlock : lockNext s.lock (t, act) = some lock) (h : pinNext s (t, act) = some s')
    (hact : act ≠ .pin ∧ act ≠ .unpin)
    (hcas : ∀ outcome, act = .next outcome → (s.lock.thread t).pc.taking = true →
      s.lock.word.status ≠ tpFreeStatus) : s' = ⟨lock, s.pins⟩ := by
  simp only [pinNext, hlock, Option.bind_some] at h
  split at h
  · exact absurd rfl hact.1
  · exact absurd rfl hact.2
  · rename_i outcome load hpc
    rw [if_neg (hcas outcome rfl (by rw [hpc]; rfl))] at h
    exact (Option.some.inj h).symm
  · exact (Option.some.inj h).symm

end PinStep

theorem not_taking_of_pc {s : PinState n} {t : Fin n} {act : LockAct}
    (hpc : (s.lock.thread t).pc.taking = false) (outcome : Bool) (_ : act = .next outcome)
    (htaking : (s.lock.thread t).pc.taking = true) : s.lock.word.status ≠ tpFreeStatus := by
  cases hpc.symm.trans htaking

theorem pinInv_step {s s' : PinState n} {a : Fin n × LockAct} (h : PinInv s) (hguard : PinGuard s a)
    (hstep : pinNext s a = some s') : PinInv s' := by
  obtain ⟨t, act⟩ := a
  obtain ⟨lock, hlock, hpins⟩ := Option.bind_eq_some_iff.mp hstep
  have hlocks : LockInv lock := lockInv_step h.locks hguard.1 hlock
  have hload : LoadInv lock := loadInv_step h.load h.locks hlock
  have hsame := pinNext_pins hlock hstep
  obtain ⟨⟨w', th'⟩, haccess, rfl⟩ := Option.map_eq_some_iff.mp hlock
  cases pinAccess_of_next haccess with
  | take outcome load hpc hstatus =>
      simp only [hpc, hstatus, if_true, Option.some.injEq] at hpins
      subst hpins
      have hnone : ∀ r, (s.lock.thread r).pc.resetting = false := by
        have htake := hguard.2
        simp only [hpc] at htake
        exact htake hstatus
      exact h.take hlocks hload hstatus hnone
  | install outcome load hpc status th' hfree hloading hother =>
      have hinstalling : (s.lock.thread t).pc.installing = true := by rw [hpc]; rfl
      rw [hsame ⟨LockAct.noConfusion, LockAct.noConfusion⟩ (not_taking_of_pc (by rw [hpc]; rfl))]
      refine h.frame hlocks hload rfl (hfree.trans (h.load.not_free t hinstalling).symm) ?_ ?_
        fun _ => hinstalling
      · rw [hother.1, hpc]
        rfl
      · intro hev
        cases hother.2.1.symm.trans hev
  | loaded outcome hpc =>
      rw [hsame ⟨LockAct.noConfusion, LockAct.noConfusion⟩ (not_taking_of_pc (by rw [hpc]; rfl))]
      refine h.frame hlocks hload rfl (by simp) (by rw [hpc]; rfl) (fun hev => ?_) (fun hin => ?_)
      · cases hev
      · cases hin
  | abort outcome hpc =>
      rw [hsame ⟨LockAct.noConfusion, LockAct.noConfusion⟩ (not_taking_of_pc (by rw [hpc]; rfl))]
      exact h.abort hlocks hload hpc
  | verified outcome hpc hzero =>
      rw [hsame ⟨LockAct.noConfusion, LockAct.noConfusion⟩ (not_taking_of_pc (by rw [hpc]; rfl))]
      have hclaim : (s.lock.thread t).holdsClaim = true := Thread.holdsClaim_of_pc (by rw [hpc]; rfl)
      have hcount := (h.held (h.locks.not_free_of_claim hclaim)).1
      refine ⟨hlocks, hload, h.lt, ?_, ?_, fun _ _ => hcount.symm.trans hzero,
        fun _ _ => hcount.symm.trans hzero⟩
      · intro hheld
        refine ⟨hcount, fun r => ?_⟩
        by_contra hr
        rcases update_pc_cases (fun pc => ¬ pc.resetting = false) hr with ⟨-, hnew⟩ | ⟨-, hold⟩
        · exact hnew rfl
        · exact hold ((h.held hheld).2 r)
      · exact fun _ => Or.inr hzero
  | store outcome who hpc =>
      rw [hsame ⟨LockAct.noConfusion, LockAct.noConfusion⟩ (not_taking_of_pc (by rw [hpc]; rfl))]
      exact h.store hlocks hload hpc
  | resetTest outcome hpc =>
      rw [hsame ⟨LockAct.noConfusion, LockAct.noConfusion⟩ (not_taking_of_pc (by rw [hpc]; rfl))]
      have hresetting : (s.lock.thread t).pc.resetting = true := by rw [hpc]; rfl
      refine PinInv.reset h hlocks hload hresetting h.lt ?_ ?_ ?_
      · by_cases hzero : s.lock.word.pincount = 0
        · exact Or.inr hzero
        · exact Or.inl (by rw [if_pos hzero]; rfl)
      · split <;> rfl
      · split <;> rfl
  | reset outcome hpc =>
      rw [hsame ⟨LockAct.noConfusion, LockAct.noConfusion⟩ (not_taking_of_pc (by rw [hpc]; rfl))]
      exact PinInv.reset h hlocks hload (by rw [hpc]; rfl) (Nat.two_pow_pos 8) (Or.inr rfl) rfl rfl
  | findLoaded outcome pc' hpc hloading hother =>
      have hcas : (s.lock.thread t).pc.taking = false := by
        rcases hpc with hpc | hpc <;> rw [hpc] <;> rfl
      have hresetting : (s.lock.thread t).pc.resetting = false := by
        rcases hpc with hpc | hpc <;> rw [hpc] <;> rfl
      rw [hsame ⟨LockAct.noConfusion, LockAct.noConfusion⟩ (not_taking_of_pc hcas)]
      refine h.frame hlocks hload rfl rfl (hother.1.trans hresetting.symm) (fun hev => ?_) (fun hin => ?_)
      · cases hother.2.1.symm.trans hev
      · cases hother.2.2.1.symm.trans hin
  | pin hpc hwrite =>
      simp only at hpins
      split at hpins
      next => cases hpins
      next hloading =>
        obtain rfl := Option.some.inj hpins
        have hroom : s.lock.word.pincount + 1 < pincountMod := hguard.2
        simp only [Nat.mod_eq_of_lt hroom, Function.update_eq_self] at hlocks hload ⊢
        exact h.pin hpc hwrite (by simpa using hloading) hroom hlocks hload
  | unpin hpc =>
      simp only at hpins
      split at hpins
      next hout =>
        obtain rfl := Option.some.inj hpins
        have hheld : testFlag s.lock.word.status Flag.free.mask = false :=
          h.locks.exclusion.read_not_free t (by simp [Thread.holdsRead, hout.1])
        have hcount := (h.held hheld).1
        have hlt := h.lt
        have hval : (s.lock.word.pincount + (pincountMod - 1)) % pincountMod =
            s.lock.word.pincount - 1 := by
          have hsum : s.lock.word.pincount + (pincountMod - 1) =
              s.lock.word.pincount - 1 + pincountMod := by omega
          rw [hsum, Nat.add_mod_right, Nat.mod_eq_of_lt (by omega)]
        simp only [hval, Function.update_eq_self] at hlocks hload ⊢
        exact h.unpin hout.1 hout.2 hlocks hload
      next => cases hpins
  | other _ _ _ hcount hfree hloading hnewer hact hcas =>
      rw [hsame hact hcas]
      exact h.frame hlocks hload hcount hfree hnewer.resetting hnewer.evicting hnewer.installing

/-! ## Runs -/

/-- **Pin counts are conserved along a run**: whatever operations any number of threads interleave
on a frame, as long as every step meets `PinGuard`. -/
theorem pins_conserved_of_guard {s s' : PinState n} {tr : List (PinState n × Fin n × LockAct)}
    (hinit : (pinSystem n).init s) (hrun : (pinSystem n).Run s tr s') (hguard : Guarded PinGuard tr) :
    Visits PinsConserved tr s' := by
  have hstart : PinInv s := by
    have hs : s = ⟨freeEntryState n, 0⟩ := hinit
    rw [hs]
    exact pinInv_free n
  have hvisits : Visits PinInv tr s' :=
    hrun.invariant hstart (fun _ _ _ h hnow hstep => pinInv_step h hnow hstep) hguard
  exact hvisits.mono fun _ h => h.conserved

theorem pinGuard_iff (s : PinState n) (a : Fin n × LockAct) : PinGuard s a ↔
    NoStaleReader s.lock a ∧ (a.2 = .pin → s.lock.word.pincount + 1 < pincountMod) ∧
      ((a.2 = .next true ∨ a.2 = .next false) ∧ (s.lock.thread a.1).pc.taking = true →
        s.lock.word.status = tpFreeStatus → ∀ r, (s.lock.thread r).pc.resetting = false) := by
  obtain ⟨t, act⟩ := a
  refine and_congr_right fun _ => ?_
  cases act with
  | pin => simp
  | next outcome => cases (s.lock.thread t).pc <;> cases outcome <;> simp [Pc.taking]
  | _ => simp

instance (s : PinState n) (a : Fin n × LockAct) : Decidable (PinGuard s a) :=
  have : Decidable (∀ r, (s.lock.thread r).pc.resetting = false) := Nat.decidableForallFin _
  decidable_of_iff _ (pinGuard_iff s a).symm

private def allowed (t : Fin n) (k : Nat) : List (Fin n × LockAct) := List.replicate k (t, .next true)

/-- A page is pinned and discarded, and the frame is then used for another pinned page. -/
theorem pins_conserved_of_reuse :
    ∃ tr last, (pinSystem 2).Run ⟨freeEntryState 2, 0⟩ tr last ∧ Guarded PinGuard tr ∧
      last.pins = 1 ∧ last.lock.word.pincount = 1 ∧ Visits PinsConserved tr last := by
  let acts : List (Fin 2 × LockAct) := [(0, .alloc)] ++ allowed 0 3 ++
    [(0, .pin), (0, .unlock), (0, .unclaim), (0, .unget), (0, .discard)] ++ allowed 0 16 ++
    [(1, .alloc)] ++ allowed 1 3 ++ [(1, .pin), (1, .pin), (1, .unpin)]
  have hchecked : (exec pinNext (⟨freeEntryState 2, 0⟩ : PinState 2) acts).map (fun run =>
      ((run.2.pins, run.2.lock.word.pincount), run.1.all fun p => decide (PinGuard p.1 p.2))) =
      some ((1, 1), true) := by decide +kernel
  obtain ⟨run, hexec, hrun⟩ := Option.map_eq_some_iff.mp hchecked
  simp only [Prod.mk.injEq] at hrun
  obtain ⟨⟨hpins, hcount⟩, hall⟩ := hrun
  have htrace : (pinSystem 2).Run ⟨freeEntryState 2, 0⟩ run.1 run.2 := run_of_exec hexec
  have hguarded : Guarded PinGuard run.1 := by
    intro p hp
    exact of_decide_eq_true (List.all_eq_true.mp hall p hp)
  exact ⟨run.1, run.2, htrace, hguarded, hpins, hcount, pins_conserved_of_guard rfl htrace hguarded⟩

/-- **The late reset.**  Thread 0 discards its page and stores `TP_FREE_STATUS`; thread 1 takes the
frame for a new page and pins it; thread 0 then finds the pin count not 0 and resets it.  The new
page is pinned once and its pin count is 0.  When it is clean and its clock has run down, thread 0
finds no pin and is about to evict it. -/
theorem late_reset_erases_pin :
    ∃ tr reset tr' last, (pinSystem 2).Run ⟨freeEntryState 2, 0⟩ tr reset ∧
      (pinSystem 2).Run reset tr' last ∧
      reset.pins = 1 ∧ reset.lock.word.pincount = 0 ∧ ¬ PinsConserved reset ∧
      last.pins = 1 ∧ (last.lock.thread 0).pc.evicting = true ∧ ¬ PinsConserved last := by
  let acts : List (Fin 2 × LockAct) := [(0, .alloc)] ++ allowed 0 3 ++
    [(0, .unlock), (0, .unclaim), (0, .unget), (0, .discard)] ++ allowed 0 13 ++
    [(1, .alloc)] ++ allowed 1 3 ++ [(1, .pin)] ++ allowed 0 2
  let acts' : List (Fin 2 × LockAct) := allowed 0 1 ++ [(1, .unlock), (1, .unclaim), (1, .unget),
    (1, .other (.setFlag .clean)), (0, .tryEvict false)] ++ allowed 0 1 ++ [(0, .tryEvict false)] ++
    allowed 0 17
  have hchecked : (exec pinNext (⟨freeEntryState 2, 0⟩ : PinState 2) acts).bind (fun run =>
      (exec pinNext run.2 acts').map fun run' =>
        ((run.2.pins, run.2.lock.word.pincount, testFlag run.2.lock.word.status Flag.free.mask),
          run'.2.pins, (run'.2.lock.thread 0).pc.evicting)) =
      some ((1, 0, false), 1, true) := by decide +kernel
  obtain ⟨run, hexec, hrest⟩ := Option.bind_eq_some_iff.mp hchecked
  obtain ⟨run', hexec', heq⟩ := Option.map_eq_some_iff.mp hrest
  simp only [Prod.mk.injEq] at heq
  obtain ⟨⟨hpins, hcount, hheld⟩, hpins', hevicting⟩ := heq
  have htrace : (pinSystem 2).Run ⟨freeEntryState 2, 0⟩ run.1 run.2 := run_of_exec hexec
  have htrace' : (pinSystem 2).Run run.2 run'.1 run'.2 := run_of_exec hexec'
  have herased : ¬ PinsConserved run.2 := by
    intro hsafe
    have hsame := hsafe.conserved hheld
    rw [hpins, hcount] at hsame
    cases hsame
  have hpinned : ¬ PinsConserved run'.2 := by
    intro hsafe
    have hzero := hsafe.not_evicted 0 hevicting
    rw [hpins'] at hzero
    cases hzero
  exact ⟨run.1, run.2, run'.1, run'.2, htrace, htrace', hpins, hcount, herased, hpins', hevicting,
    hpinned⟩

end Cache
end TreePass
