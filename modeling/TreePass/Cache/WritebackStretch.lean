import TreePass.Cache.Writeback

/-!
# The stretch that is written around a frame

The walks from a frame in both directions put exactly its stretch of pages in writeback, unless they
meet a page that somebody waits for.

* `okToWriteback_iff` reads the check of a status word flag by flag.
* `Tried` is one try of a walk, in either direction.
* `walkBackwards_spec` and `walkForwards_spec` are the walks, by induction on the pages left in the
  extent.
* `entryWriteback_spec` is about one frame of the batch.
-/

namespace TreePass
namespace Cache

open Lib

/-! ## Status words -/

private theorem cleanableBaseMask_getLsbD (i : Nat) (hi : i < 32) :
    tpCleanableBaseMask.getLsbD i = decide (i < 6) := by
  revert hi
  revert i
  decide

theorem exists_flag_bit {i : Nat} (hi : i < 6) : ∃ f : Flag, f.bit = i := by
  have hcases : i = 0 ∨ i = 1 ∨ i = 2 ∨ i = 3 ∨ i = 4 ∨ i = 5 := by omega
  rcases hcases with rfl | rfl | rfl | rfl | rfl | rfl
  · exact ⟨.free, rfl⟩
  · exact ⟨.clean, rfl⟩
  · exact ⟨.writeback, rfl⟩
  · exact ⟨.loading, rfl⟩
  · exact ⟨.writelocked, rfl⟩
  · exact ⟨.claimed, rfl⟩

theorem okToWriteback_iff (e : Entry) (numPasses : Nat) :
    e.okToWriteback numPasses = true ↔
      (∀ f, e.has f = false) ∧ (clockOf e.status).toNat ≤ numPasses := by
  have hflags : e.status &&& tpCleanableBaseMask = 0#32 ↔ ∀ f, e.has f = false := by
    constructor
    · intro h f
      have hbit := congrArg (fun w : EntryStatus => w.getLsbD f.bit) h
      have hlt := f.bit_lt
      rw [Entry.has, testFlag_eq_getLsbD]
      simpa [BitVec.getLsbD_and, cleanableBaseMask_getLsbD f.bit (by omega), hlt] using hbit
    · intro h
      apply BitVec.eq_of_getLsbD_eq
      intro i hi
      rw [BitVec.getLsbD_and, cleanableBaseMask_getLsbD i hi]
      by_cases hlow : i < 6
      · obtain ⟨f, rfl⟩ := exists_flag_bit hlow
        have hf := h f
        rw [Entry.has, testFlag_eq_getLsbD] at hf
        simp [hf]
      · simp [hlow]
  unfold Entry.okToWriteback
  rw [Bool.and_eq_true, beq_iff_eq, decide_eq_true_iff, hflags]

theorem okToWriteback_flagged (e : Entry) (numPasses : Nat) :
    (e.setStatus (setFlag e.status tpWriteback)).okToWriteback numPasses = false := by
  rw [← Bool.not_eq_true, okToWriteback_iff]
  rintro ⟨hflags, _⟩
  have hset : testFlag (setFlag e.status tpWriteback) Flag.writeback.mask = true :=
    (testFlag_setFlag e.status .writeback .writeback).trans (by simp)
  have hclear := hflags .writeback
  rw [has_setStatus, hset] at hclear
  cases hclear

/-! ## Frames that have been put in writeback -/

section Marked

variable {cc : TreePassCache} {numPasses : Nat}

theorem marked_entry_of_mem {entries : List Nat} {e : Nat} (he : e ∈ entries) :
    (marked cc entries).entry e =
      (cc.entry e).setStatus (setFlag (cc.entry e).status tpWriteback) :=
  if_pos he

theorem marked_entry_of_not_mem {entries : List Nat} {e : Nat} (he : e ∉ entries) :
    (marked cc entries).entry e = cc.entry e :=
  if_neg he

@[simp] theorem marked_logPageSize (entries : List Nat) :
    (marked cc entries).logPageSize = cc.logPageSize := rfl

theorem marked_congr {entries entries' : List Nat} (h : ∀ e, e ∈ entries ↔ e ∈ entries') :
    marked cc entries = marked cc entries' := by
  unfold marked
  congr 1
  funext e
  by_cases he : e ∈ entries
  · rw [if_pos he, if_pos ((h e).mp he)]
  · rw [if_neg he, if_neg fun he' => he ((h e).mpr he')]

theorem setFlag_setFlag (status flag : EntryStatus) :
    setFlag (setFlag status flag) flag = setFlag status flag := by
  unfold setFlag
  rw [BitVec.or_assoc, BitVec.or_self]

theorem marked_marked (entries entries' : List Nat) :
    marked (marked cc entries) entries' = marked cc (entries ++ entries') := by
  unfold marked
  congr 1
  funext e
  dsimp only
  by_cases he : e ∈ entries
  · rw [if_pos he, if_pos (List.mem_append_left _ he)]
    split
    · show Entry.setStatus _ (setFlag (setFlag _ _) _) = _
      rw [setFlag_setFlag]
      rfl
    · rfl
  · rw [if_neg he]
    by_cases he' : e ∈ entries'
    · rw [if_pos he', if_pos (List.mem_append_right _ he')]
    · rw [if_neg he', if_neg]
      intro hmem
      exact (List.mem_append.mp hmem).elim he he'

theorem marked_has (entries : List Nat) (e : Nat) {f : Flag} (hf : f ≠ .writeback) :
    ((marked cc entries).entry e).has f = (cc.entry e).has f := by
  by_cases he : e ∈ entries
  · rw [marked_entry_of_mem he, has_setStatus]
    exact (testFlag_setFlag (cc.entry e).status .writeback f).trans (by simp [Entry.has, Ne.symm hf])
  · rw [marked_entry_of_not_mem he]

theorem marked_diskAddr (entries : List Nat) (e : Nat) :
    ((marked cc entries).entry e).diskAddr = (cc.entry e).diskAddr := by
  by_cases he : e ∈ entries
  · rw [marked_entry_of_mem he]
    rfl
  · rw [marked_entry_of_not_mem he]

theorem marked_type (entries : List Nat) (e : Nat) :
    ((marked cc entries).entry e).type = (cc.entry e).type := by
  by_cases he : e ∈ entries
  · rw [marked_entry_of_mem he]
    rfl
  · rw [marked_entry_of_not_mem he]

theorem FramesMapped.marked (h : FramesMapped cc) (entries : List Nat) :
    FramesMapped (marked cc entries) := by
  constructor
  · intro e hfree
    rw [marked_has entries e (by decide)] at hfree
    rw [marked_diskAddr]
    exact h.mapped e hfree
  · intro p e hp
    rw [marked_has entries e (by decide), marked_diskAddr]
    exact h.lookup p e hp

theorem okToWriteback_marked (entries : List Nat) (e : Nat) :
    ((marked cc entries).entry e).okToWriteback numPasses = true ↔
      e ∉ entries ∧ (cc.entry e).okToWriteback numPasses = true := by
  by_cases he : e ∈ entries
  · rw [marked_entry_of_mem he, okToWriteback_flagged]
    simp [he]
  · rw [marked_entry_of_not_mem he]
    simp [he]

theorem FramesMapped.page_unique (h : FramesMapped cc) {p q e : Nat} (hp : cc.lookup p = some e)
    (hq : cc.lookup q = some e) : p = q := by
  have hpaddr := (h.lookup p e hp).2
  have hqaddr := (h.lookup q e hq).2
  have heq := Option.some.inj (hpaddr.symm.trans hqaddr)
  have hshift := congrArg (· >>> cc.logPageSize) heq
  simpa only [Nat.shiftLeft_shiftRight] using hshift

theorem canWrite_marked (entries : List Nat) (p : Nat) :
    CanWrite (marked cc entries) numPasses p ↔
      CanWrite cc numPasses p ∧ ¬ ∃ e ∈ entries, cc.lookup p = some e := by
  constructor
  · rintro ⟨e, hp, hok⟩
    obtain ⟨he, hok'⟩ := (okToWriteback_marked entries e).mp hok
    refine ⟨⟨e, hp, hok'⟩, ?_⟩
    rintro ⟨e', he', hp'⟩
    obtain rfl := Option.some.inj (hp.symm.trans hp')
    exact he he'
  · rintro ⟨⟨e, hp, hok⟩, hgone⟩
    exact ⟨e, hp, (okToWriteback_marked entries e).mpr ⟨fun he => hgone ⟨e, he, hp⟩, hok⟩⟩

theorem trySetWriteback_of_ok {e : Nat} (hok : (cc.entry e).okToWriteback numPasses = true) :
    trySetWriteback cc e numPasses = (true, marked cc [e]) := by
  unfold trySetWriteback
  rw [if_pos hok]
  congr 1
  unfold TreePassCache.setEntry marked
  congr 1
  funext e'
  by_cases he : e' = e
  · subst he
    rw [Function.update_self, if_pos List.mem_cons_self]
  · rw [Function.update_of_ne he, if_neg]
    simpa using he

theorem trySetWriteback_of_not_ok {e : Nat} (hok : ¬ (cc.entry e).okToWriteback numPasses = true) :
    trySetWriteback cc e numPasses = (false, cc) :=
  if_neg hok

end Marked

/-! ## Addresses and pages -/

section Addresses

variable (cfg : CacheConfig) (cc : TreePassCache)

theorem lookupAddr_page (p : Nat) : cc.lookupAddr (p <<< cc.logPageSize) = cc.lookup p := by
  unfold TreePassCache.lookupAddr
  rw [Nat.shiftLeft_shiftRight]

theorem pageSize_pos : 0 < cc.pageSize := by
  unfold TreePassCache.pageSize
  rw [Nat.one_shiftLeft]
  exact Nat.two_pow_pos _

theorem page_addr (p : Nat) : p <<< cc.logPageSize = p * cc.pageSize := by
  unfold TreePassCache.pageSize
  rw [Nat.shiftLeft_eq, Nat.one_shiftLeft]

theorem succ_page_addr (p : Nat) :
    (p + 1) <<< cc.logPageSize = p <<< cc.logPageSize + cc.pageSize := by
  rw [page_addr, page_addr, Nat.add_mul, Nat.one_mul]

theorem pagesShareExtent_page (p q : Nat) :
    pagesShareExtent cfg cc (p <<< cc.logPageSize) (q <<< cc.logPageSize) = true ↔
      p / cfg.pagesPerExtent = q / cfg.pagesPerExtent := by
  unfold pagesShareExtent
  rw [beq_iff_eq, page_addr, page_addr, Nat.mul_comm cfg.pagesPerExtent,
    ← Nat.div_div_eq_div_mul, ← Nat.div_div_eq_div_mul, Nat.mul_div_cancel _ (pageSize_pos cc),
    Nat.mul_div_cancel _ (pageSize_pos cc)]

end Addresses

/-! ## The walks -/

section Walks

variable {cfg : CacheConfig} {cc : TreePassCache} {waiters : Nat → Bool} {numPasses : Nat}

/-- Page `p` is tried after the frames `gone` have been put in writeback: the walk stops before it,
somebody waits for it, or its frame is put in writeback. -/
inductive Tried (cc : TreePassCache) (waiters : Nat → Bool) (numPasses : Nat) (gone : List Nat)
    (p : Nat) : Prop
  | stops (hno : ¬ CanWrite cc numPasses p)
      (hwaits : ¬ ∃ w, cc.lookup p = some w ∧ waiters w = true)
      (htry : cc.lookup p = none ∨ ∃ e, cc.lookup p = some e ∧
        trySetWritebackAsserted waiters (marked cc gone) e numPasses = some (false, marked cc gone))
  | waits (hno : ¬ CanWrite cc numPasses p) (e : Nat) (hp : cc.lookup p = some e)
      (hw : waiters e = true)
      (htry : trySetWritebackAsserted waiters (marked cc gone) e numPasses = none)
  | taken (hok : CanWrite cc numPasses p) (e : Nat) (hp : cc.lookup p = some e)
      (htry : trySetWritebackAsserted waiters (marked cc gone) e numPasses =
        some (true, marked cc (gone ++ [e])))

theorem not_canWrite_of_refused {p e : Nat} (hp : cc.lookup p = some e)
    (hno : ¬ (cc.entry e).okToWriteback numPasses = true) : ¬ CanWrite cc numPasses p := by
  rintro ⟨e', hp', hok⟩
  obtain rfl := Option.some.inj (hp.symm.trans hp')
  exact hno hok

theorem not_canWrite_of_waits (hwait : ∀ e, waiters e = true → (cc.entry e).has .loading = true)
    {p e : Nat} (hp : cc.lookup p = some e) (hw : waiters e = true) : ¬ CanWrite cc numPasses p := by
  refine not_canWrite_of_refused hp ?_
  rw [okToWriteback_iff]
  rintro ⟨hflags, _⟩
  have hloading := hwait e hw
  rw [hflags .loading] at hloading
  cases hloading

variable (numPasses) in
theorem tried (hwait : ∀ e, waiters e = true → (cc.entry e).has .loading = true) {gone : List Nat}
    {p : Nat} (hgone : ∀ e ∈ gone, cc.lookup p ≠ some e) : Tried cc waiters numPasses gone p := by
  cases hp : cc.lookup p with
  | none =>
      refine .stops ?_ (fun ⟨_, hw, _⟩ => by rw [hp] at hw; cases hw) (Or.inl hp)
      rintro ⟨e', hp', _⟩
      rw [hp] at hp'
      cases hp'
  | some e =>
      have hnot : e ∉ gone := fun he => hgone e he hp
      cases hw : waiters e with
      | true => exact .waits (not_canWrite_of_waits hwait hp hw) e hp hw (if_pos hw)
      | false =>
          have htry : trySetWritebackAsserted waiters (marked cc gone) e numPasses =
              some (trySetWriteback (marked cc gone) e numPasses) := if_neg (by simp [hw])
          by_cases hok : (cc.entry e).okToWriteback numPasses = true
          · refine .taken ⟨e, hp, hok⟩ e hp ?_
            rw [htry, trySetWriteback_of_ok ((okToWriteback_marked _ _).mpr ⟨hnot, hok⟩), marked_marked]
          · refine .stops (not_canWrite_of_refused hp hok) ?_ (Or.inr ⟨e, hp, ?_⟩)
            · rintro ⟨w, hw', hww⟩
              obtain rfl := Option.some.inj (hp.symm.trans hw')
              rw [hw] at hww
              cases hww
            · rw [htry, trySetWriteback_of_not_ok fun h => hok ((okToWriteback_marked _ _).mp h).2]

theorem mem_cons_lookup {entries : List Nat} {P P' : Nat → Prop} {p e : Nat}
    (hp : cc.lookup p = some e) (hpages : ∀ r, P' r ↔ r = p ∨ P r)
    (hmem : ∀ e, e ∈ entries ↔ ∃ r, P r ∧ cc.lookup r = some e) (e' : Nat) :
    e' ∈ e :: entries ↔ ∃ r, P' r ∧ cc.lookup r = some e' := by
  simp only [hpages, List.mem_cons, hmem, or_and_right, exists_or, exists_eq_left, hp,
    Option.some.injEq, eq_comm (a := e')]

/-- A page next to the stretch, in the extent of page `p`, that somebody waits for. -/
def WaitsAt (cfg : CacheConfig) (cc : TreePassCache) (waiters : Nat → Bool) (p r : Nat) : Prop :=
  r / cfg.pagesPerExtent = p / cfg.pagesPerExtent ∧ ∃ w, cc.lookup r = some w ∧ waiters w = true

/-- What a walk backwards from page `q` does in the extent of page `p₀`. -/
structure WalkedBackwards (cfg : CacheConfig) (cc : TreePassCache) (waiters : Nat → Bool)
    (numPasses p₀ q : Nat) (gone : List Nat) (result : Option (TreePassCache × Nat))
    (lo : Nat) : Prop where
  lo_le : lo ≤ q
  inside : ∀ r, lo ≤ r → r < q →
    r / cfg.pagesPerExtent = p₀ / cfg.pagesPerExtent ∧ CanWrite cc numPasses r
  below : ∀ r, r + 1 = lo → r / cfg.pagesPerExtent = p₀ / cfg.pagesPerExtent →
    ¬ CanWrite cc numPasses r
  blocked : (∃ r, r + 1 = lo ∧ WaitsAt cfg cc waiters p₀ r) → result = none
  done : (¬ ∃ r, r + 1 = lo ∧ WaitsAt cfg cc waiters p₀ r) → ∃ entries,
    result = some (marked cc (gone ++ entries), lo <<< cc.logPageSize) ∧
      ∀ e, e ∈ entries ↔ ∃ r, lo ≤ r ∧ r < q ∧ cc.lookup r = some e

variable (numPasses) in
theorem walkBackwards_spec (hmapped : FramesMapped cc)
    (hwait : ∀ e, waiters e = true → (cc.entry e).has .loading = true) {p₀ : Nat} :
    ∀ (fuel q : Nat) (gone : List Nat), q % cfg.pagesPerExtent < fuel →
      q / cfg.pagesPerExtent = p₀ / cfg.pagesPerExtent →
      (∀ e ∈ gone, ∀ r, cc.lookup r = some e → q ≤ r) →
      ∃ lo, WalkedBackwards cfg cc waiters numPasses p₀ q gone
        (walkBackwards cfg waiters (p₀ <<< cc.logPageSize) numPasses fuel (marked cc gone)
          (q <<< cc.logPageSize)) lo := by
  intro fuel
  induction fuel with
  | zero => intro q gone hfuel; omega
  | succ fuel ih =>
      intro q gone hfuel hblock hgone
      unfold walkBackwards
      have hsize : (marked cc gone).pageSize = cc.pageSize := rfl
      -- The walk stops at page `q`, and nobody waits for the page before it.
      have hstop : ∀ result, result = some (marked cc gone, q <<< cc.logPageSize) →
          (∀ r, r + 1 = q → r / cfg.pagesPerExtent = p₀ / cfg.pagesPerExtent →
            ¬ CanWrite cc numPasses r ∧ ¬ WaitsAt cfg cc waiters p₀ r) →
          WalkedBackwards cfg cc waiters numPasses p₀ q gone result q := by
        intro result hresult hend
        refine ⟨Nat.le_refl q, by intros; omega, fun r hr hb => (hend r hr hb).1, ?_, ?_⟩
        · rintro ⟨r, hr, hw⟩
          exact absurd hw (hend r hr hw.1).2
        · intro _
          refine ⟨[], by rw [List.append_nil]; exact hresult, ?_⟩
          intro e
          constructor
          · intro he
            cases he
          · rintro ⟨r, h1, h2, _⟩
            omega
      by_cases hedge : ∃ r, r + 1 = q ∧ r / cfg.pagesPerExtent = p₀ / cfg.pagesPerExtent
      · obtain ⟨r, rfl, hr⟩ := hedge
        have hprev : (r + 1) <<< cc.logPageSize - cc.pageSize = r <<< cc.logPageSize := by
          rw [succ_page_addr, Nat.add_sub_cancel]
        have hle : ¬ (r + 1) <<< cc.logPageSize < cc.pageSize := by
          rw [succ_page_addr]
          omega
        have hshare : pagesShareExtent cfg (marked cc gone) (r <<< cc.logPageSize)
            (p₀ <<< cc.logPageSize) = true :=
          (pagesShareExtent_page cfg (marked cc gone) r p₀).mpr hr
        have hlookup : (marked cc gone).lookupAddr (r <<< cc.logPageSize) = cc.lookup r :=
          lookupAddr_page (marked cc gone) r
        rw [hsize, hprev, hshare, hlookup, if_neg (by simpa using hle)]
        have hsame : ∀ r', r' + 1 = r + 1 → r' = r := by omega
        have hnew : ∀ e ∈ gone, cc.lookup r ≠ some e := fun e he hp => by
          have := hgone e he r hp
          omega
        cases tried numPasses hwait hnew with
        | stops hno hwaits htry =>
            refine ⟨r + 1, hstop _ ?_ ?_⟩
            · rcases htry with hp | ⟨e, hp, htry⟩
              · rw [hp]
              · simp only [hp, htry]
            · rintro r' hr' _
              obtain rfl := hsame r' hr'
              exact ⟨hno, fun hw => hwaits hw.2⟩
        | waits hno e hp hw htry =>
            refine ⟨r + 1, Nat.le_refl _, by intros; omega, ?_, fun _ => ?_, fun hnone => ?_⟩
            · rintro r' hr' _
              obtain rfl := hsame r' hr'
              exact hno
            · simp only [hp, htry]
            · exact absurd ⟨r, rfl, hr, e, hp, hw⟩ hnone
        | taken hok e hp htry =>
            simp only [hp, htry]
            have hmod : (r + 1) % cfg.pagesPerExtent = r % cfg.pagesPerExtent + 1 :=
              mod_succ_of_same_block (hr.trans hblock.symm)
            obtain ⟨lo, hwalk⟩ := ih r (gone ++ [e]) (by omega) hr (by
              intro e' he' r' hr'
              rcases List.mem_append.mp he' with hmem | hmem
              · exact Nat.le_of_succ_le (hgone e' hmem r' hr')
              · obtain rfl := List.mem_singleton.mp hmem
                exact Nat.le_of_eq (hmapped.page_unique hp hr'))
            have hlo := hwalk.lo_le
            refine ⟨lo, by omega, ?_, hwalk.below, hwalk.blocked, ?_⟩
            · intro r' hlo' hlt
              by_cases hr' : r' = r
              · subst hr'
                exact ⟨hr, hok⟩
              · exact hwalk.inside r' hlo' (by omega)
            · intro hnone
              obtain ⟨entries, hresult, hmem⟩ := hwalk.done hnone
              refine ⟨e :: entries, ?_, ?_⟩
              · rw [hresult, List.append_assoc]
                rfl
              · simp only [← and_assoc] at hmem ⊢
                exact mem_cons_lookup hp (fun r' => by omega) hmem
      · -- Page `q` is the first one of its extent.
        refine ⟨q, hstop _ ?_ fun r hr hb => absurd ⟨r, hr, hb⟩ hedge⟩
        rw [if_pos]
        cases q with
        | zero =>
            rw [Nat.zero_shiftLeft]
            simp [pageSize_pos]
        | succ r =>
            have hprev : (r + 1) <<< cc.logPageSize - cc.pageSize = r <<< cc.logPageSize := by
              rw [succ_page_addr, Nat.add_sub_cancel]
            have hshare : ¬ pagesShareExtent cfg (marked cc gone) (r <<< cc.logPageSize)
                (p₀ <<< cc.logPageSize) = true := by
              intro hs
              exact hedge ⟨r, rfl, (pagesShareExtent_page cfg (marked cc gone) r p₀).mp hs⟩
            rw [hsize, hprev]
            simp [hshare]

/-- What a walk forwards from page `q` does in the extent of page `p₀`. -/
structure WalkedForwards (cfg : CacheConfig) (cc : TreePassCache) (waiters : Nat → Bool)
    (numPasses p₀ q : Nat) (gone : List Nat) (result : Option (TreePassCache × Nat))
    (hi : Nat) : Prop where
  le_hi : q ≤ hi
  inside : ∀ r, q < r → r ≤ hi →
    r / cfg.pagesPerExtent = p₀ / cfg.pagesPerExtent ∧ CanWrite cc numPasses r
  above : (hi + 1) / cfg.pagesPerExtent = p₀ / cfg.pagesPerExtent → ¬ CanWrite cc numPasses (hi + 1)
  blocked : WaitsAt cfg cc waiters p₀ (hi + 1) → result = none
  done : ¬ WaitsAt cfg cc waiters p₀ (hi + 1) → ∃ entries,
    result = some (marked cc (gone ++ entries), (hi + 1) <<< cc.logPageSize) ∧
      ∀ e, e ∈ entries ↔ ∃ r, q < r ∧ r ≤ hi ∧ cc.lookup r = some e

variable (numPasses) in
theorem walkForwards_spec (hmapped : FramesMapped cc) (hpos : 0 < cfg.pagesPerExtent)
    (hwait : ∀ e, waiters e = true → (cc.entry e).has .loading = true) {p₀ : Nat} :
    ∀ (fuel q : Nat) (gone : List Nat), cfg.pagesPerExtent ≤ q % cfg.pagesPerExtent + fuel →
      q / cfg.pagesPerExtent = p₀ / cfg.pagesPerExtent →
      (∀ e ∈ gone, ∀ r, cc.lookup r = some e → r ≤ q) →
      ∃ hi, WalkedForwards cfg cc waiters numPasses p₀ q gone
        (walkForwards cfg waiters (p₀ <<< cc.logPageSize) numPasses fuel (marked cc gone)
          (q <<< cc.logPageSize)) hi := by
  intro fuel
  induction fuel with
  | zero =>
      intro q gone hfuel
      have := Nat.mod_lt q hpos
      omega
  | succ fuel ih =>
      intro q gone hfuel hblock hgone
      unfold walkForwards
      have hnext : q <<< cc.logPageSize + (marked cc gone).pageSize =
          (q + 1) <<< cc.logPageSize := (succ_page_addr cc q).symm
      -- The walk stops at page `q`, and nobody waits for the page behind it.
      have hstop : ∀ result, result = some (marked cc gone, (q + 1) <<< cc.logPageSize) →
          ((q + 1) / cfg.pagesPerExtent = p₀ / cfg.pagesPerExtent →
            ¬ CanWrite cc numPasses (q + 1) ∧ ¬ WaitsAt cfg cc waiters p₀ (q + 1)) →
          WalkedForwards cfg cc waiters numPasses p₀ q gone result q := by
        intro result hresult hend
        refine ⟨Nat.le_refl q, by intros; omega, fun hb => (hend hb).1, ?_, ?_⟩
        · intro hw
          exact absurd hw (hend hw.1).2
        · intro _
          refine ⟨[], by rw [List.append_nil]; exact hresult, ?_⟩
          intro e
          constructor
          · intro he
            cases he
          · rintro ⟨r, h1, h2, _⟩
            omega
      rw [hnext]
      by_cases hr : (q + 1) / cfg.pagesPerExtent = p₀ / cfg.pagesPerExtent
      · have hshare : pagesShareExtent cfg (marked cc gone) ((q + 1) <<< cc.logPageSize)
            (p₀ <<< cc.logPageSize) = true :=
          (pagesShareExtent_page cfg (marked cc gone) (q + 1) p₀).mpr hr
        have hlookup : (marked cc gone).lookupAddr ((q + 1) <<< cc.logPageSize) =
            cc.lookup (q + 1) := lookupAddr_page (marked cc gone) (q + 1)
        rw [hshare, hlookup, if_neg (by simp)]
        have hnew : ∀ e ∈ gone, cc.lookup (q + 1) ≠ some e := fun e he hp => by
          have := hgone e he (q + 1) hp
          omega
        cases tried numPasses hwait hnew with
        | stops hno hwaits htry =>
            refine ⟨q, hstop _ ?_ fun _ => ⟨hno, fun hw => hwaits hw.2⟩⟩
            rcases htry with hp | ⟨e, hp, htry⟩
            · rw [hp]
            · simp only [hp, htry]
        | waits hno e hp hw htry =>
            refine ⟨q, Nat.le_refl _, by intros; omega, fun _ => hno, fun _ => ?_, fun hnone => ?_⟩
            · simp only [hp, htry]
            · exact absurd ⟨hr, e, hp, hw⟩ hnone
        | taken hok e hp htry =>
            simp only [hp, htry]
            have hmod : (q + 1) % cfg.pagesPerExtent = q % cfg.pagesPerExtent + 1 :=
              mod_succ_of_same_block (hblock.trans hr.symm)
            obtain ⟨hi, hwalk⟩ := ih (q + 1) (gone ++ [e]) (by omega) hr (by
              intro e' he' r' hr'
              rcases List.mem_append.mp he' with hmem | hmem
              · exact Nat.le_succ_of_le (hgone e' hmem r' hr')
              · obtain rfl := List.mem_singleton.mp hmem
                exact Nat.le_of_eq (hmapped.page_unique hr' hp))
            have hhi := hwalk.le_hi
            refine ⟨hi, by omega, ?_, hwalk.above, hwalk.blocked, ?_⟩
            · intro r' hlt hhi'
              by_cases hr' : r' = q + 1
              · subst hr'
                exact ⟨hr, hok⟩
              · exact hwalk.inside r' (by omega) hhi'
            · intro hnone
              obtain ⟨entries, hresult, hmem⟩ := hwalk.done hnone
              refine ⟨e :: entries, ?_, ?_⟩
              · rw [hresult, List.append_assoc]
                rfl
              · simp only [← and_assoc] at hmem ⊢
                exact mem_cons_lookup hp (fun r' => by omega) hmem
      · -- Page `q` is the last one of its extent.
        refine ⟨q, hstop _ ?_ fun hb => absurd hb hr⟩
        rw [if_pos]
        have hshare : ¬ pagesShareExtent cfg (marked cc gone) ((q + 1) <<< cc.logPageSize)
            (p₀ <<< cc.logPageSize) = true := fun hs =>
          hr ((pagesShareExtent_page cfg (marked cc gone) (q + 1) p₀).mp hs)
        simp [hshare]

end Walks

/-! ## The write around a frame -/

section Around

variable {cfg : CacheConfig} {cc : TreePassCache} {waiters : Nat → Bool} {numPasses : Nat}

/-- The frames of the pages from `lo` to `hi`. -/
def pageEntries (cc : TreePassCache) (lo hi : Nat) : List Nat :=
  (List.range (hi + 1 - lo)).filterMap fun i => cc.lookup (lo + i)

theorem mem_pageEntries {lo hi e : Nat} :
    e ∈ pageEntries cc lo hi ↔ ∃ r, lo ≤ r ∧ r ≤ hi ∧ cc.lookup r = some e := by
  unfold pageEntries
  rw [List.mem_filterMap]
  constructor
  · rintro ⟨i, hi', hlookup⟩
    have hlt := List.mem_range.mp hi'
    exact ⟨lo + i, by omega, by omega, hlookup⟩
  · rintro ⟨r, hlo, hhi, hlookup⟩
    refine ⟨r - lo, List.mem_range.mpr (by omega), ?_⟩
    rw [Nat.add_sub_cancel' hlo]
    exact hlookup

/-- The write of the pages from `lo` to `hi`. -/
def pageWrite (cc : TreePassCache) (lo hi numPasses : Nat) : WriteIo where
  firstAddr := lo <<< cc.logPageSize
  entries := pageEntries cc lo hi
  numPasses := numPasses

theorem writeOf_pages (cc : TreePassCache) (lo hi numPasses : Nat) :
    writeOf cc (lo <<< cc.logPageSize) ((hi + 1) <<< cc.logPageSize) numPasses =
      pageWrite cc lo hi numPasses := by
  have hcount : ((hi + 1) <<< cc.logPageSize - lo <<< cc.logPageSize) >>> cc.logPageSize =
      hi + 1 - lo := by
    rw [Nat.shiftLeft_eq, Nat.shiftLeft_eq, ← Nat.sub_mul, ← Nat.shiftLeft_eq,
      Nat.shiftLeft_shiftRight]
  have haddr : ∀ i, lo <<< cc.logPageSize + i <<< cc.logPageSize = (lo + i) <<< cc.logPageSize := by
    intro i
    rw [page_addr, page_addr, page_addr, Nat.add_mul]
  unfold writeOf pageWrite pageEntries
  rw [hcount]
  simp only [haddr, lookupAddr_page]

/-- **One frame that starts a write** puts its stretch in writeback, or an assertion fails. -/
theorem entryWriteback_spec (hmapped : FramesMapped cc) (hpos : 0 < cfg.pagesPerExtent)
    (hwait : ∀ e, waiters e = true → (cc.entry e).has .loading = true) {seed p : Nat}
    (hp : cc.lookup p = some seed) (hstarts : Starts cc numPasses seed)
    (hok : (cc.entry seed).okToWriteback numPasses = true) :
    ∃ lo hi, Bounds (CanWrite cc numPasses) cfg.pagesPerExtent p lo hi ∧
      (((∃ r, r + 1 = lo ∧ WaitsAt cfg cc waiters p r) ∨ WaitsAt cfg cc waiters p (hi + 1)) →
        entryWriteback cfg waiters numPasses seed cc = none) ∧
      (¬ ((∃ r, r + 1 = lo ∧ WaitsAt cfg cc waiters p r) ∨ WaitsAt cfg cc waiters p (hi + 1)) →
        entryWriteback cfg waiters numPasses seed cc =
          some (marked cc (pageEntries cc lo hi), [pageWrite cc lo hi numPasses])) := by
  have hseed : waiters seed = false := by
    rw [← Bool.not_eq_true]
    intro hw
    exact not_canWrite_of_waits hwait hp hw ⟨seed, hp, hok⟩
  have haddr := (hmapped.lookup p seed hp).2
  have hmod := Nat.mod_lt p hpos
  obtain ⟨lo, hback⟩ := walkBackwards_spec numPasses hmapped hwait cfg.pagesPerExtent p [seed] hmod rfl (by
      intro e he r hr
      obtain rfl := List.mem_singleton.mp he
      exact Nat.le_of_eq (hmapped.page_unique hp hr))
  unfold entryWriteback
  dsimp only
  rw [if_neg hstarts, if_pos hok]
  unfold trySetWritebackAsserted
  rw [if_neg (by simp [hseed]), trySetWriteback_of_ok hok, haddr]
  dsimp only
  by_cases hbelow : ∃ r, r + 1 = lo ∧ WaitsAt cfg cc waiters p r
  · -- The walk backwards fails; the walk forwards only tells where the stretch ends.
    obtain ⟨hi, hforw⟩ := walkForwards_spec numPasses hmapped hpos hwait cfg.pagesPerExtent
      p [] (by omega) rfl (by intro e he; cases he)
    refine ⟨lo, hi, ?_, ?_, fun hnone => absurd (Or.inl hbelow) hnone⟩
    · refine ⟨hback.lo_le, hforw.le_hi, ?_, hback.below, hforw.above⟩
      intro r hlo hhi
      rcases Nat.lt_trichotomy r p with hlt | rfl | hgt
      · exact hback.inside r hlo hlt
      · exact ⟨rfl, seed, hp, hok⟩
      · exact hforw.inside r hgt hhi
    · intro _
      rw [hback.blocked hbelow]
  · obtain ⟨before, hresult, hbefore⟩ := hback.done hbelow
    obtain ⟨hi, hforw⟩ := walkForwards_spec numPasses hmapped hpos hwait cfg.pagesPerExtent
      p ([seed] ++ before) (by omega) rfl (by
        intro e he r hr
        rcases List.mem_append.mp he with hmem | hmem
        · obtain rfl := List.mem_singleton.mp hmem
          exact Nat.le_of_eq (hmapped.page_unique hr hp)
        · obtain ⟨r', _, hlt, hr'⟩ := (hbefore e).mp hmem
          obtain rfl := hmapped.page_unique hr hr'
          omega)
    have hlo := hback.lo_le
    have hhi := hforw.le_hi
    refine ⟨lo, hi, ?_, ?_, ?_⟩
    · refine ⟨hlo, hhi, ?_, hback.below, hforw.above⟩
      intro r hlo' hhi'
      rcases Nat.lt_trichotomy r p with hlt | rfl | hgt
      · exact hback.inside r hlo' hlt
      · exact ⟨rfl, seed, hp, hok⟩
      · exact hforw.inside r hgt hhi'
    · rintro (hw | hw)
      · exact absurd hw hbelow
      · rw [hresult]
        dsimp only
        rw [hforw.blocked hw]
    · intro hnone
      obtain ⟨after, hresult', hafter⟩ := hforw.done fun hw => hnone (Or.inr hw)
      rw [hresult]
      dsimp only
      rw [hresult']
      dsimp only
      have hentries : marked cc ([seed] ++ before ++ after) = marked cc (pageEntries cc lo hi) := by
        apply marked_congr
        intro e
        rw [List.mem_append, List.mem_append, List.mem_singleton, hbefore e, hafter e,
          mem_pageEntries]
        constructor
        · rintro ((rfl | ⟨r, h1, h2, h3⟩) | ⟨r, h1, h2, h3⟩)
          · exact ⟨p, hlo, hhi, hp⟩
          · exact ⟨r, h1, by omega, h3⟩
          · exact ⟨r, by omega, h2, h3⟩
        · rintro ⟨r, h1, h2, h3⟩
          rcases Nat.lt_trichotomy r p with hlt | rfl | hgt
          · exact Or.inl (Or.inr ⟨r, h1, hlt, h3⟩)
          · exact Or.inl (Or.inl (Option.some.inj (h3.symm.trans hp)))
          · exact Or.inr ⟨r, hgt, h2, h3⟩
      rw [hentries]
      have hwrite := writeOf_pages (marked cc (pageEntries cc lo hi)) lo hi numPasses
      rw [marked_logPageSize] at hwrite
      rw [hwrite]
      rfl

end Around

end Cache
end TreePass
