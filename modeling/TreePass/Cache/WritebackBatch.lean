import Mathlib.Data.List.Nodup
import TreePass.Cache.MappingSteps
import TreePass.Cache.WritebackStretch

/-!
# The writeback of a whole batch

The frames of a batch are tried one after the other.  What has been put in writeback is always made up
of whole stretches, so that a frame that is tried later is either in one of them or its own stretch is
untouched.

* `Whole` is what the loop keeps.
* `entryWriteback_step` is one turn, `entriesWriteback_spec` the loop.
* `batchWriteback_refines` leads back to the operation of the cache.
-/

namespace TreePass
namespace Cache

open Lib Lib.Program

section Batch

variable {cfg : CacheConfig} {cc : TreePassCache} {waiters : Nat → Bool} {numPasses : Nat}

/-! ## Stretches of frames -/

theorem Together.canWrite {e e' : Nat} (h : Together cfg cc numPasses e e') :
    (cc.entry e').okToWriteback numPasses = true := by
  obtain ⟨p, p', _, hp', hs⟩ := h
  obtain ⟨e'', he'', hok⟩ := hs.right
  obtain rfl := Option.some.inj (hp'.symm.trans he'')
  exact hok

theorem Together.symm {e e' : Nat} (h : Together cfg cc numPasses e e') :
    Together cfg cc numPasses e' e := by
  obtain ⟨p, p', hp, hp', hs⟩ := h
  exact ⟨p', p, hp', hp, hs.symm⟩

theorem Together.trans (hmapped : FramesMapped cc) {e e' e'' : Nat}
    (h : Together cfg cc numPasses e e') (h' : Together cfg cc numPasses e' e'') :
    Together cfg cc numPasses e e'' := by
  obtain ⟨p, p', hp, hp', hs⟩ := h
  obtain ⟨q', q, hq', hq, hs'⟩ := h'
  obtain rfl := hmapped.page_unique hp' hq'
  exact ⟨p, q, hp, hq, hs.trans hs'⟩

theorem Blocks.together (hmapped : FramesMapped cc) {e e' : Nat}
    (h : Blocks cfg cc waiters numPasses e) (ht : Together cfg cc numPasses e e') :
    Blocks cfg cc waiters numPasses e' := by
  obtain ⟨p, q, r, w, hp, hs, hnext, hblock, hr, hw⟩ := h
  obtain ⟨p₁, p', hp₁, hp', hs'⟩ := ht
  obtain rfl := hmapped.page_unique hp hp₁
  exact ⟨p', q, r, w, hp', hs'.symm.trans hs, hnext, hblock.trans hs'.1, hr, hw⟩

/-- **Frames that make up whole stretches**, for none of which anybody waits next to it. -/
structure Whole (cfg : CacheConfig) (cc : TreePassCache) (waiters : Nat → Bool) (numPasses : Nat)
    (entries : List Nat) : Prop where
  nodup : entries.Nodup
  closed : ∀ e ∈ entries, ∀ e', Together cfg cc numPasses e e' → e' ∈ entries
  unblocked : ∀ e ∈ entries, ¬ Blocks cfg cc waiters numPasses e

theorem whole_nil : Whole cfg cc waiters numPasses [] :=
  ⟨List.nodup_nil, nofun, nofun⟩

/-! ## One frame -/

theorem pageEntries_getElem? {lo hi : Nat}
    (hmap : ∀ r, lo ≤ r → r ≤ hi → ∃ e, cc.lookup r = some e) (i : Nat) :
    (pageEntries cc lo hi)[i]? = if i < hi + 1 - lo then cc.lookup (lo + i) else none := by
  have hall : pageEntries cc lo hi =
      (List.range (hi + 1 - lo)).map fun i => (cc.lookup (lo + i)).getD 0 := by
    unfold pageEntries
    rw [List.filterMap_eq_map_iff_forall_eq_some]
    intro i hi'
    have hlt := List.mem_range.mp hi'
    obtain ⟨e, he⟩ := hmap (lo + i) (by omega) (by omega)
    rw [he]
    rfl
  rw [hall, List.getElem?_map]
  by_cases hlt : i < hi + 1 - lo
  · obtain ⟨e, he⟩ := hmap (lo + i) (by omega) (by omega)
    rw [if_pos hlt, List.getElem?_range hlt, Option.map_some, he, Option.getD_some]
  · rw [if_neg hlt, List.getElem?_eq_none (by rw [List.length_range]; omega)]
    rfl

theorem pageEntries_nodup (hmapped : FramesMapped cc) (lo hi : Nat) :
    (pageEntries cc lo hi).Nodup := by
  apply List.Nodup.filterMap _ List.nodup_range
  intro i i' e he he'
  have := hmapped.page_unique he he'
  omega

theorem writeOk_of_bounds (hmapped : FramesMapped cc) (hpos : 0 < cfg.pagesPerExtent)
    {P : Nat → Prop} {p lo hi : Nat} (hbounds : Bounds P cfg.pagesPerExtent p lo hi)
    (hmap : ∀ r, lo ≤ r → r ≤ hi → ∃ e, cc.lookup r = some e) :
    WriteOk cfg cc (pageWrite cc lo hi numPasses) := by
  have hlo := hbounds.lo_le
  have hhi := hbounds.le_hi
  have hfirst := (hbounds.inside lo (Nat.le_refl lo) (by omega)).1
  have hlast := (hbounds.inside hi (by omega) (Nat.le_refl hi)).1
  have hget := pageEntries_getElem? hmap
  have haddr : ∀ i, lo <<< cc.logPageSize + i * cc.pageSize = (lo + i) <<< cc.logPageSize := by
    intro i
    rw [page_addr, page_addr, Nat.add_mul]
  have hlen : (pageEntries cc lo hi).length ≤ hi + 1 - lo := by
    by_contra hlt
    have hsome := hget (hi + 1 - lo)
    rw [if_neg (Nat.lt_irrefl _), List.getElem?_eq_none_iff] at hsome
    omega
  constructor
  · obtain ⟨e, he⟩ := hmap lo (Nat.le_refl lo) (by omega)
    exact List.ne_nil_of_mem (mem_pageEntries.mpr ⟨lo, Nat.le_refl lo, by omega, he⟩)
  · -- Pages of one extent are at most as many as it has.
    have h1 := Nat.div_add_mod lo cfg.pagesPerExtent
    have h2 := Nat.div_add_mod hi cfg.pagesPerExtent
    have h3 := Nat.mod_lt hi hpos
    rw [hfirst] at h1
    rw [hlast] at h2
    show (pageEntries cc lo hi).length ≤ _
    omega
  · intro i e hi'
    change (pageEntries cc lo hi)[i]? = some e at hi'
    rw [hget i] at hi'
    by_cases hlt : i < hi + 1 - lo
    · rw [if_pos hlt] at hi'
      rw [(hmapped.lookup _ e hi').2, ← haddr]
      rfl
    · rw [if_neg hlt] at hi'
      cases hi'
  · intro i hi'
    change i < (pageEntries cc lo hi).length at hi'
    show pagesShareExtent cfg cc (lo <<< cc.logPageSize + i * cc.pageSize)
      (lo <<< cc.logPageSize) = true
    rw [haddr, pagesShareExtent_page]
    exact (hbounds.inside (lo + i) (by omega) (by omega)).1.trans hfirst.symm

/-- **One turn of the loop**: the stretch of a frame that starts a write is put in writeback, unless
that has been done before. -/
theorem entryWriteback_step (hmapped : FramesMapped cc) (hpos : 0 < cfg.pagesPerExtent)
    (hwait : ∀ e, waiters e = true → (cc.entry e).has .loading = true) {gone : List Nat}
    (hgone : Whole cfg cc waiters numPasses gone) (n : Nat) :
    (Starts cc numPasses n → Blocks cfg cc waiters numPasses n →
      entryWriteback cfg waiters numPasses n (marked cc gone) = none) ∧
    (¬ (Starts cc numPasses n ∧ Blocks cfg cc waiters numPasses n) → ∃ ios : List WriteIo,
      entryWriteback cfg waiters numPasses n (marked cc gone) =
        some (marked cc (gone ++ ios.flatMap WriteIo.entries), ios) ∧
      Whole cfg cc waiters numPasses (gone ++ ios.flatMap WriteIo.entries) ∧
      (∀ e, e ∈ gone ++ ios.flatMap WriteIo.entries ↔
        e ∈ gone ∨ Writes cfg cc numPasses [n] e) ∧
      ∀ io ∈ ios, WriteOk cfg cc io ∧ io.numPasses = numPasses) := by
  have hwait' : ∀ e, waiters e = true → ((marked cc gone).entry e).has .loading = true := by
    intro e he
    rw [marked_has gone e (by decide)]
    exact hwait e he
  by_cases hstart : Starts cc numPasses n ∧ ((marked cc gone).entry n).okToWriteback numPasses = true
  · obtain ⟨hstarts, hok⟩ := hstart
    obtain ⟨hn, hok'⟩ := (okToWriteback_marked gone n).mp hok
    obtain ⟨p, _, hp⟩ := hmapped.mapped n (((okToWriteback_iff _ _).mp hok').1 .free)
    have hstarts' : Starts (marked cc gone) numPasses n := by
      unfold Starts
      rw [marked_type]
      exact hstarts
    obtain ⟨lo, hi, hbounds, hblocked, hdone⟩ :=
      entryWriteback_spec (hmapped.marked gone) hpos hwait' hp hstarts' hok
    -- The stretch is the same one as before all writes.
    have hstretch : ∀ q, Stretch (CanWrite cc numPasses) cfg.pagesPerExtent p q ↔
        lo ≤ q ∧ q ≤ hi := by
      intro q
      rw [← hbounds.stretch_iff]
      have hsame : CanWrite (marked cc gone) numPasses =
          fun r => CanWrite cc numPasses r ∧ ¬ ∃ e ∈ gone, cc.lookup r = some e := by
        funext r
        exact propext (canWrite_marked gone r)
      rw [hsame, stretch_without_iff]
      · rintro r r' ⟨e, he, hr⟩ hs
        obtain ⟨e', hr', _⟩ := hs.right
        exact ⟨e', hgone.closed e he e' ⟨r, r', hr, hr', hs⟩, hr'⟩
      · rintro ⟨e, he, hpe⟩
        obtain rfl := Option.some.inj (hp.symm.trans hpe)
        exact hn he
    have hmem : ∀ e, e ∈ pageEntries cc lo hi ↔ Together cfg cc numPasses n e := by
      intro e
      rw [mem_pageEntries]
      constructor
      · rintro ⟨r, hlo, hhi, hr⟩
        exact ⟨p, r, hp, hr, (hstretch r).mpr ⟨hlo, hhi⟩⟩
      · rintro ⟨p', r, hp', hr, hs⟩
        obtain rfl := hmapped.page_unique hp hp'
        obtain ⟨hlo, hhi⟩ := (hstretch r).mp hs
        exact ⟨r, hlo, hhi, hr⟩
    have hblocks : Blocks cfg cc waiters numPasses n ↔
        ((∃ r, r + 1 = lo ∧ WaitsAt cfg (marked cc gone) waiters p r) ∨
          WaitsAt cfg (marked cc gone) waiters p (hi + 1)) := by
      constructor
      · rintro ⟨p', q, r, w, hp', hs, hnext, hblock, hr, hw⟩
        obtain rfl := hmapped.page_unique hp hp'
        obtain ⟨hlo, hhi⟩ := (hstretch q).mp hs
        -- The page that somebody waits for is not on the stretch.
        have hout : ¬ (lo ≤ r ∧ r ≤ hi) := fun hin =>
          not_canWrite_of_waits hwait hr hw ((hstretch r).mpr hin).right
        by_cases hbelow : r + 1 = lo
        · exact Or.inl ⟨r, hbelow, hblock, w, hr, hw⟩
        · obtain rfl : r = hi + 1 := by omega
          exact Or.inr ⟨hblock, w, hr, hw⟩
      · have hlo := hbounds.lo_le
        have hhi := hbounds.le_hi
        rintro (⟨r, rfl, hblock, w, hr, hw⟩ | ⟨hblock, w, hr, hw⟩)
        · exact ⟨p, r + 1, r, w, hp, (hstretch _).mpr ⟨Nat.le_refl _, by omega⟩, Or.inl rfl, hblock,
            hr, hw⟩
        · exact ⟨p, hi, hi + 1, w, hp, (hstretch _).mpr ⟨by omega, Nat.le_refl _⟩, Or.inr rfl,
            hblock, hr, hw⟩
    refine ⟨fun _ hb => hblocked (hblocks.mp hb), ?_⟩
    intro hnone
    have hfree : ¬ Blocks cfg cc waiters numPasses n := fun hb => hnone ⟨hstarts, hb⟩
    have hresult := hdone fun hb => hfree (hblocks.mpr hb)
    rw [marked_marked] at hresult
    have hflat : [pageWrite cc lo hi numPasses].flatMap WriteIo.entries = pageEntries cc lo hi := by
      rw [List.flatMap_cons, List.flatMap_nil, List.append_nil]
      rfl
    refine ⟨[pageWrite cc lo hi numPasses], ?_, ?_, ?_, ?_⟩
    · rw [hflat]
      exact hresult
    · rw [hflat]
      constructor
      · refine List.nodup_append.mpr ⟨hgone.nodup, pageEntries_nodup hmapped lo hi, ?_⟩
        rintro e he e' he' rfl
        -- A frame in both would take the first one along.
        exact hn (hgone.closed e he n ((hmem e).mp he').symm)
      · intro e he e' ht
        rcases List.mem_append.mp he with hold | hnew
        · exact List.mem_append_left _ (hgone.closed e hold e' ht)
        · exact List.mem_append_right _ ((hmem e').mpr (((hmem e).mp hnew).trans hmapped ht))
      · intro e he hb
        rcases List.mem_append.mp he with hold | hnew
        · exact hgone.unblocked e hold hb
        · exact hfree (hb.together hmapped ((hmem e).mp hnew).symm)
    · intro e
      rw [hflat, List.mem_append, hmem e]
      unfold Writes
      simp [hstarts]
    · intro io hio
      obtain rfl := List.mem_singleton.mp hio
      refine ⟨writeOk_of_bounds hmapped hpos hbounds ?_, rfl⟩
      intro r hlo hhi
      obtain ⟨e, he, _⟩ := ((hstretch r).mpr ⟨hlo, hhi⟩).right
      exact ⟨e, he⟩
  · -- Nothing is written, because of the type of the frame or its flags.
    have hskip : entryWriteback cfg waiters numPasses n (marked cc gone) =
        some (marked cc gone, []) := by
      unfold entryWriteback
      dsimp only
      by_cases hs : Starts cc numPasses n
      · have hs' : Starts (marked cc gone) numPasses n := by
          unfold Starts
          rw [marked_type]
          exact hs
        rw [if_neg hs', if_neg fun hok => hstart ⟨hs, hok⟩]
      · rw [if_pos]
        have hs' := not_not.mp hs
        rw [marked_type]
        exact hs'
    have hold : ∀ e, Starts cc numPasses n → Together cfg cc numPasses n e → e ∈ gone := by
      intro e hs ht
      by_contra he
      have hok := ht.symm.canWrite
      refine hstart ⟨hs, (okToWriteback_marked gone n).mpr ⟨?_, hok⟩⟩
      intro hn
      exact he (hgone.closed n hn e ht)
    refine ⟨?_, fun _ => ⟨[], ?_, ?_, ?_, nofun⟩⟩
    · intro hs hb
      obtain ⟨p, q, r, w, hp, hstr, _⟩ := id hb
      have hself : Together cfg cc numPasses n n := ⟨p, p, hp, hp, Stretch.refl hstr.left⟩
      exact absurd hb (hgone.unblocked n (hold n hs hself))
    · rw [hskip, List.flatMap_nil, List.append_nil]
    · rw [List.flatMap_nil, List.append_nil]
      exact hgone
    · intro e
      rw [List.flatMap_nil, List.append_nil]
      constructor
      · exact Or.inl
      · rintro (he | ⟨seed, hseed, hs, ht⟩)
        · exact he
        · obtain rfl := List.mem_singleton.mp hseed
          exact hold e hs ht

/-! ## All frames of a batch -/

theorem writes_cons (n : Nat) (entries : List Nat) (e : Nat) :
    Writes cfg cc numPasses (n :: entries) e ↔
      Writes cfg cc numPasses [n] e ∨ Writes cfg cc numPasses entries e := by
  unfold Writes
  simp

/-- **The loop over the frames**: it fails if somebody waits next to a stretch that is to be written,
and otherwise puts exactly those stretches in writeback, each with one write. -/
theorem entriesWriteback_spec (hmapped : FramesMapped cc) (hpos : 0 < cfg.pagesPerExtent)
    (hwait : ∀ e, waiters e = true → (cc.entry e).has .loading = true) (entries : List Nat) :
    ∀ gone, Whole cfg cc waiters numPasses gone →
      ((∃ e ∈ entries, Starts cc numPasses e ∧ Blocks cfg cc waiters numPasses e) →
        entriesWriteback cfg waiters numPasses entries (marked cc gone) = none) ∧
      ((¬ ∃ e ∈ entries, Starts cc numPasses e ∧ Blocks cfg cc waiters numPasses e) →
        ∃ ios : List WriteIo, entriesWriteback cfg waiters numPasses entries (marked cc gone) =
            some (marked cc (gone ++ ios.flatMap WriteIo.entries), ios) ∧
          Whole cfg cc waiters numPasses (gone ++ ios.flatMap WriteIo.entries) ∧
          (∀ e, e ∈ gone ++ ios.flatMap WriteIo.entries ↔
            e ∈ gone ∨ Writes cfg cc numPasses entries e) ∧
          ∀ io ∈ ios, WriteOk cfg cc io ∧ io.numPasses = numPasses) := by
  induction entries with
  | nil =>
      intro gone hgone
      refine ⟨?_, fun _ => ⟨[], ?_, ?_, ?_, nofun⟩⟩
      · rintro ⟨e, he, _⟩
        cases he
      · rw [List.flatMap_nil, List.append_nil]
        rfl
      · rw [List.flatMap_nil, List.append_nil]
        exact hgone
      · intro e
        rw [List.flatMap_nil, List.append_nil]
        constructor
        · exact Or.inl
        · rintro (he | ⟨seed, hseed, _⟩)
          · exact he
          · cases hseed
  | cons n entries ih =>
      intro gone hgone
      obtain ⟨hfail, hturn⟩ := entryWriteback_step hmapped hpos hwait hgone n
      unfold entriesWriteback
      by_cases hn : Starts cc numPasses n ∧ Blocks cfg cc waiters numPasses n
      · refine ⟨fun _ => ?_, fun hnone => absurd ⟨n, List.mem_cons_self, hn⟩ hnone⟩
        rw [hfail hn.1 hn.2]
        rfl
      · obtain ⟨ios, hresult, hwhole, hmem, hok⟩ := hturn hn
        obtain ⟨hfail', hrest⟩ := ih _ hwhole
        rw [hresult, Option.bind_some]
        constructor
        · rintro ⟨e, he, hb⟩
          rcases List.mem_cons.mp he with rfl | he'
          · exact absurd hb hn
          · rw [hfail' ⟨e, he', hb⟩]
            rfl
        · intro hnone
          obtain ⟨ios', hresult', hwhole', hmem', hok'⟩ :=
            hrest fun ⟨e, he, hb⟩ => hnone ⟨e, List.mem_cons_of_mem _ he, hb⟩
          refine ⟨ios ++ ios', ?_, ?_, ?_, ?_⟩
          · rw [hresult', List.flatMap_append, ← List.append_assoc]
            rfl
          · rw [List.flatMap_append, ← List.append_assoc]
            exact hwhole'
          · intro e
            rw [List.flatMap_append, ← List.append_assoc, hmem' e, hmem e, writes_cons n entries e, or_assoc]
          · intro io hio
            rcases List.mem_append.mp hio with hmem₁ | hmem₁
            · exact hok io hmem₁
            · exact hok' io hmem₁

/-! ## The operation of the cache -/

theorem trySetWritebackAsserted_eq {e : Nat} {result : Bool × TreePassCache}
    (h : trySetWritebackAsserted waiters cc e numPasses = some result) :
    trySetWriteback cc e numPasses = result := by
  unfold trySetWritebackAsserted at h
  split at h
  · cases h
  · exact Option.some.inj h

theorem walkBackwards_refines {addr : Nat} : ∀ (fuel firstAddr : Nat) (cc : TreePassCache)
    {result : TreePassCache × Nat},
    walkBackwards cfg waiters addr numPasses fuel cc firstAddr = some result →
      extendBackwards cfg addr numPasses fuel cc firstAddr = result := by
  intro fuel
  induction fuel with
  | zero =>
      intro firstAddr cc result h
      exact Option.some.inj h
  | succ fuel ih =>
      intro firstAddr cc result h
      unfold walkBackwards at h
      unfold extendBackwards
      split at h
      · rename_i hedge
        rw [if_pos hedge]
        exact Option.some.inj h
      · rename_i hedge
        rw [if_neg hedge]
        cases hlookup : cc.lookupAddr (firstAddr - cc.pageSize) with
        | none =>
            rw [hlookup] at h
            exact Option.some.inj h
        | some next =>
            rw [hlookup] at h
            dsimp only at h ⊢
            split at h
            · cases h
            · rename_i hset
              rw [trySetWritebackAsserted_eq hset]
              exact Option.some.inj h
            · rename_i hset
              rw [trySetWritebackAsserted_eq hset]
              exact ih _ _ h

theorem walkForwards_refines {addr : Nat} : ∀ (fuel lastAddr : Nat) (cc : TreePassCache)
    {result : TreePassCache × Nat},
    walkForwards cfg waiters addr numPasses fuel cc lastAddr = some result →
      extendForwards cfg addr numPasses fuel cc lastAddr = result := by
  intro fuel
  induction fuel with
  | zero =>
      intro lastAddr cc result h
      exact Option.some.inj h
  | succ fuel ih =>
      intro lastAddr cc result h
      unfold walkForwards at h
      unfold extendForwards
      dsimp only
      split at h
      · rename_i hedge
        rw [if_pos hedge]
        exact Option.some.inj h
      · rename_i hedge
        rw [if_neg hedge]
        cases hlookup : cc.lookupAddr (lastAddr + cc.pageSize) with
        | none =>
            rw [hlookup] at h
            exact Option.some.inj h
        | some next =>
            rw [hlookup] at h
            dsimp only at h ⊢
            split at h
            · cases h
            · rename_i hset
              rw [trySetWritebackAsserted_eq hset]
              exact Option.some.inj h
            · rename_i hset
              rw [trySetWritebackAsserted_eq hset]
              exact ih _ _ h

def WriteIo.request (io : WriteIo) : Request := .write io.entries io.numPasses

theorem issueRequest_write {s : CacheState} {io : WriteIo} (hio : io.entries ≠ []) :
    issueRequest (fun entries => .write entries io.numPasses) io.entries s =
      some ((), { s with requests := s.requests ++ [io.request] }) := by
  unfold issueRequest
  rw [if_neg hio]
  rfl

theorem entryWriteback_refines {s : CacheState} {n : Nat} {cc' : TreePassCache} {ios : List WriteIo}
    (h : entryWriteback cfg waiters numPasses n s.frames = some (cc', ios))
    (hios : ∀ io ∈ ios, io.entries ≠ []) :
    startWriteback cfg numPasses n s =
      some ((), { s with frames := cc', requests := s.requests ++ ios.map WriteIo.request }) := by
  have hquiet : ∀ {result : TreePassCache × List WriteIo}, result = (s.frames, []) →
      result = (cc', ios) → (some ((), s) : Option (Unit × CacheState)) =
        some ((), { s with frames := cc', requests := s.requests ++ ios.map WriteIo.request }) := by
    rintro result rfl hresult
    obtain ⟨rfl, rfl⟩ := Prod.mk.inj hresult
    rw [List.map_nil, List.append_nil]
  unfold entryWriteback at h
  unfold startWriteback
  rw [get_bind]
  dsimp only at h ⊢
  split at h
  · rename_i hstart
    rw [if_pos hstart]
    exact hquiet rfl (Option.some.inj h)
  · rename_i hstart
    rw [if_neg hstart, modify_bind]
    split at h
    · rename_i hok
      split at h
      · cases h
      · -- The status has been checked just before.
        rename_i cc₁ hset
        have htried := trySetWritebackAsserted_eq hset
        rw [trySetWriteback_of_ok hok] at htried
        cases htried
      · rename_i cc₁ hset
        rw [trySetWritebackAsserted_eq hset]
        split at h
        · cases h
        · rename_i addr haddr
          rw [haddr]
          dsimp only
          rw [if_pos rfl, modify_bind]
          split at h
          · cases h
          · rename_i cc₂ firstAddr hback
            split at h
            · cases h
            · rename_i cc₃ endAddr hforw
              obtain ⟨rfl, rfl⟩ := Prod.mk.inj (Option.some.inj h)
              have hback' := walkBackwards_refines _ _ _ hback
              have hforw' := walkForwards_refines _ _ _ hforw
              have hsize₂ : cc₂.logPageSize = cc₁.logPageSize := by
                have hq := extendBackwards_quiet cfg addr numPasses cfg.pagesPerExtent cc₁ addr
                rw [hback'] at hq
                exact hq.2.1
              have hsize₃ : cc₃.logPageSize = cc₂.logPageSize := by
                have hq := extendForwards_quiet cfg addr numPasses cfg.pagesPerExtent cc₂ addr
                rw [hforw'] at hq
                exact hq.2.1
              have haround : writebackAround cfg cc₁ addr numPasses =
                  (cc₃, (writeOf cc₃ firstAddr endAddr numPasses).entries) := by
                unfold writebackAround
                rw [hback']
                dsimp only
                rw [hforw']
                unfold writeOf
                rw [hsize₃, hsize₂]
              rw [haround]
              exact issueRequest_write (hios _ List.mem_cons_self)
    · rename_i hok
      rw [trySetWriteback_of_not_ok hok]
      have hsame : s.setFrames s.frames = s := rfl
      cases (s.frames.entry n).diskAddr with
      | none => exact hquiet rfl (Option.some.inj h)
      | some addr => exact hquiet rfl (Option.some.inj h)

theorem entriesWriteback_refines (entries : List Nat) : ∀ {s : CacheState} {cc' : TreePassCache}
    {ios : List WriteIo}, entriesWriteback cfg waiters numPasses entries s.frames = some (cc', ios) →
      (∀ io ∈ ios, io.entries ≠ []) →
      entries.forM (startWriteback cfg numPasses) s =
        some ((), { s with frames := cc', requests := s.requests ++ ios.map WriteIo.request }) := by
  induction entries with
  | nil =>
      intro s cc' ios h _
      obtain ⟨rfl, rfl⟩ := Prod.mk.inj (Option.some.inj h)
      rw [List.map_nil, List.append_nil]
      rfl
  | cons n entries ih =>
      intro s cc' ios h hios
      unfold entriesWriteback at h
      obtain ⟨⟨cc₁, ios₁⟩, hfirst, hrest⟩ := Option.bind_eq_some_iff.mp h
      obtain ⟨⟨cc₂, ios₂⟩, hentries, heq⟩ := Option.map_eq_some_iff.mp hrest
      obtain ⟨rfl, rfl⟩ := Prod.mk.inj heq
      have hone := entryWriteback_refines hfirst fun io hio => hios io (List.mem_append_left _ hio)
      have hall := @ih { s with
        frames := cc₁
        requests := s.requests ++ ios₁.map WriteIo.request } _ _ hentries
        fun io hio => hios io (List.mem_append_right _ hio)
      change (startWriteback cfg numPasses n >>= fun _ =>
        entries.forM (startWriteback cfg numPasses)) s = _
      refine bind_eq_some.mpr ⟨(), _, hone, hall.trans ?_⟩
      rw [List.map_append, List.append_assoc]

end Batch

end Cache
end TreePass
