import TreePass.Alloc.MiniOwnership

/-!
# The addresses of a mini allocator

Whatever the order in which the batches are asked, a mini allocator never hands out an address
twice, and none of its addresses is in an extent of meta pages.  `HandsOut` is the invariant behind
this: the batches work in different extents, and in the extent of a batch only the pages before its
next address have been handed out.

* `miniAlloc_handsOut` is the step, `allocAll_handsOut` a run.
* `miniLife_spec` is a whole life, from `mini_init` to the last `mini_dec_ref`.
-/

namespace TreePass
namespace Alloc

variable {cfg : ExtentConfig} {before : Nat → Nat} {metaHead : Nat}

/-! ## One allocation -/

/-- **What `mini_alloc` does.**  It goes on in the extent of the batch, or starts and records the
next one. -/
theorem miniAlloc_cases {s s' : MiniState} {batch addr nextExtent : Nat}
    (h : Owns cfg before metaHead s [])
    (hrun : miniAlloc cfg batch s = some ((addr, nextExtent), s')) :
    ∃ next, s.mini.nextAddr[batch]? = some next ∧
      s'.mini.nextAddr = s.mini.nextAddr.set batch (addr + cfg.pageSize) ∧
      s'.mini.nextExtent[batch]? = some nextExtent ∧
      (next % cfg.extentSize = 0 ∧ s.mini.nextExtent[batch]? = some addr ∧
          (∃ new, s'.mini.nextExtent = s.mini.nextExtent.set batch new) ∧
          recorded s'.mini.metaPages = recorded s.mini.metaPages ++ [addr] ∨
        next % cfg.extentSize ≠ 0 ∧ addr = next ∧ s'.mini.nextExtent = s.mini.nextExtent ∧
          s'.mini.metaPages = s.mini.metaPages) := by
  obtain ⟨next, hnext, hrun⟩ := Option.bind_eq_some_iff.mp hrun
  obtain ⟨⟨addr', s₁⟩, hpage, hrun⟩ := Option.bind_eq_some_iff.mp hrun
  obtain ⟨nextExtent', hnextExtent, hrun⟩ := Option.bind_eq_some_iff.mp hrun
  cases hrun
  unfold nextPage at hpage
  by_cases hstart : next % cfg.extentSize = 0
  · rw [if_pos hstart] at hpage
    obtain ⟨-, hextent, hnew, hnextAddr, hrecorded⟩ := h.startExtent hpage
    refine ⟨next, hnext, ?_, hnextExtent, Or.inl ⟨hstart, hextent, hnew, hrecorded⟩⟩
    show s₁.mini.nextAddr.set batch _ = _
    rw [hnextAddr]
  · rw [if_neg hstart] at hpage
    cases hpage
    exact ⟨addr, hnext, rfl, hnextExtent, Or.inr ⟨hstart, rfl, rfl, rfl⟩⟩

/-! ## Addresses that have been handed out -/

/-- **What keeps the addresses apart.** -/
structure HandsOut (cfg : ExtentConfig) (s : MiniState) (out : List Nat) : Prop where
  nodup : out.Nodup
  aligned : ∀ a ∈ out, cfg.pageSize ∣ a
  recorded_base : ∀ a ∈ out, cfg.baseAddr a ∈ recorded s.mini.metaPages
  base_recorded : ∀ e ∈ recorded s.mini.metaPages, ∃ a ∈ out, cfg.baseAddr a = e
  /-- Only the pages before the next address of a batch have been handed out in its extent. -/
  next_unused : ∀ b n : Nat, s.mini.nextAddr[b]? = some n → n % cfg.extentSize ≠ 0 →
    cfg.pageSize ∣ n ∧ cfg.baseAddr n ∈ recorded s.mini.metaPages ∧
      ∀ a ∈ out, cfg.baseAddr a = cfg.baseAddr n → a < n
  /-- Two batches are not in the same extent. -/
  apart : ∀ b b' n n' : Nat, b ≠ b' → s.mini.nextAddr[b]? = some n →
    s.mini.nextAddr[b']? = some n' → n % cfg.extentSize ≠ 0 → n' % cfg.extentSize ≠ 0 →
    cfg.baseAddr n ≠ cfg.baseAddr n'

theorem handsOut_init {s : MiniState} {numBatches : Nat}
    (hnext : s.mini.nextAddr = List.replicate numBatches 0)
    (hpages : s.mini.metaPages = [⟨metaHead, []⟩]) : HandsOut cfg s [] := by
  have hzero : ∀ b n : Nat, s.mini.nextAddr[b]? = some n → n % cfg.extentSize = 0 := by
    intro b n hn
    rw [hnext] at hn
    rw [List.eq_of_mem_replicate (List.mem_of_getElem? hn), Nat.zero_mod]
  constructor
  · exact List.nodup_nil
  · exact fun _ ha => (List.not_mem_nil ha).elim
  · exact fun _ ha => (List.not_mem_nil ha).elim
  · rw [hpages]
    exact fun _ he => (List.not_mem_nil he).elim
  · exact fun b n hn hne => absurd (hzero b n hn) hne
  · exact fun b b' n n' _ hn _ hne _ => absurd (hzero b n hn) hne

theorem Owns.not_recorded {s : MiniState} {extra : List Nat}
    (h : Owns cfg before metaHead s extra) :
    (∀ page ∈ s.mini.metaPages, cfg.baseAddr page.addr ∉ recorded s.mini.metaPages) ∧
      ∀ e ∈ s.mini.nextExtent, e ∉ recorded s.mini.metaPages ∧ IsExtent cfg e := by
  have hnodup := (List.nodup_append.mp (List.nodup_append.mp h.owned.nodup).1).1
  obtain ⟨hlists, -, hnext⟩ := List.nodup_append.mp hnodup
  obtain ⟨-, -, hmeta⟩ := List.nodup_append.mp hlists
  constructor
  · intro page hpage hrec
    exact hmeta _ (baseAddr_mem_metaExtents hpage) _ hrec rfl
  · intro e he
    refine ⟨fun hrec => hnext e (List.mem_append_right _ hrec) e he rfl, ?_⟩
    exact (h.owned.fresh e (List.mem_append_left _ (List.mem_append_left _
      (List.mem_append_right _ he)))).2

private theorem next_page {n : Nat} (hdvd : cfg.pageSize ∣ n)
    (hne : (n + cfg.pageSize) % cfg.extentSize ≠ 0) :
    cfg.pageSize ∣ n + cfg.pageSize ∧ cfg.baseAddr (n + cfg.pageSize) = cfg.baseAddr n :=
  ⟨Nat.dvd_add hdvd (Nat.dvd_refl _), baseAddr_add_pageSize hdvd hne⟩

private theorem HandsOut.add {s s' : MiniState} {out : List Nat} {batch addr : Nat}
    (h : HandsOut cfg s out) (hdvd : cfg.pageSize ∣ addr)
    (hnew : ∀ a ∈ out, cfg.baseAddr a = cfg.baseAddr addr → a < addr)
    (hother : ∀ b n : Nat, b ≠ batch → s.mini.nextAddr[b]? = some n → n % cfg.extentSize ≠ 0 →
      cfg.baseAddr n ≠ cfg.baseAddr addr)
    (hbase : cfg.baseAddr addr ∈ recorded s'.mini.metaPages)
    (hmono : ∀ e ∈ recorded s.mini.metaPages, e ∈ recorded s'.mini.metaPages)
    (honly : ∀ e ∈ recorded s'.mini.metaPages, e ∈ recorded s.mini.metaPages ∨
      e = cfg.baseAddr addr)
    (hnext : s'.mini.nextAddr = s.mini.nextAddr.set batch (addr + cfg.pageSize)) :
    HandsOut cfg s' (out ++ [addr]) := by
  have hpage : 0 < cfg.pageSize := by
    have := cfg.pageSize_ge
    omega
  -- The next address of a batch is the one after `addr`, or that of another batch.
  have hcases : ∀ b n : Nat, s'.mini.nextAddr[b]? = some n →
      b = batch ∧ n = addr + cfg.pageSize ∨ b ≠ batch ∧ s.mini.nextAddr[b]? = some n := by
    intro b n hn
    rw [hnext, List.getElem?_set] at hn
    by_cases hb : batch = b
    · rw [if_pos hb] at hn
      split at hn
      · exact Or.inl ⟨hb.symm, (Option.some.inj hn).symm⟩
      · cases hn
    · rw [if_neg hb] at hn
      exact Or.inr ⟨Ne.symm hb, hn⟩
  constructor
  · refine List.nodup_append.mpr ⟨h.nodup, List.nodup_singleton _, ?_⟩
    rintro a ha b hb rfl
    have hlt := hnew a ha (by rw [List.mem_singleton.mp hb])
    rw [List.mem_singleton.mp hb] at hlt
    exact Nat.lt_irrefl _ hlt
  · intro a ha
    rcases List.mem_append.mp ha with ha | ha
    · exact h.aligned a ha
    · rw [List.mem_singleton.mp ha]
      exact hdvd
  · intro a ha
    rcases List.mem_append.mp ha with ha | ha
    · exact hmono _ (h.recorded_base a ha)
    · rw [List.mem_singleton.mp ha]
      exact hbase
  · intro e he
    rcases honly e he with he | rfl
    · obtain ⟨a, ha, heq⟩ := h.base_recorded e he
      exact ⟨a, List.mem_append_left _ ha, heq⟩
    · exact ⟨addr, List.mem_append_right _ (List.mem_singleton_self addr), rfl⟩
  · intro b n hn hne
    rcases hcases b n hn with ⟨rfl, rfl⟩ | ⟨hb, hn⟩
    · obtain ⟨hdvd', hsame⟩ := next_page hdvd hne
      refine ⟨hdvd', hsame ▸ hbase, ?_⟩
      intro a ha heq
      rw [hsame] at heq
      rcases List.mem_append.mp ha with ha | ha
      · have := hnew a ha heq
        omega
      · rw [List.mem_singleton.mp ha]
        omega
    · obtain ⟨hdvd', hrec, hbelow⟩ := h.next_unused b n hn hne
      refine ⟨hdvd', hmono _ hrec, ?_⟩
      intro a ha heq
      rcases List.mem_append.mp ha with ha | ha
      · exact hbelow a ha heq
      · rw [List.mem_singleton.mp ha] at heq
        exact absurd heq.symm (hother b n hb hn hne)
  · intro b b' n n' hbb hn hn' hne hne'
    rcases hcases b n hn with ⟨rfl, rfl⟩ | ⟨hb, hn⟩
    · rcases hcases b' n' hn' with ⟨rfl, -⟩ | ⟨hb', hn'⟩
      · exact absurd rfl hbb
      · rw [(next_page hdvd hne).2]
        exact Ne.symm (hother b' n' hb' hn' hne')
    · rcases hcases b' n' hn' with ⟨rfl, rfl⟩ | ⟨hb', hn'⟩
      · rw [(next_page hdvd hne').2]
        exact hother b n hb hn hne
      · exact h.apart b b' n n' hbb hn hn' hne hne'

theorem miniAlloc_handsOut {s s' : MiniState} {batch addr nextExtent : Nat} {out : List Nat}
    (hown : Owns cfg before metaHead s []) (h : HandsOut cfg s out)
    (hrun : miniAlloc cfg batch s = some ((addr, nextExtent), s')) :
    HandsOut cfg s' (out ++ [addr]) := by
  obtain ⟨next, hnext, hnextAddr, -, hcases⟩ := miniAlloc_cases hown hrun
  rcases hcases with ⟨-, hextent, -, hrecorded⟩ | ⟨hne, rfl, -, hpages⟩
  · -- A new extent: no page of it has been handed out.
    obtain ⟨hnot, hisExtent⟩ := hown.not_recorded.2 addr (List.mem_of_getElem? hextent)
    have hbase := hisExtent.baseAddr_eq
    refine h.add hisExtent.pageSize_dvd ?_ ?_ ?_ ?_ ?_ hnextAddr
    · intro a ha heq
      rw [hbase] at heq
      exact absurd (heq ▸ h.recorded_base a ha) hnot
    · intro b n _ hn hne heq
      rw [hbase] at heq
      exact hnot (heq ▸ (h.next_unused b n hn hne).2.1)
    · rw [hbase, hrecorded]
      exact List.mem_append_right _ (List.mem_singleton_self addr)
    · intro e he
      rw [hrecorded]
      exact List.mem_append_left _ he
    · intro e he
      rw [hrecorded] at he
      rw [hbase]
      exact (List.mem_append.mp he).imp_right List.mem_singleton.mp
  · obtain ⟨hdvd, hrec, hbelow⟩ := h.next_unused batch addr hnext hne
    refine h.add hdvd hbelow ?_ ?_ ?_ ?_ hnextAddr
    · exact fun b n hb hn hne' => h.apart b batch n addr hb hn hnext hne' hne
    · rw [hpages]
      exact hrec
    · intro e he
      rw [hpages]
      exact he
    · intro e he
      rw [hpages] at he
      exact Or.inl he

/-! ## Runs -/

/-- A call of `mini_alloc`: the batch and what it returned. -/
structure MiniCall where
  batch : Nat
  addr : Nat
  nextExtent : Nat
  deriving DecidableEq, Repr

/-- Calls of `mini_alloc` on some batches, one after the other. -/
def allocAll (cfg : ExtentConfig) : List Nat → MiniState → Option (List MiniCall × MiniState)
  | [], s => some ([], s)
  | batch :: batches, s => do
      let ((addr, nextExtent), s) ← miniAlloc cfg batch s
      let (calls, s) ← allocAll cfg batches s
      some (⟨batch, addr, nextExtent⟩ :: calls, s)

/-- **A run of allocations** keeps what the mini allocator owns, and hands out new pages only. -/
theorem allocAll_handsOut (batches : List Nat) :
    ∀ {s s' : MiniState} {calls : List MiniCall} {out : List Nat}, Owns cfg before metaHead s [] →
      HandsOut cfg s out → allocAll cfg batches s = some (calls, s') →
      Owns cfg before metaHead s' [] ∧ HandsOut cfg s' (out ++ calls.map MiniCall.addr) := by
  induction batches with
  | nil =>
      intro s s' calls out hown h hrun
      cases hrun
      refine ⟨hown, ?_⟩
      rw [List.map_nil, List.append_nil]
      exact h
  | cons batch batches ih =>
      intro s s' calls out hown h hrun
      obtain ⟨⟨⟨addr, nextExtent⟩, s₁⟩, halloc, hrun⟩ := Option.bind_eq_some_iff.mp hrun
      obtain ⟨⟨calls', s₂⟩, hrest, hrun⟩ := Option.bind_eq_some_iff.mp hrun
      cases hrun
      obtain ⟨hown', hout⟩ :=
        ih (miniAlloc_owns hown halloc).1 (miniAlloc_handsOut hown h halloc) hrest
      refine ⟨hown', ?_⟩
      rw [List.map_cons, List.append_cons]
      exact hout

/-- The first address of a batch that is in another extent than `addr`. -/
def nextChange (cfg : ExtentConfig) (batch addr : Nat) : List MiniCall → Option Nat
  | [] => none
  | call :: calls =>
      if call.batch = batch ∧ cfg.baseAddr call.addr ≠ cfg.baseAddr addr then some call.addr
      else nextChange cfg batch addr calls

theorem allocAll_nextChange {b addr n : Nat} (batches : List Nat) :
    ∀ {s s' : MiniState} {calls : List MiniCall} {next : Nat}, Owns cfg before metaHead s [] →
      cfg.baseAddr addr ∈ recorded s.mini.metaPages → s.mini.nextExtent[b]? = some n →
      s.mini.nextAddr[b]? = some next →
      (next % cfg.extentSize ≠ 0 → cfg.baseAddr next = cfg.baseAddr addr) →
      (next % cfg.extentSize ≠ 0 → cfg.pageSize ∣ next) →
      allocAll cfg batches s = some (calls, s') →
      ∀ a, nextChange cfg b addr calls = some a → a = n := by
  induction batches with
  | nil =>
      intro s s' calls next _ _ _ _ _ _ hrun a ha
      cases hrun
      cases ha
  | cons batch batches ih =>
      intro s s' calls next hown hrec hextent hnext hbase hdvd hrun a ha
      obtain ⟨⟨⟨addr', nextExtent⟩, s₁⟩, halloc, hrun⟩ := Option.bind_eq_some_iff.mp hrun
      obtain ⟨⟨calls', s₂⟩, hrest, hrun⟩ := Option.bind_eq_some_iff.mp hrun
      cases hrun
      have hown' := (miniAlloc_owns hown halloc).1
      obtain ⟨next', hnext', hnextAddr, -, hcases⟩ := miniAlloc_cases hown halloc
      have hrec' : cfg.baseAddr addr ∈ recorded s₁.mini.metaPages := by
        rcases hcases with ⟨-, -, -, hrecorded⟩ | ⟨-, -, -, hpages⟩
        · rw [hrecorded]
          exact List.mem_append_left _ hrec
        · rw [hpages]
          exact hrec
      unfold nextChange at ha
      by_cases hb : batch = b
      · subst hb
        obtain rfl := Option.some.inj (hnext.symm.trans hnext')
        rcases hcases with ⟨-, hextent', -, -⟩ | ⟨hne, rfl, hnextExtent, -⟩
        · -- The batch starts the extent that was announced.
          obtain rfl := Option.some.inj (hextent.symm.trans hextent')
          obtain ⟨hnot, hisExtent⟩ := hown.not_recorded.2 n (List.mem_of_getElem? hextent)
          have hother : cfg.baseAddr n ≠ cfg.baseAddr addr := by
            intro heq
            rw [hisExtent.baseAddr_eq] at heq
            exact hnot (heq ▸ hrec)
          rw [if_pos ⟨rfl, hother⟩] at ha
          exact (Option.some.inj ha).symm
        · rw [if_neg fun hand => hand.2 (hbase hne)] at ha
          have hset : s₁.mini.nextAddr[batch]? = some (addr' + cfg.pageSize) := by
            rw [hnextAddr, List.getElem?_set_self (List.getElem?_eq_some_iff.mp hnext).1]
          refine ih hown' hrec' (hnextExtent ▸ hextent) hset ?_ ?_ hrest a ha
          · exact fun hne' => (next_page (hdvd hne) hne').2.trans (hbase hne)
          · exact fun hne' => (next_page (hdvd hne) hne').1
      · rw [if_neg fun hand => hb hand.1] at ha
        refine ih hown' hrec' ?_ ?_ hbase hdvd hrest a ha
        · rcases hcases with ⟨-, -, ⟨new, hset⟩, -⟩ | ⟨-, -, hsame, -⟩
          · rw [hset, List.getElem?_set_ne hb]
            exact hextent
          · rw [hsame]
            exact hextent
        · rw [hnextAddr, List.getElem?_set_ne hb]
          exact hnext

theorem allocAll_announces (batches : List Nat) :
    ∀ {s s' : MiniState} {calls : List MiniCall} {out : List Nat}, Owns cfg before metaHead s [] →
      HandsOut cfg s out → allocAll cfg batches s = some (calls, s') →
      ∀ front call back a, calls = front ++ call :: back →
        nextChange cfg call.batch call.addr back = some a → a = call.nextExtent := by
  induction batches with
  | nil =>
      intro s s' calls out _ _ hrun front call back a heq
      cases hrun
      cases front <;> cases heq
  | cons batch batches ih =>
      intro s s' calls out hown h hrun front call back a heq ha
      obtain ⟨⟨⟨addr, nextExtent⟩, s₁⟩, halloc, hrun⟩ := Option.bind_eq_some_iff.mp hrun
      obtain ⟨⟨calls', s₂⟩, hrest, hrun⟩ := Option.bind_eq_some_iff.mp hrun
      cases hrun
      have hown' := (miniAlloc_owns hown halloc).1
      have hout := miniAlloc_handsOut hown h halloc
      cases front with
      | cons first front =>
          obtain ⟨-, hcalls⟩ := List.cons.inj heq
          exact ih hown' hout hrest front call back a hcalls ha
      | nil =>
          obtain ⟨hcall, hcalls⟩ := List.cons.inj heq
          subst hcall hcalls
          obtain ⟨next, hnext, hnextAddr, hnextExtent, -⟩ := miniAlloc_cases hown halloc
          have hmem : addr ∈ out ++ [addr] := List.mem_append_right _ (List.mem_singleton_self addr)
          have hset : s₁.mini.nextAddr[batch]? = some (addr + cfg.pageSize) := by
            rw [hnextAddr, List.getElem?_set_self (List.getElem?_eq_some_iff.mp hnext).1]
          refine allocAll_nextChange batches hown' (hout.recorded_base addr hmem) hnextExtent hset
            ?_ ?_ hrest a ha
          · exact fun hne => (next_page (hout.aligned addr hmem) hne).2
          · exact fun hne => (next_page (hout.aligned addr hmem) hne).1

/-! ## A whole life -/

theorem miniInit_oneRef {al : Extents} {numBatches : Nat} {s : MiniState}
    (hinit : miniInit cfg metaHead numBatches al = some s) :
    al.refCount (cfg.baseAddr metaHead) = oneRef := by
  obtain ⟨⟨ref, al'⟩, hinc, hinit⟩ := Option.bind_eq_some_iff.mp hinit
  obtain ⟨_, hguard, _⟩ := Option.bind_eq_some_iff.mp hinit
  have href : ref = miniNoRefs + 1 := by
    by_contra hne
    exact absurd hguard (by simp [guard, hne])
  unfold Extents.incRef at hinc
  by_cases hfree : al.refCount (cfg.baseAddr metaHead) = free
  · rw [if_pos hfree] at hinc
    cases hinc
  · rw [if_neg hfree] at hinc
    cases hinc
    exact Nat.succ.inj href

/-- **The life of a mini allocator**, from `mini_init` over any calls of `mini_alloc` to
`mini_release` and the last `mini_dec_ref`.  Its addresses are different pages off the meta pages;
the extents it handed pages out of are recorded once; a batch goes on where the last call announced
it; and in the end all counts are as before `mini_init`, but for the extent of the first meta page,
which was its creator's and is free. -/
theorem miniLife_spec (cfg : ExtentConfig) (al : Extents) (metaHead numBatches : Nat)
    (batches : List Nat) (s₀ s : MiniState) (calls : List MiniCall)
    (haligned : cfg.pageSize ∣ metaHead) (hhead : IsExtent cfg (cfg.baseAddr metaHead))
    (hsupply : (cfg.baseAddr metaHead :: al.supply).Nodup)
    (hfresh : ∀ e ∈ al.supply, al.refCount e = free ∧ IsExtent cfg e)
    (hinit : miniInit cfg metaHead numBatches al = some s₀)
    (hrun : allocAll cfg batches s₀ = some (calls, s)) :
    (calls.map MiniCall.addr).Nodup ∧
      (∀ call ∈ calls, cfg.pageSize ∣ call.addr ∧
        ∀ page ∈ s.mini.metaPages, call.addr ≠ page.addr) ∧
      (recorded s.mini.metaPages).Nodup ∧
      (∀ e, e ∈ recorded s.mini.metaPages ↔ ∃ call ∈ calls, cfg.baseAddr call.addr = e) ∧
      (∀ front call back a, calls = front ++ call :: back →
        nextChange cfg call.batch call.addr back = some a → a = call.nextExtent) ∧
      ∃ al₁ al₂, miniRelease s = some al₁ ∧ miniDecRef cfg s.mini.metaPages al₁ = some (0, al₂) ∧
        ∀ e, al₂.refCount e = if e = cfg.baseAddr metaHead then free else al.refCount e := by
  -- Before its creator took it, the extent of the first meta page was free.
  let al₀ : Extents := ⟨Function.update al.refCount (cfg.baseAddr metaHead) free,
    cfg.baseAddr metaHead :: al.supply⟩
  have htaken : al₀.alloc = some (cfg.baseAddr metaHead, al) := by
    have hone := miniInit_oneRef hinit
    show some (_, (⟨Function.update (Function.update al.refCount _ free) _ oneRef, al.supply⟩ :
      Extents)) = _
    rw [Function.update_idem, ← hone, Function.update_eq_self]
  have hfresh₀ : ∀ e ∈ al₀.supply, al₀.refCount e = 0 ∧ IsExtent cfg e := by
    intro e he
    show Function.update al.refCount (cfg.baseAddr metaHead) free e = 0 ∧ _
    rcases List.mem_cons.mp he with rfl | he
    · exact ⟨Function.update_self .., hhead⟩
    · have hne : e ≠ cfg.baseAddr metaHead := fun heq =>
        (List.nodup_cons.mp hsupply).1 (heq ▸ he)
      rw [Function.update_of_ne hne]
      exact hfresh e he
  obtain ⟨hown₀, -, hnextAddr, hpages⟩ :=
    miniInit_owns hsupply hfresh₀ htaken rfl haligned hinit
  have hout₀ : HandsOut cfg s₀ [] := handsOut_init hnextAddr hpages
  obtain ⟨hown, hout⟩ := allocAll_handsOut batches hown₀ hout₀ hrun
  rw [List.nil_append] at hout
  obtain ⟨hlists, -, -⟩ := List.nodup_append.mp (List.nodup_append.mp
    (List.nodup_append.mp hown.owned.nodup).1).1
  obtain ⟨al₁, hrelease, howned⟩ := miniRelease_spec hown
  obtain ⟨al₂, hdec, hcount⟩ := miniDecRef_spec cfg howned hown.head_eq
  refine ⟨hout.nodup, ?_, (List.nodup_append.mp hlists).2.1, ?_,
    allocAll_announces batches hown₀ hout₀ hrun, al₁, al₂, hrelease, hdec, ?_⟩
  · intro call hcall
    have hmem : call.addr ∈ calls.map MiniCall.addr := List.mem_map_of_mem hcall
    refine ⟨hout.aligned _ hmem, fun page hpage heq => ?_⟩
    exact hown.not_recorded.1 page hpage (heq ▸ hout.recorded_base _ hmem)
  · intro e
    constructor
    · intro he
      obtain ⟨a, ha, heq⟩ := hout.base_recorded e he
      obtain ⟨call, hcall, rfl⟩ := List.mem_map.mp ha
      exact ⟨call, hcall, heq⟩
    · rintro ⟨call, hcall, rfl⟩
      exact hout.recorded_base _ (List.mem_map_of_mem hcall)
  · intro e
    rw [hcount e, List.count_nil, Nat.mul_zero, Nat.add_zero]
    exact Function.update_apply ..

/-- Pages of 64 bytes in extents of four, so that a meta page has room for five entries. -/
private def smallExtents : ExtentConfig := ⟨64, 4, by decide, by decide⟩

/-- The extent at 256 belongs to the creator, the next ones are free. -/
private def creatorExtents : Extents :=
  ⟨fun e => if e = 256 then oneRef else free, (List.range 8).map fun i => (i + 2) * 256⟩

private def lifeBatches : List Nat := [0, 0, 1, 0, 0, 0, 1]

private def lifeRun : Option (List MiniCall × MiniState) :=
  (miniInit smallExtents 320 2 creatorExtents).bind fun s => allocAll smallExtents lifeBatches s

private theorem creatorExtents_fresh : ∀ e ∈ creatorExtents.supply,
    creatorExtents.refCount e = free ∧ IsExtent smallExtents e := by
  intro e he
  obtain ⟨i, hi, rfl⟩ := List.mem_map.mp he
  have hne : (i + 2) * 256 ≠ 256 := by omega
  have hlt := List.mem_range.mp hi
  refine ⟨if_neg hne, ?_, by omega, ?_⟩
  · show (i + 2) * 256 % (64 * 4) = 0
    omega
  · show (i + 2) * 256 + 64 * 4 ≤ 18446744073709551616
    omega

/-- Seven pages from two batches, where batch 0 goes on to a second extent. -/
theorem miniLife_seven_pages :
    ∃ s₀ s calls, miniInit smallExtents 320 2 creatorExtents = some s₀ ∧
      allocAll smallExtents lifeBatches s₀ = some (calls, s) ∧
      calls.map MiniCall.addr = [512, 576, 768, 640, 704, 1024, 832] ∧
      ∃ al₁ al₂, miniRelease s = some al₁ ∧
        miniDecRef smallExtents s.mini.metaPages al₁ = some (0, al₂) ∧
        ∀ e, al₂.refCount e = if e = smallExtents.baseAddr 320 then free
          else creatorExtents.refCount e := by
  have hrun : lifeRun.map (fun r => r.1.map MiniCall.addr) =
      some [512, 576, 768, 640, 704, 1024, 832] := by decide +kernel
  obtain ⟨⟨calls, s⟩, hlife, haddrs⟩ := Option.map_eq_some_iff.mp hrun
  obtain ⟨s₀, hinit, hcalls⟩ := Option.bind_eq_some_iff.mp hlife
  have hspec := miniLife_spec smallExtents creatorExtents 320 2 lifeBatches s₀ s calls
    (by decide) ⟨by decide, by decide, by decide⟩ (by decide) creatorExtents_fresh hinit hcalls
  exact ⟨s₀, s, calls, hinit, hcalls, haddrs, hspec.2.2.2.2.2⟩

/-- The count of the creator's extent is one reference before `mini_init`, and free in the end. -/
theorem miniLife_not_as_before :
    ¬ ∀ (cfg : ExtentConfig) (al : Extents) (metaHead numBatches : Nat) (batches : List Nat)
      (s₀ s : MiniState) (calls : List MiniCall), cfg.pageSize ∣ metaHead →
      IsExtent cfg (cfg.baseAddr metaHead) → (cfg.baseAddr metaHead :: al.supply).Nodup →
      (∀ e ∈ al.supply, al.refCount e = free ∧ IsExtent cfg e) →
      miniInit cfg metaHead numBatches al = some s₀ →
      allocAll cfg batches s₀ = some (calls, s) →
      ∀ al₁ al₂ ref, miniRelease s = some al₁ →
      miniDecRef cfg s.mini.metaPages al₁ = some (ref, al₂) →
      ∀ e, al₂.refCount e = al.refCount e := by
  intro h
  have hlife : (lifeRun.bind fun r => (miniRelease r.2).bind fun al =>
      (miniDecRef smallExtents r.2.mini.metaPages al).map fun p => p.2.refCount 256) = some 0 := by
    decide +kernel
  obtain ⟨⟨calls, s⟩, hcalls, hend⟩ := Option.bind_eq_some_iff.mp hlife
  obtain ⟨s₀, hinit, hcalls⟩ := Option.bind_eq_some_iff.mp hcalls
  obtain ⟨al₁, hrelease, hend⟩ := Option.bind_eq_some_iff.mp hend
  obtain ⟨⟨ref, al₂⟩, hdec, hzero⟩ := Option.map_eq_some_iff.mp hend
  have hsame := h smallExtents creatorExtents 320 2 lifeBatches s₀ s calls (by decide)
    ⟨by decide, by decide, by decide⟩ (by decide) creatorExtents_fresh hinit hcalls al₁ al₂ ref
    hrelease hdec 256
  have hzero' : al₂.refCount 256 = 0 := hzero
  rw [hzero'] at hsame
  exact absurd hsame (by decide)

end Alloc
end TreePass
