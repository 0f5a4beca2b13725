import TreePass.Log.ShardLog

/-!
# The invariant of the sharded log

* `Frontier`: the pages taken so far are the first pages of the extents, in order, and the last extent
  has none yet.
* `LaidOut`: the records of a page follow each other from the header on.
* `LogInv` puts them together with the links between extents, the threads and the seals;
  `LogInv.write`: a call keeps it.
-/

namespace TreePass
namespace Log

open Lib

variable {cfg : ShardLogConfig} {τ : Type}

/-! ## Pages of extents -/

/-- The addresses of `n` pages from `addr` on. -/
def pageAddrs (cfg : ShardLogConfig) (addr : Nat) : Nat → List Nat
  | 0 => []
  | n + 1 => addr :: pageAddrs cfg (addr + cfg.pageSize) n

theorem pageSize_pos : 0 < cfg.pageSize := Nat.lt_of_lt_of_le (by decide) cfg.hdr_le

theorem mem_pageAddrs {addr n a : Nat} :
    a ∈ pageAddrs cfg addr n ↔ ∃ i, i < n ∧ a = addr + i * cfg.pageSize := by
  induction n generalizing addr with
  | zero => simp [pageAddrs]
  | succ n ih =>
      rw [pageAddrs, List.mem_cons, ih]
      constructor
      · rintro (rfl | ⟨i, hi, rfl⟩)
        · exact ⟨0, Nat.succ_pos n, by simp⟩
        · exact ⟨i + 1, Nat.succ_lt_succ hi, by rw [Nat.succ_mul]; omega⟩
      · rintro ⟨i, hi, rfl⟩
        cases i with
        | zero => exact Or.inl (by simp)
        | succ i => exact Or.inr ⟨i, Nat.lt_of_succ_lt_succ hi, by rw [Nat.succ_mul]; omega⟩

theorem pageAddrs_succ (addr n : Nat) :
    pageAddrs cfg addr (n + 1) = pageAddrs cfg addr n ++ [addr + n * cfg.pageSize] := by
  induction n generalizing addr with
  | zero => simp [pageAddrs]
  | succ n ih =>
      have hlast : addr + cfg.pageSize + n * cfg.pageSize = addr + (n + 1) * cfg.pageSize := by
        rw [Nat.succ_mul]
        omega
      rw [pageAddrs, ih, hlast, pageAddrs]
      rfl

theorem pageAddrs_add (cfg : ShardLogConfig) (addr m n : Nat) :
    pageAddrs cfg addr (m + n) =
      pageAddrs cfg addr m ++ pageAddrs cfg (addr + m * cfg.pageSize) n := by
  induction m generalizing addr with
  | zero => simp [pageAddrs]
  | succ m ih =>
      have hnext : addr + cfg.pageSize + m * cfg.pageSize = addr + (m + 1) * cfg.pageSize := by
        rw [Nat.succ_mul]
        omega
      rw [Nat.succ_add, pageAddrs, ih, hnext, pageAddrs]
      rfl

theorem extent_of_mem {e a : Nat} (haligned : cfg.extentSize ∣ e)
    (ha : a ∈ pageAddrs cfg e cfg.pagesPerExtent) : a / cfg.extentSize * cfg.extentSize = e := by
  obtain ⟨i, hi, rfl⟩ := mem_pageAddrs.mp ha
  obtain ⟨q, rfl⟩ := haligned
  have hsize : i * cfg.pageSize < cfg.extentSize := Nat.mul_lt_mul_of_pos_right hi pageSize_pos
  rw [Nat.mul_add_div (Nat.lt_of_le_of_lt (Nat.zero_le _) hsize), Nat.div_eq_of_lt hsize,
    Nat.add_zero, Nat.mul_comm]

theorem extent_unique {e e' a : Nat} (he : cfg.extentSize ∣ e) (he' : cfg.extentSize ∣ e')
    (ha : a ∈ pageAddrs cfg e cfg.pagesPerExtent) (ha' : a ∈ pageAddrs cfg e' cfg.pagesPerExtent) :
    e = e' := (extent_of_mem he ha).symm.trans (extent_of_mem he' ha')

theorem mem_pageAddrs_of_le {e a m n : Nat} (h : m ≤ n) (ha : a ∈ pageAddrs cfg e m) :
    a ∈ pageAddrs cfg e n := by
  obtain ⟨i, hi, rfl⟩ := mem_pageAddrs.mp ha
  exact mem_pageAddrs.mpr ⟨i, Nat.lt_of_lt_of_le hi h, rfl⟩

/-- The pages taken so far: none, or all pages of some extents and the first pages of one more; and
the next extent behind them. -/
inductive Frontier (cfg : ShardLogConfig) (s : ShardLog τ) : Prop where
  | empty (hpages : s.pages = []) (hextents : s.extents = [s.nextExtent]) (haddr : s.nextAddr = 0)
  | inside (full : List Nat) (cur n : Nat) (hpos : 0 < n) (hle : n ≤ cfg.pagesPerExtent)
      (hpages : s.pages =
        full.flatMap (pageAddrs cfg · cfg.pagesPerExtent) ++ pageAddrs cfg cur n)
      (hextents : s.extents = full ++ [cur, s.nextExtent])
      (haddr : s.nextAddr = cur + n * cfg.pageSize)

/-! ## Records of a page -/

/-- The records lie one behind the other from the first offset to the last one. -/
def LaidOut (page : LogPage) : Nat → List LogEntry → Nat → Prop
  | offset, [], last => offset = last
  | offset, entry :: rest, last =>
      page.entryAt offset = entry ∧ LaidOut page (offset + entry.size) rest last

theorem size_pos (entry : LogEntry) : sizeofLogEntry ≤ entry.size := Nat.le_add_right _ _

section Records

variable {page page' : LogPage} {offset last : Nat} {records : List LogEntry}

theorem LaidOut.le (h : LaidOut page offset records last) :
    offset + sizeofLogEntry * records.length ≤ last := by
  induction records generalizing offset with
  | nil =>
      obtain rfl := h
      exact Nat.le_refl _
  | cons entry rest ih =>
      have hrest := ih h.2
      have hsize := size_pos entry
      rw [List.length_cons, Nat.mul_succ]
      omega

theorem LaidOut.congr (h : LaidOut page offset records last)
    (hsame : ∀ o, o < last → page'.entryAt o = page.entryAt o) :
    LaidOut page' offset records last := by
  induction records generalizing offset with
  | nil => exact h
  | cons entry rest ih =>
      have hle := h.2.le
      have hsize := size_pos entry
      have hpos : 0 < sizeofLogEntry := by decide
      exact ⟨(hsame offset (by omega)).trans h.1, ih h.2⟩

theorem LaidOut.snoc (h : LaidOut page offset records last) :
    LaidOut page offset (records ++ [page.entryAt last]) (last + (page.entryAt last).size) := by
  induction records generalizing offset with
  | nil =>
      obtain rfl := h
      exact ⟨rfl, rfl⟩
  | cons entry rest ih => exact ⟨h.1, ih h.2⟩

theorem LaidOut.readEntries_eq (h : LaidOut page offset records last) (hlast : last ≤ cfg.pageSize)
    (hend : terminalLogEntry cfg page last = true) {fuel : Nat} (hfuel : cfg.pageSize - offset ≤ fuel) :
    readEntries cfg page fuel offset =
      records.takeWhile fun entry => entry.generation != invalidGeneration := by
  induction records generalizing offset fuel with
  | nil =>
      obtain rfl := h
      cases fuel with
      | zero => rfl
      | succ fuel => rw [readEntries, if_pos hend, List.takeWhile_nil]
  | cons entry rest ih =>
      have hle := h.2.le
      have hsize := size_pos entry
      have hpos : 0 < sizeofLogEntry := by decide
      cases fuel with
      | zero => omega
      | succ fuel =>
          have hroom : ¬ cfg.pageSize - offset < sizeofLogEntry := by omega
          rw [readEntries, terminalLogEntry, h.1]
          by_cases hinvalid : entry.generation = invalidGeneration
          · rw [List.takeWhile_cons_of_neg (by simp [hinvalid])]
            simp [hinvalid]
          · rw [List.takeWhile_cons_of_pos (by simp [hinvalid]), ih h.2 (by omega)]
            simp [hinvalid, hroom]

end Records

/-! ## The invariant -/

/-- A page a thread writes to. -/
structure OpenPage (cfg : ShardLogConfig) (s : ShardLog τ) (a offset : Nat) : Prop where
  magic : (s.page a).magic = s.magic
  unsealed : (s.page a).checksumOk = false
  laidOut : LaidOut (s.page a) sizeofHdr (s.written a) offset
  le : offset ≤ cfg.pageSize
  numEntries : (s.page a).numEntries = (s.written a).length

/-- A page that was sealed has a record, and its records end where the loop over them ends. -/
structure SealedPage (cfg : ShardLogConfig) (s : ShardLog τ) (a offset : Nat) : Prop where
  laidOut : LaidOut (s.page a) sizeofHdr (s.written a) offset
  le : offset ≤ cfg.pageSize
  terminal : terminalLogEntry cfg (s.page a) offset = true
  numEntries : (s.page a).numEntries = (s.written a).length
  written : s.written a ≠ []

/-- **The invariant.** -/
structure LogInv (cfg : ShardLogConfig) (s : ShardLog τ) : Prop where
  frontier : Frontier cfg s
  aligned : ∀ e ∈ s.extents, cfg.extentSize ∣ e ∧ e ≠ 0
  nodup : s.extents.Nodup
  first : s.extents.head? = some s.addr
  linked : ∀ i e e', s.extents[i]? = some e → s.extents[i + 1]? = some e' →
    ∀ a ∈ pageAddrs cfg e cfg.pagesPerExtent, a ∈ s.pages → (s.page a).nextExtentAddr = e'
  opened : ∀ t a offset, s.thread t = some (a, offset) → a ∈ s.pages ∧ OpenPage cfg s a offset
  apart : ∀ t t' a offset offset', s.thread t = some (a, offset) →
    s.thread t' = some (a, offset') → t = t'
  closed : ∀ a ∈ s.pages, shardLogValid s.magic (s.page a) = true →
    ∃ offset, SealedPage cfg s a offset
  outside : ∀ a, a ∉ s.pages → shardLogValid s.magic (s.page a) = false

/-! ## Taking a page -/

section Frontier

variable {s : ShardLog τ} {t : τ} {extent : Nat}

theorem Frontier.used (h : Frontier cfg s) : ∃ used, s.extents = used ++ [s.nextExtent] ∧
    ∀ a ∈ s.pages, ∃ e ∈ used, a ∈ pageAddrs cfg e cfg.pagesPerExtent := by
  cases h with
  | empty hpages hextents haddr =>
      exact ⟨[], hextents, fun a ha => absurd ha (by rw [hpages]; exact List.not_mem_nil)⟩
  | inside full cur n hpos hle hpages hextents haddr =>
      refine ⟨full ++ [cur], by rw [hextents, List.append_assoc]; rfl, fun a ha => ?_⟩
      rw [hpages, List.mem_append, List.mem_flatMap] at ha
      rcases ha with ⟨e, he, ha⟩ | ha
      · exact ⟨e, List.mem_append_left _ he, ha⟩
      · exact ⟨cur, List.mem_append_right _ (List.mem_singleton_self _), mem_pageAddrs_of_le hle ha⟩

theorem nextAddr_mod {cur n : Nat} (haligned : cfg.extentSize ∣ cur) (hpos : 0 < n)
    (hle : n ≤ cfg.pagesPerExtent) :
    (cur + n * cfg.pageSize) % cfg.extentSize = 0 ↔ n = cfg.pagesPerExtent := by
  obtain ⟨q, rfl⟩ := haligned
  rw [Nat.mul_add_mod]
  rcases Nat.lt_or_eq_of_le hle with hlt | rfl
  · have hsize : n * cfg.pageSize < cfg.extentSize :=
      Nat.mul_lt_mul_of_pos_right hlt pageSize_pos
    have hnz : 0 < n * cfg.pageSize := Nat.mul_pos hpos pageSize_pos
    rw [Nat.mod_eq_of_lt hsize]
    omega
  · rw [ShardLogConfig.extentSize, Nat.mod_self]
    simp

/-- The extent in which `mini_alloc` takes a page, and what is known about it. -/
structure Taken (cfg : ShardLogConfig) (s s' : ShardLog τ) (x e : Nat) : Prop where
  mem : x ∈ pageAddrs cfg e cfg.pagesPerExtent
  new : x ∉ s.pages
  extent : e ∈ s.extents
  frontier : Frontier cfg { s' with pages := s.pages ++ [x] }
  next : ∀ i e', s'.extents[i]? = some e → s'.extents[i + 1]? = some e' → e' = s'.nextExtent
  older : ∀ i e₁ e', s'.extents[i]? = some e₁ → s'.extents[i + 1]? = some e' →
    (∃ a ∈ s.pages, a ∈ pageAddrs cfg e₁ cfg.pagesPerExtent) →
      s.extents[i]? = some e₁ ∧ s.extents[i + 1]? = some e'
  first : s'.extents.head? = s.extents.head?
  aligned : ∀ e ∈ s'.extents, cfg.extentSize ∣ e ∧ e ≠ 0
  nodup : s'.extents.Nodup

theorem next_of_nodup {l l₁ l₂ : List Nat} {e e' e₁ : Nat} {i : Nat} (hnodup : l.Nodup)
    (hl : l = l₁ ++ e :: e₁ :: l₂) (hi : l[i]? = some e) (hnext : l[i + 1]? = some e') : e' = e₁ := by
  have hat : l[l₁.length]? = some e := by rw [hl]; simp
  have hnext₁ : l[l₁.length + 1]? = some e₁ := by rw [hl]; simp
  obtain ⟨hlt, -⟩ := List.getElem?_eq_some_iff.mp hi
  obtain rfl := (List.getElem?_inj hlt hnodup).mp (hi.trans hat.symm)
  exact Option.some.inj (hnext.symm.trans hnext₁)

theorem taken_next (h : LogInv cfg s) (hx : s.nextAddr % cfg.extentSize = 0)
    (halloc : Allocates cfg s extent) :
    Taken cfg s (miniAlloc cfg s extent).2 s.nextExtent s.nextExtent := by
  obtain ⟨used, hused, hpages⟩ := h.frontier.used
  have hmem : s.nextExtent ∈ s.extents := by rw [hused]; simp
  have hself : s.nextExtent ∈ pageAddrs cfg s.nextExtent cfg.pagesPerExtent :=
    mem_pageAddrs.mpr ⟨0, cfg.pagesPerExtent_pos, by simp⟩
  have hnotUsed : s.nextExtent ∉ used := by
    have hnodup := h.nodup
    rw [hused, List.nodup_append] at hnodup
    exact fun hin => hnodup.2.2 _ hin _ (List.mem_singleton_self _) rfl
  have hresult : (miniAlloc cfg s extent).2 = { s with
      nextExtent := extent
      extents := s.extents ++ [extent]
      nextAddr := s.nextExtent + cfg.pageSize } := by
    rw [miniAlloc, if_pos hx]
  have hnodup : (s.extents ++ [extent]).Nodup := by
    rw [List.nodup_append]
    refine ⟨h.nodup, List.nodup_singleton _, fun a ha b hb => ?_⟩
    rw [List.mem_singleton] at hb
    subst hb
    exact fun heq => halloc.2.2 (heq ▸ ha)
  have hspread : s.extents ++ [extent] = used ++ s.nextExtent :: extent :: [] := by
    rw [hused, List.append_assoc]
    rfl
  rw [hresult]
  refine
    { mem := hself
      new := fun hin => ?_
      extent := hmem
      frontier := ?_
      next := fun i e' hi hnext => next_of_nodup hnodup hspread hi hnext
      older := fun i e₁ e' hi hnext hin => ?_
      first := ?_
      aligned := fun e he => ?_
      nodup := hnodup }
  · obtain ⟨e, he, ha⟩ := hpages _ hin
    have hextent : e ∈ s.extents := by rw [hused]; exact List.mem_append_left _ he
    rw [extent_unique (h.aligned _ hmem).1 (h.aligned e hextent).1 hself ha] at hnotUsed
    exact hnotUsed he
  · cases h.frontier with
    | empty hp hextents haddr =>
        refine .inside [] s.nextExtent 1 Nat.one_pos cfg.pagesPerExtent_pos ?_ ?_ (by simp)
        · change s.pages ++ [s.nextExtent] = _
          rw [hp]
          rfl
        · change s.extents ++ [extent] = _
          rw [hextents]
          rfl
    | inside full cur n hpos hle hp hextents haddr =>
        have hcur : cur ∈ s.extents := by rw [hextents]; simp
        rw [haddr, nextAddr_mod (h.aligned cur hcur).1 hpos hle] at hx
        subst hx
        refine .inside (full ++ [cur]) s.nextExtent 1 Nat.one_pos cfg.pagesPerExtent_pos ?_ ?_
          (by simp)
        · change s.pages ++ [s.nextExtent] = _
          rw [hp, List.flatMap_append, List.flatMap_singleton]
          rfl
        · change s.extents ++ [extent] = _
          rw [hextents]
          simp
  · obtain ⟨a, ha, hin⟩ := hin
    obtain ⟨e, he, ha'⟩ := hpages a ha
    have hextent : e ∈ s.extents := by rw [hused]; exact List.mem_append_left _ he
    have he₁ : e₁ ∈ s.extents ++ [extent] := List.mem_of_getElem? hi
    have haligned₁ : cfg.extentSize ∣ e₁ := by
      rcases List.mem_append.mp he₁ with hold | hnew
      · exact (h.aligned _ hold).1
      · rw [List.mem_singleton.mp hnew]
        exact halloc.1
    obtain rfl := extent_unique haligned₁ (h.aligned e hextent).1 hin ha'
    -- an extent with a page is followed by an extent the log had before
    obtain ⟨j, hj, rfl⟩ := List.mem_iff_getElem.mp he
    have hat : s.extents[j]? = some used[j] := by
      rw [hused, List.getElem?_append_left hj, List.getElem?_eq_getElem hj]
    have hlen : j + 1 < s.extents.length := by
      rw [hused, List.length_append, List.length_singleton]
      omega
    have hat' : (s.extents ++ [extent])[j]? = some used[j] := by
      rw [List.getElem?_append_left (by omega)]
      exact hat
    obtain ⟨hlt, -⟩ := List.getElem?_eq_some_iff.mp hi
    obtain rfl := (List.getElem?_inj hlt hnodup).mp (hi.trans hat'.symm)
    refine ⟨hat, ?_⟩
    change (s.extents ++ [extent])[i + 1]? = some e' at hnext
    rwa [List.getElem?_append_left hlen] at hnext
  · change (s.extents ++ [extent]).head? = _
    rw [hused]
    cases used with
    | nil => rfl
    | cons e rest => rfl
  · change e ∈ s.extents ++ [extent] at he
    rcases List.mem_append.mp he with hold | hnew
    · exact h.aligned e hold
    · rw [List.mem_singleton.mp hnew]
      exact ⟨halloc.1, halloc.2.1⟩

theorem taken_inside (h : LogInv cfg s) (hx : s.nextAddr % cfg.extentSize ≠ 0) :
    ∃ e, Taken cfg s (miniAlloc cfg s extent).2 s.nextAddr e := by
  have hresult : (miniAlloc cfg s extent).2 = { s with nextAddr := s.nextAddr + cfg.pageSize } := by
    rw [miniAlloc, if_neg hx]
  rw [hresult]
  cases h.frontier with
  | empty hp hextents haddr => exact absurd (by rw [haddr, Nat.zero_mod]) hx
  | inside full cur n hpos hle hp hextents haddr =>
      have hcur : cur ∈ s.extents := by rw [hextents]; simp
      have hlt : n < cfg.pagesPerExtent := by
        rw [haddr, ne_eq, nextAddr_mod (h.aligned cur hcur).1 hpos hle] at hx
        omega
      have hmem : s.nextAddr ∈ pageAddrs cfg cur cfg.pagesPerExtent :=
        mem_pageAddrs.mpr ⟨n, hlt, haddr⟩
      have hnodup := h.nodup
      rw [hextents, List.nodup_append] at hnodup
      refine ⟨cur,
        { mem := hmem
          new := fun hin => ?_
          extent := hcur
          frontier := .inside full cur (n + 1) (Nat.succ_pos n) hlt ?_ hextents ?_
          next := fun i e' hi hnext => next_of_nodup h.nodup hextents hi hnext
          older := fun i e₁ e' hi hnext _ => ⟨hi, hnext⟩
          first := rfl
          aligned := h.aligned
          nodup := h.nodup }⟩
      · rw [hp, List.mem_append, List.mem_flatMap] at hin
        rcases hin with ⟨e, he, ha⟩ | ha
        · have hextent : e ∈ s.extents := by rw [hextents]; exact List.mem_append_left _ he
          obtain rfl := extent_unique (h.aligned e hextent).1 (h.aligned cur hcur).1 ha hmem
          exact hnodup.2.2 e he e List.mem_cons_self rfl
        · obtain ⟨i, hi, heq⟩ := mem_pageAddrs.mp ha
          rw [haddr] at heq
          have := Nat.eq_of_mul_eq_mul_right pageSize_pos (Nat.add_left_cancel heq)
          omega
      · change s.pages ++ [s.nextAddr] = _
        rw [hp, pageAddrs_succ, haddr, List.append_assoc]
      · change s.nextAddr + cfg.pageSize = _
        rw [haddr, Nat.succ_mul]
        omega

theorem exists_taken (h : LogInv cfg s) (halloc : Allocates cfg s extent) :
    ∃ e, Taken cfg s (miniAlloc cfg s extent).2 (miniAlloc cfg s extent).1 e := by
  by_cases hx : s.nextAddr % cfg.extentSize = 0
  · have hfirst : (miniAlloc cfg s extent).1 = s.nextExtent := by rw [miniAlloc, if_pos hx]
    rw [hfirst]
    exact ⟨_, taken_next h hx halloc⟩
  · have hfirst : (miniAlloc cfg s extent).1 = s.nextAddr := by rw [miniAlloc, if_neg hx]
    rw [hfirst]
    exact taken_inside h hx

end Frontier

/-! ## One call -/

section Write

variable [DecidableEq τ] {s : ShardLog τ} {t : τ} {a offset extent : Nat} {entry : LogEntry}

def unmap (s : ShardLog τ) (t : τ) : ShardLog τ :=
  { s with thread := Function.update s.thread t none }

@[simp] theorem unmap_thread_self : (unmap s t).thread t = none := Function.update_self ..

theorem unmap_thread_eq_some {t' : τ} {p : Nat × Nat} (h : (unmap s t).thread t' = some p) :
    t' ≠ t ∧ s.thread t' = some p := by
  change Function.update s.thread t none t' = some p at h
  by_cases hne : t' = t
  · subst hne
    rw [Function.update_self] at h
    cases h
  · rw [Function.update_of_ne hne] at h
    exact ⟨hne, h⟩

theorem getNewPageForThread_unmap :
    getNewPageForThread cfg (unmap s t) t extent = getNewPageForThread cfg s t extent := by
  have halloc : miniAlloc cfg (unmap s t) extent =
      ((miniAlloc cfg s extent).1, unmap (miniAlloc cfg s extent).2 t) := by
    have hnext : (unmap s t).nextAddr = s.nextAddr := rfl
    unfold miniAlloc
    rw [hnext]
    split
    · rfl
    · rfl
  unfold getNewPageForThread
  rw [halloc]
  simp [unmap, ShardLog.setThread, ShardLog.setPage]

omit [DecidableEq τ] in
theorem OpenPage.frame {s' : ShardLog τ} (h : OpenPage cfg s a offset) (hmagic : s'.magic = s.magic)
    (hpage : s'.page a = s.page a) (hwritten : s'.written a = s.written a) :
    OpenPage cfg s' a offset where
  magic := by rw [hpage, hmagic, h.magic]
  unsealed := by rw [hpage, h.unsealed]
  laidOut := by rw [hpage, hwritten]; exact h.laidOut
  le := h.le
  numEntries := by rw [hpage, hwritten, h.numEntries]

omit [DecidableEq τ] in
theorem SealedPage.frame {s' : ShardLog τ} (h : SealedPage cfg s a offset)
    (hpage : s'.page a = s.page a) (hwritten : s'.written a = s.written a) :
    SealedPage cfg s' a offset where
  laidOut := by rw [hpage, hwritten]; exact h.laidOut
  le := h.le
  terminal := by rw [hpage, h.terminal]
  numEntries := by rw [hpage, hwritten, h.numEntries]
  written := by rw [hwritten]; exact h.written

theorem LogInv.seal (h : LogInv cfg s) (hthread : s.thread t = some (a, offset))
    (hwritten : s.written a ≠ []) : LogInv cfg (unmap (sealPage cfg s a offset) t) := by
  obtain ⟨hmem, hopen⟩ := h.opened t a offset hthread
  let page := (unmap (sealPage cfg s a offset) t).page a
  have hself : (unmap (sealPage cfg s a offset) t).page a = page := rfl
  have hother : ∀ b, b ≠ a → (unmap (sealPage cfg s a offset) t).page b = s.page b :=
    fun b hb => Function.update_of_ne hb ..
  -- the header and the records stay
  have hkept : page.magic = s.magic ∧ page.nextExtentAddr = (s.page a).nextExtentAddr ∧
      page.numEntries = (s.page a).numEntries ∧
      (∀ o, o < offset → page.entryAt o = (s.page a).entryAt o) ∧
      terminalLogEntry cfg page offset = true := by
    have hpage : page = (sealPage cfg s a offset).page a := rfl
    rw [hpage, sealPage, ShardLog.setPage]
    change ((Function.update s.page a _) a).magic = _ ∧ _
    simp only [Function.update_self]
    by_cases hroom : sizeofLogEntry ≤ cfg.pageSize - offset
    · rw [if_pos hroom]
      refine ⟨hopen.magic, rfl, rfl, fun o ho => Function.update_of_ne (Nat.ne_of_lt ho) .., ?_⟩
      simp [terminalLogEntry]
    · rw [if_neg hroom]
      refine ⟨hopen.magic, rfl, rfl, fun _ _ => rfl, ?_⟩
      rw [terminalLogEntry, decide_eq_true (Nat.not_le.mp hroom), Bool.true_or]
  obtain ⟨hmagic, hnext, hnum, hentries, hterminal⟩ := hkept
  refine
    { frontier := ?_
      aligned := h.aligned
      nodup := h.nodup
      first := h.first
      linked := fun i e e' hi hi' b hb hin => ?_
      opened := fun t' b o ht' => ?_
      apart := fun t₁ t₂ b o o' ht₁ ht₂ => ?_
      closed := fun b hb hvalid => ?_
      outside := fun b hb => ?_ }
  · cases h.frontier with
    | empty hpages hextents haddr => exact .empty hpages hextents haddr
    | inside full cur n hpos hle hpages hextents haddr =>
        exact .inside full cur n hpos hle hpages hextents haddr
  · by_cases hba : b = a
    · subst hba
      rw [hself, hnext]
      exact h.linked i e e' hi hi' b hb hin
    · rw [hother b hba]
      exact h.linked i e e' hi hi' b hb hin
  · obtain ⟨hne, hs⟩ := unmap_thread_eq_some ht'
    have hba : b ≠ a := by
      rintro rfl
      exact hne (h.apart t' t b o offset hs hthread)
    obtain ⟨hb, hopen'⟩ := h.opened t' b o hs
    exact ⟨hb, hopen'.frame rfl (hother b hba) rfl⟩
  · exact h.apart t₁ t₂ b o o' (unmap_thread_eq_some ht₁).2 (unmap_thread_eq_some ht₂).2
  · by_cases hba : b = a
    · subst hba
      exact ⟨offset,
        { laidOut := hopen.laidOut.congr hentries
          le := hopen.le
          terminal := hterminal
          numEntries := hnum.trans hopen.numEntries
          written := hwritten }⟩
    · rw [hother b hba] at hvalid
      obtain ⟨o, hsealed⟩ := h.closed b hb hvalid
      exact ⟨o, hsealed.frame (hother b hba) rfl⟩
  · have hba : b ≠ a := fun heq => hb (heq ▸ hmem)
    rw [hother b hba]
    exact h.outside b hb

theorem LogInv.newPage (h : LogInv cfg s) (hthread : s.thread t = none)
    (halloc : Allocates cfg s extent) :
    LogInv cfg (getNewPageForThread cfg s t extent) ∧
      ∃ x, (getNewPageForThread cfg s t extent).thread t = some (x, sizeofHdr) ∧
        (getNewPageForThread cfg s t extent).written x = [] := by
  obtain ⟨e, htaken⟩ := exists_taken h halloc
  let x := (miniAlloc cfg s extent).1
  let s₁ := (miniAlloc cfg s extent).2
  have hs₁ : s₁.magic = s.magic ∧ s₁.addr = s.addr ∧ s₁.thread = s.thread ∧ s₁.page = s.page ∧
      s₁.written = s.written := by
    by_cases hx : s.nextAddr % cfg.extentSize = 0
    · simp only [s₁, miniAlloc, if_pos hx, and_self]
    · simp only [s₁, miniAlloc, if_neg hx, and_self]
  obtain ⟨hmagic, haddr, hthreads, hpages, hwrites⟩ := hs₁
  have hself : (getNewPageForThread cfg s t extent).page x =
      ⟨false, s.magic, s₁.nextExtent, 0, (s.page x).entryAt⟩ := Function.update_self ..
  have hother : ∀ b, b ≠ x → (getNewPageForThread cfg s t extent).page b = s.page b := by
    intro b hb
    rw [← hpages]
    exact Function.update_of_ne hb ..
  have hwrittenSelf : (getNewPageForThread cfg s t extent).written x = [] :=
    Function.update_self ..
  have hwrittenOther : ∀ b, b ≠ x →
      (getNewPageForThread cfg s t extent).written b = s.written b :=
    fun b hb => Function.update_of_ne hb ..
  have hthreadSelf : (getNewPageForThread cfg s t extent).thread t = some (x, sizeofHdr) :=
    Function.update_self ..
  have hthreadOther : ∀ t', t' ≠ t →
      (getNewPageForThread cfg s t extent).thread t' = s.thread t' := by
    intro t' ht'
    rw [← hthreads]
    exact Function.update_of_ne ht' ..
  have hmagic' : (getNewPageForThread cfg s t extent).magic = s.magic := hmagic
  have hne : ∀ b ∈ s.pages, b ≠ x := by
    rintro b hb rfl
    exact htaken.new hb
  refine ⟨?_, x, hthreadSelf, hwrittenSelf⟩
  refine
    { frontier := ?_
      aligned := htaken.aligned
      nodup := htaken.nodup
      first := htaken.first.trans (h.first.trans (congrArg some haddr.symm))
      linked := fun i e₁ e' hi hi' b hb hin => ?_
      opened := fun t' b o ht' => ?_
      apart := fun t₁ t₂ b o o' ht₁ ht₂ => ?_
      closed := fun b hb hvalid => ?_
      outside := fun b hb => ?_ }
  · cases htaken.frontier with
    | empty hp hextents hnext => exact .empty hp hextents hnext
    | inside full cur n hpos hle hp hextents hnext =>
        exact .inside full cur n hpos hle hp hextents hnext
  · change b ∈ s.pages ++ [x] at hin
    by_cases hbx : b = x
    · subst hbx
      have haligned₁ := (htaken.aligned e₁ (List.mem_of_getElem? hi)).1
      obtain rfl := extent_unique haligned₁ (h.aligned e htaken.extent).1 hb htaken.mem
      rw [hself]
      exact (htaken.next i e' hi hi').symm
    · have hold : b ∈ s.pages := (List.mem_append.mp hin).resolve_right (by simpa using hbx)
      obtain ⟨hj, hj'⟩ := htaken.older i e₁ e' hi hi' ⟨b, hold, hb⟩
      rw [hother b hbx]
      exact h.linked i e₁ e' hj hj' b hb hold
  · change b ∈ s.pages ++ [x] ∧ _
    by_cases htt : t' = t
    · subst htt
      obtain ⟨rfl, rfl⟩ := Prod.mk.inj (Option.some.inj (hthreadSelf.symm.trans ht'))
      refine ⟨by simp,
        { magic := by rw [hself]; exact hmagic'.symm
          unsealed := by rw [hself]
          laidOut := by rw [hself, hwrittenSelf]; rfl
          le := cfg.hdr_le
          numEntries := by rw [hself, hwrittenSelf]; rfl }⟩
    · rw [hthreadOther t' htt] at ht'
      obtain ⟨hb, hopen⟩ := h.opened t' b o ht'
      exact ⟨List.mem_append_left _ hb,
        hopen.frame hmagic' (hother b (hne b hb)) (hwrittenOther b (hne b hb))⟩
  · by_cases h₁ : t₁ = t
    · by_cases h₂ : t₂ = t
      · exact h₁.trans h₂.symm
      · subst h₁
        obtain ⟨rfl, -⟩ := Prod.mk.inj (Option.some.inj (hthreadSelf.symm.trans ht₁))
        rw [hthreadOther t₂ h₂] at ht₂
        exact absurd rfl (hne _ (h.opened t₂ _ o' ht₂).1)
    · by_cases h₂ : t₂ = t
      · subst h₂
        obtain ⟨rfl, -⟩ := Prod.mk.inj (Option.some.inj (hthreadSelf.symm.trans ht₂))
        rw [hthreadOther t₁ h₁] at ht₁
        exact absurd rfl (hne _ (h.opened t₁ _ o ht₁).1)
      · rw [hthreadOther t₁ h₁] at ht₁
        rw [hthreadOther t₂ h₂] at ht₂
        exact h.apart t₁ t₂ b o o' ht₁ ht₂
  · change b ∈ s.pages ++ [x] at hb
    rw [hmagic'] at hvalid
    by_cases hbx : b = x
    · subst hbx
      rw [hself, shardLogValid, Bool.and_false] at hvalid
      cases hvalid
    · have hold : b ∈ s.pages := (List.mem_append.mp hb).resolve_right (by simpa using hbx)
      rw [hother b hbx] at hvalid
      obtain ⟨o, hsealed⟩ := h.closed b hold hvalid
      exact ⟨o, hsealed.frame (hother b hbx) (hwrittenOther b hbx)⟩
  · change b ∉ s.pages ++ [x] at hb
    rw [List.mem_append, not_or, List.mem_singleton] at hb
    rw [hmagic', hother b hb.2]
    exact h.outside b hb.1

theorem LogInv.append (h : LogInv cfg s) (hthread : s.thread t = some (a, offset))
    (hfits : entry.size ≤ cfg.pageSize - offset) : LogInv cfg (appendEntry s t a offset entry) := by
  obtain ⟨hmem, hopen⟩ := h.opened t a offset hthread
  have hself : (appendEntry s t a offset entry).page a =
      { s.page a with
        checksumOk := false
        entryAt := Function.update (s.page a).entryAt offset entry
        numEntries := ((s.page a).numEntries + 1) % 65536 } := Function.update_self ..
  have hother : ∀ b, b ≠ a → (appendEntry s t a offset entry).page b = s.page b :=
    fun b hb => Function.update_of_ne hb ..
  have hwrittenSelf : (appendEntry s t a offset entry).written a = s.written a ++ [entry] :=
    Function.update_self ..
  have hwrittenOther : ∀ b, b ≠ a → (appendEntry s t a offset entry).written b = s.written b :=
    fun b hb => Function.update_of_ne hb ..
  have hthreadSelf : (appendEntry s t a offset entry).thread t = some (a, offset + entry.size) :=
    Function.update_self ..
  have hthreadOther : ∀ t', t' ≠ t → (appendEntry s t a offset entry).thread t' = s.thread t' :=
    fun t' ht' => Function.update_of_ne ht' ..
  have hsize := size_pos entry
  have hpos : 0 < sizeofLogEntry := by decide
  have hle := hopen.le
  refine
    { frontier := ?_
      aligned := h.aligned
      nodup := h.nodup
      first := h.first
      linked := fun i e e' hi hi' b hb hin => ?_
      opened := fun t' b o ht' => ?_
      apart := fun t₁ t₂ b o o' ht₁ ht₂ => ?_
      closed := fun b hb hvalid => ?_
      outside := fun b hb => ?_ }
  · cases h.frontier with
    | empty hpages hextents haddr => exact .empty hpages hextents haddr
    | inside full cur n hpos hle hpages hextents haddr =>
        exact .inside full cur n hpos hle hpages hextents haddr
  · by_cases hba : b = a
    · subst hba
      rw [hself]
      exact h.linked i e e' hi hi' b hb hin
    · rw [hother b hba]
      exact h.linked i e e' hi hi' b hb hin
  · by_cases htt : t' = t
    · subst htt
      obtain ⟨rfl, rfl⟩ := Prod.mk.inj (Option.some.inj (hthreadSelf.symm.trans ht'))
      have hlaid : LaidOut ((appendEntry s t' a offset entry).page a) sizeofHdr (s.written a) offset := by
        rw [hself]
        exact hopen.laidOut.congr fun o ho => Function.update_of_ne (Nat.ne_of_lt ho) ..
      have hat : ((appendEntry s t' a offset entry).page a).entryAt offset = entry := by
        rw [hself]
        exact Function.update_self ..
      have hsnoc := hlaid.snoc
      rw [hat] at hsnoc
      have hcount := hsnoc.le
      rw [List.length_append, List.length_singleton] at hcount
      refine ⟨hmem,
        { magic := by rw [hself]; exact hopen.magic
          unsealed := by rw [hself]
          laidOut := by rw [hwrittenSelf]; exact hsnoc
          le := by omega
          numEntries := ?_ }⟩
      rw [hself, hwrittenSelf, List.length_append, List.length_singleton]
      change ((s.page a).numEntries + 1) % 65536 = _
      rw [hopen.numEntries]
      refine Nat.mod_eq_of_lt ?_
      have hpage := cfg.pageSize_le
      have hfourteen : sizeofLogEntry = 14 := rfl
      have hhdr : sizeofHdr = 34 := rfl
      rw [hfourteen, hhdr] at hcount
      omega
    · rw [hthreadOther t' htt] at ht'
      have hba : b ≠ a := by
        rintro rfl
        exact htt (h.apart t' t b o offset ht' hthread)
      obtain ⟨hb, hopen'⟩ := h.opened t' b o ht'
      exact ⟨hb, hopen'.frame rfl (hother b hba) (hwrittenOther b hba)⟩
  · have hold : ∀ {t' : τ} {b o : Nat}, (appendEntry s t a offset entry).thread t' = some (b, o) →
        ∃ o', s.thread t' = some (b, o') := by
      intro t' b o ht'
      by_cases htt : t' = t
      · subst htt
        obtain ⟨rfl, -⟩ := Prod.mk.inj (Option.some.inj (hthreadSelf.symm.trans ht'))
        exact ⟨offset, hthread⟩
      · exact ⟨o, (hthreadOther t' htt).symm.trans ht'⟩
    obtain ⟨o₁, h₁⟩ := hold ht₁
    obtain ⟨o₂, h₂⟩ := hold ht₂
    exact h.apart t₁ t₂ b o₁ o₂ h₁ h₂
  · by_cases hba : b = a
    · subst hba
      rw [hself, shardLogValid, Bool.and_false] at hvalid
      cases hvalid
    · rw [hother b hba] at hvalid
      obtain ⟨o, hsealed⟩ := h.closed b hb hvalid
      exact ⟨o, hsealed.frame (hother b hba) (hwrittenOther b hba)⟩
  · have hba : b ≠ a := fun heq => hb (heq ▸ hmem)
    rw [hother b hba]
    exact h.outside b hb

theorem LogInv.write (h : LogInv cfg s) (hfits : entry.size ≤ cfg.pageSize - sizeofHdr)
    (halloc : Allocates cfg s extent) : LogInv cfg (shardLogWrite cfg s t entry extent) := by
  cases hthread : s.thread t with
  | none =>
      obtain ⟨hinv, x, hx, -⟩ := h.newPage hthread halloc
      simp only [shardLogWrite, hthread, hx]
      rw [writeToPage, if_neg (Nat.not_lt.mpr hfits)]
      exact hinv.append hx hfits
  | some p =>
      obtain ⟨a, offset⟩ := p
      simp only [shardLogWrite, hthread]
      rw [writeToPage]
      by_cases hfull : cfg.pageSize - offset < entry.size
      · rw [if_pos hfull]
        obtain ⟨-, hopen⟩ := h.opened t a offset hthread
        have hwritten : s.written a ≠ [] := by
          intro hempty
          have hlaid := hopen.laidOut
          rw [hempty] at hlaid
          obtain rfl : sizeofHdr = offset := hlaid
          omega
        have halloc' : Allocates cfg (unmap (sealPage cfg s a offset) t) extent := halloc
        obtain ⟨hinv, x, hx, -⟩ := (h.seal hthread hwritten).newPage unmap_thread_self halloc'
        rw [getNewPageForThread_unmap] at hinv hx
        simp only [hx]
        exact hinv.append hx hfits
      · rw [if_neg hfull]
        exact h.append hthread (Nat.not_lt.mp hfull)

omit [DecidableEq τ] in
theorem IsNew.inv (h : IsNew cfg s) : LogInv cfg s where
  frontier := .empty h.pages (by rw [h.next.2.2, h.next.2.1]) h.next.1
  aligned := fun e he => by
    rw [h.next.2.2, List.mem_singleton] at he
    exact he ▸ h.extent
  nodup := by rw [h.next.2.2]; exact List.nodup_singleton _
  first := by rw [h.next.2.2]; rfl
  linked := fun i e e' hi hi' => by
    obtain ⟨hlt, -⟩ := List.getElem?_eq_some_iff.mp hi'
    rw [h.next.2.2] at hlt
    simp at hlt
  opened := fun t a offset ht => absurd ht (by rw [h.thread]; simp)
  apart := fun t t' a offset offset' ht => absurd ht (by rw [h.thread]; simp)
  closed := fun a ha => absurd ha (by rw [h.pages]; exact List.not_mem_nil)
  outside := fun a _ => h.page a

theorem logInv_of_reachable (h : (logSystem cfg τ).Reachable s) : LogInv cfg s :=
  h.invariant (fun _ hnew => IsNew.inv hnew) fun s a s' hinv hstep => by
    change logNext cfg s a = some s' at hstep
    rw [logNext, Option.ite_none_right_eq_some] at hstep
    obtain ⟨⟨hfits, halloc⟩, hwrite⟩ := hstep
    obtain rfl := Option.some.inj hwrite
    exact hinv.write hfits halloc

end Write

end Log
end TreePass
