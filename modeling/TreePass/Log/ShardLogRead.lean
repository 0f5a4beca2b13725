import TreePass.Log.ShardLogInv
import Mathlib.Data.List.TakeWhile

/-!
# Reading the sharded log

The iterator reads the sealed pages in front of the first page that is not sealed, up to the first
record with the invalid generation on each, and compares generations by the low 32 bits of their
difference.

* `sealedRecords` is what a drain is to return, `RoundTrips` says that it does.
* `Readable` is the condition on a log under which it does: `round_trips_iff_readable`.
* `round_trips_one_writer`, `round_trip_fails`: a log that meets it and one that does not.
-/

namespace TreePass
namespace Log

open Lib

variable {cfg : ShardLogConfig} {τ : Type} {s : ShardLog τ}

/-! ## What is to hold -/

def sealedRecords (s : ShardLog τ) : List LogEntry :=
  (s.pages.filter fun a => shardLogValid s.magic (s.page a)).flatMap s.written

/-- **The round trip**: whatever the sorting routine does beyond its promise, the iterator opens, and
a full drain returns the records on the sealed pages, each once, in the order of their generations. -/
def RoundTrips (cfg : ShardLogConfig) (s : ShardLog τ) (fuel : Nat) : Prop :=
  ∀ sort, SortsBy sort → ∃ itor out, shardLogIteratorInit cfg sort s fuel = .ok itor ∧
    itor.drain itor.numEntries = some out ∧ out.Perm (sealedRecords s) ∧
    out.Pairwise fun a b => a.generation.toNat ≤ b.generation.toNat

/-- No sealed page comes after one that is not sealed, no record has the invalid generation, and the
low 32 bits of the difference of two generations are positive as an `int`. -/
structure Readable (s : ShardLog τ) : Prop where
  in_front : s.pages.Pairwise fun a b =>
    shardLogValid s.magic (s.page b) = true → shardLogValid s.magic (s.page a) = true
  valid : ∀ r ∈ sealedRecords s, r.generation ≠ invalidGeneration
  close : ∀ a ∈ sealedRecords s, ∀ b ∈ sealedRecords s, a.generation.toNat < b.generation.toNat →
    0 < (b.generation.toNat - a.generation.toNat) % 4294967296 ∧
      (b.generation.toNat - a.generation.toNat) % 4294967296 < 2147483648

/-! ## Comparing generations -/

theorem shardLogCompare_eq (a b : LogEntry) :
    shardLogCompare a b =
      if 2 * ((18446744073709551616 - b.generation.toNat + a.generation.toNat) % 18446744073709551616 % 4294967296) < 4294967296 then
        (((18446744073709551616 - b.generation.toNat + a.generation.toNat) % 18446744073709551616 % 4294967296 : Nat) : Int)
      else (((18446744073709551616 - b.generation.toNat + a.generation.toNat) % 18446744073709551616 % 4294967296 : Nat) : Int) -
        4294967296 := by
  rw [shardLogCompare, BitVec.toInt_eq_toNat_cond, BitVec.toNat_setWidth, BitVec.toNat_sub]
  rfl

theorem shardLogCompare_self {a b : LogEntry} (h : a.generation.toNat = b.generation.toNat) :
    shardLogCompare a b = 0 := by
  have hlt := b.generation.isLt
  rw [shardLogCompare_eq, h]
  have hzero : (18446744073709551616 - b.generation.toNat + b.generation.toNat) % 18446744073709551616 % 4294967296 = 0 := by omega
  rw [hzero]
  rfl

theorem shardLogCompare_of_lt {a b : LogEntry} (h : a.generation.toNat < b.generation.toNat) :
    (0 < shardLogCompare b a ↔ 0 < (b.generation.toNat - a.generation.toNat) % 4294967296 ∧
      (b.generation.toNat - a.generation.toNat) % 4294967296 < 2147483648) ∧
    (shardLogCompare a b < 0 ↔ 0 < (b.generation.toNat - a.generation.toNat) % 4294967296 ∧
      (b.generation.toNat - a.generation.toNat) % 4294967296 ≤ 2147483648) := by
  have hlt := b.generation.isLt
  rw [shardLogCompare_eq, shardLogCompare_eq]
  generalize a.generation.toNat = x at *
  generalize b.generation.toNat = y at *
  constructor
  · split <;> omega
  · split <;> omega

theorem consistent_shardLogCompare_iff {l : List LogEntry} :
    (Consistent shardLogCompare l ∧ ∀ a ∈ l, ∀ b ∈ l,
      a.generation.toNat < b.generation.toNat → shardLogCompare a b < 0) ↔
    ∀ a ∈ l, ∀ b ∈ l, a.generation.toNat < b.generation.toNat →
      0 < (b.generation.toNat - a.generation.toNat) % 4294967296 ∧
        (b.generation.toNat - a.generation.toNat) % 4294967296 < 2147483648 := by
  constructor
  · rintro ⟨hcons, hneg⟩ a ha b hb hab
    exact (shardLogCompare_of_lt hab).1.mp ((hcons.symm b hb a ha).mpr (hneg a ha b hb hab))
  · intro hclose
    have hneg : ∀ a ∈ l, ∀ b ∈ l, a.generation.toNat < b.generation.toNat →
        shardLogCompare a b < 0 ∧ 0 < shardLogCompare b a := fun a ha b hb hab =>
      have hspread := hclose a ha b hb hab
      ⟨(shardLogCompare_of_lt hab).2.mpr ⟨hspread.1, Nat.le_of_lt hspread.2⟩,
        (shardLogCompare_of_lt hab).1.mpr hspread⟩
    have hle : ∀ a ∈ l, ∀ b ∈ l,
        (shardLogCompare a b ≤ 0 ↔ a.generation.toNat ≤ b.generation.toNat) := by
      intro a ha b hb
      rcases Nat.lt_trichotomy a.generation.toNat b.generation.toNat with hab | hab | hab
      · have := hneg a ha b hb hab
        omega
      · rw [shardLogCompare_self hab]
        omega
      · have := hneg b hb a ha hab
        omega
    refine ⟨⟨fun a ha b hb => ?_, fun a ha b hb c hc hab hbc => ?_⟩,
      fun a ha b hb hab => (hneg a ha b hb hab).1⟩
    · rcases Nat.lt_trichotomy a.generation.toNat b.generation.toNat with hab | hab | hab
      · have := hneg a ha b hb hab
        omega
      · rw [shardLogCompare_self hab, shardLogCompare_self hab.symm]
      · have := hneg b hb a ha hab
        omega
    · rw [hle a ha b hb] at hab
      rw [hle b hb c hc] at hbc
      exact (hle a ha c hc).mpr (Nat.le_trans hab hbc)

/-! ## The two passes -/

section Pass

variable {β : Type} (visit : β → LogPage → β) {acc : β} {e' : Nat}

def isSealed (s : ShardLog τ) (a : Nat) : Bool := shardLogValid s.magic (s.page a)

theorem extentLoop_all {n addr next : Nat} (hsealed : ∀ a ∈ pageAddrs cfg addr n, isSealed s a = true)
    (hnext : ∀ a ∈ pageAddrs cfg addr n, (s.page a).nextExtentAddr = e')
    (hzero : n = 0 → next = e') :
    extentLoop cfg s visit n addr next acc =
      (false, e', (pageAddrs cfg addr n).foldl (fun acc a => visit acc (s.page a)) acc) := by
  induction n generalizing addr next acc with
  | zero => rw [hzero rfl]; rfl
  | succ n ih =>
      have hfirst : shardLogValid s.magic (s.page addr) = true := hsealed addr List.mem_cons_self
      rw [extentLoop, if_pos hfirst, hnext addr List.mem_cons_self,
        ih (fun a ha => hsealed a (List.mem_cons_of_mem _ ha))
          (fun a ha => hnext a (List.mem_cons_of_mem _ ha)) fun _ => rfl]
      rfl

theorem extentLoop_some {n addr next : Nat}
    (hsealed : ¬ ∀ a ∈ pageAddrs cfg addr n, isSealed s a = true) :
    extentLoop cfg s visit n addr next acc =
      (true, 0, ((pageAddrs cfg addr n).takeWhile (isSealed s)).foldl
        (fun acc a => visit acc (s.page a)) acc) := by
  induction n generalizing addr next acc with
  | zero => exact absurd (fun a ha => absurd ha List.not_mem_nil) hsealed
  | succ n ih =>
      rw [extentLoop, pageAddrs]
      cases hfirst : isSealed s addr with
      | false =>
          rw [List.takeWhile_cons_of_neg (by simp [hfirst])]
          have hvalid : shardLogValid s.magic (s.page addr) = false := hfirst
          simp only [hvalid, Bool.false_eq_true, if_false, List.foldl_nil]
      | true =>
          rw [List.takeWhile_cons_of_pos hfirst, ih]
          · have hvalid : shardLogValid s.magic (s.page addr) = true := hfirst
            simp only [hvalid, if_true, List.foldl_cons]
          · refine fun hall => hsealed fun a ha => ?_
            rcases List.mem_cons.mp ha with rfl | ha
            · exact hfirst
            · exact hall a ha

theorem pass_eq {rest : List Nat} {e fuel : Nat} (hfuel : (e :: rest).length ≤ fuel)
    (hextents : ∀ e' ∈ e :: rest, e' ≠ 0 ∧ e' ∈ s.extents)
    (hlinks : (e :: rest).IsChain fun e e' =>
      ∀ a ∈ pageAddrs cfg e cfg.pagesPerExtent, isSealed s a = true → (s.page a).nextExtentAddr = e')
    (hlast : isSealed s ((e :: rest).getLast (List.cons_ne_nil _ _)) = false) :
    pass cfg s visit fuel e acc =
      some ((((e :: rest).flatMap (pageAddrs cfg · cfg.pagesPerExtent)).takeWhile
        (isSealed s)).foldl (fun acc a => visit acc (s.page a)) acc) := by
  induction rest generalizing e fuel acc with
  | nil =>
      obtain ⟨fuel, rfl⟩ : ∃ n, fuel = n + 1 := ⟨fuel - 1, by simp at hfuel; omega⟩
      have hin := hextents e List.mem_cons_self
      have hfirst : e ∈ pageAddrs cfg e cfg.pagesPerExtent :=
        mem_pageAddrs.mpr ⟨0, cfg.pagesPerExtent_pos, by simp⟩
      have hnot : ¬ ∀ a ∈ pageAddrs cfg e cfg.pagesPerExtent, isSealed s a = true := by
        intro hall
        have hsealed := hall e hfirst
        rw [List.getLast_singleton] at hlast
        rw [hlast] at hsealed
        cases hsealed
      rw [pass, if_neg (by simp [hin]), extentLoop_some visit hnot, List.flatMap_singleton]
  | cons e₁ rest ih =>
      obtain ⟨fuel, rfl⟩ : ∃ n, fuel = n + 1 := ⟨fuel - 1, by simp at hfuel; omega⟩
      have hin := hextents e List.mem_cons_self
      obtain ⟨hlink, hrest⟩ := List.isChain_cons_cons.mp hlinks
      rw [pass, if_neg (by simp [hin]), List.flatMap_cons, List.takeWhile_append]
      by_cases hall : ∀ a ∈ pageAddrs cfg e cfg.pagesPerExtent, isSealed s a = true
      · have hwhole : (pageAddrs cfg e cfg.pagesPerExtent).takeWhile (isSealed s) =
            pageAddrs cfg e cfg.pagesPerExtent := List.takeWhile_eq_self_iff.mpr hall
        rw [extentLoop_all visit hall (fun a ha => hlink a ha (hall a ha))
          fun hzero => absurd hzero (Nat.ne_of_gt cfg.pagesPerExtent_pos)]
        rw [if_pos (by rw [hwhole]), List.foldl_append]
        exact ih (Nat.le_of_succ_le_succ hfuel) (fun e' he' => hextents e' (List.mem_cons_of_mem _ he'))
          hrest (by rwa [List.getLast_cons (List.cons_ne_nil _ _)] at hlast)
      · rw [extentLoop_some visit hall, if_neg]
        intro hlen
        refine hall fun a ha => ?_
        have hwhole := (List.takeWhile_prefix (isSealed s)).eq_of_length hlen
        rw [← hwhole] at ha
        exact List.mem_takeWhile_imp ha

theorem LogInv.mem_of_sealed (h : LogInv cfg s) {a : Nat} (ha : isSealed s a = true) : a ∈ s.pages := by
  by_contra hout
  have hfalse : isSealed s a = false := h.outside a hout
  rw [hfalse] at ha
  cases ha

theorem LogInv.nextExtent_unsealed (h : LogInv cfg s) : isSealed s s.nextExtent = false := by
  obtain ⟨used, hused, hpages⟩ := h.frontier.used
  have hnext : s.nextExtent ∈ s.extents := by rw [hused]; simp
  have hnodup := h.nodup
  rw [hused, List.nodup_append] at hnodup
  cases hsealed : isSealed s s.nextExtent with
  | false => rfl
  | true =>
      obtain ⟨e, he, ha⟩ := hpages _ (h.mem_of_sealed hsealed)
      have hself : s.nextExtent ∈ pageAddrs cfg s.nextExtent cfg.pagesPerExtent :=
        mem_pageAddrs.mpr ⟨0, cfg.pagesPerExtent_pos, by simp⟩
      have hextent : e ∈ s.extents := by rw [hused]; exact List.mem_append_left _ he
      obtain rfl := extent_unique (h.aligned _ hnext).1 (h.aligned e hextent).1 hself ha
      exact absurd rfl (hnodup.2.2 _ he _ (List.mem_singleton_self _))

theorem LogInv.nextAddr_unsealed (h : LogInv cfg s) {full : List Nat} {cur n : Nat}
    (hlt : n < cfg.pagesPerExtent)
    (hpages : s.pages = full.flatMap (pageAddrs cfg · cfg.pagesPerExtent) ++ pageAddrs cfg cur n)
    (hextents : s.extents = full ++ [cur, s.nextExtent]) :
    isSealed s (cur + n * cfg.pageSize) = false := by
  have hcur : cur ∈ s.extents := by rw [hextents]; simp
  have hself : cur + n * cfg.pageSize ∈ pageAddrs cfg cur cfg.pagesPerExtent :=
    mem_pageAddrs.mpr ⟨n, hlt, rfl⟩
  have hnodup := h.nodup
  rw [hextents, List.nodup_append] at hnodup
  cases hsealed : isSealed s (cur + n * cfg.pageSize) with
  | false => rfl
  | true =>
      have hin := h.mem_of_sealed hsealed
      rw [hpages, List.mem_append, List.mem_flatMap] at hin
      rcases hin with ⟨e, he, ha⟩ | ha
      · have hextent : e ∈ s.extents := by rw [hextents]; exact List.mem_append_left _ he
        obtain rfl := extent_unique (h.aligned e hextent).1 (h.aligned cur hcur).1 ha hself
        exact absurd rfl (hnodup.2.2 e he e List.mem_cons_self)
      · obtain ⟨i, hi, heq⟩ := mem_pageAddrs.mp ha
        have := Nat.eq_of_mul_eq_mul_right pageSize_pos (Nat.add_left_cancel heq)
        omega

theorem pageAddrs_eq_cons (cfg : ShardLogConfig) (addr : Nat) {n : Nat} (h : 0 < n) :
    pageAddrs cfg addr n = addr :: pageAddrs cfg (addr + cfg.pageSize) (n - 1) := by
  obtain ⟨n, rfl⟩ : ∃ k, n = k + 1 := ⟨n - 1, by omega⟩
  rfl

theorem LogInv.extents_pages (h : LogInv cfg s) :
    ∃ a more, s.extents.flatMap (pageAddrs cfg · cfg.pagesPerExtent) = s.pages ++ a :: more ∧
      isSealed s a = false := by
  have hnext := pageAddrs_eq_cons cfg s.nextExtent cfg.pagesPerExtent_pos
  cases h.frontier with
  | empty hp hextents haddr =>
      refine ⟨s.nextExtent, pageAddrs cfg (s.nextExtent + cfg.pageSize) (cfg.pagesPerExtent - 1), ?_,
        h.nextExtent_unsealed⟩
      rw [hp, hextents, List.flatMap_singleton, List.nil_append]
      exact hnext
  | inside full cur n hpos hle hp hextents haddr =>
      have hsplit := pageAddrs_add cfg cur n (cfg.pagesPerExtent - n)
      rw [Nat.add_sub_cancel' hle] at hsplit
      rcases Nat.eq_or_lt_of_le hle with rfl | hlt
      · refine ⟨s.nextExtent, pageAddrs cfg (s.nextExtent + cfg.pageSize)
          (cfg.pagesPerExtent - 1), ?_, h.nextExtent_unsealed⟩
        rw [hp, hextents, List.flatMap_append, List.flatMap_cons, List.flatMap_singleton,
          List.append_assoc]
        exact congrArg (fun l => _ ++ (_ ++ l)) hnext
      · refine ⟨cur + n * cfg.pageSize, pageAddrs cfg (cur + n * cfg.pageSize + cfg.pageSize)
          (cfg.pagesPerExtent - n - 1) ++ pageAddrs cfg s.nextExtent cfg.pagesPerExtent, ?_,
          h.nextAddr_unsealed hlt hp hextents⟩
        rw [hp, hextents, List.flatMap_append, List.flatMap_cons, List.flatMap_singleton, hsplit,
          pageAddrs_eq_cons cfg (cur + n * cfg.pageSize) (by omega)]
        simp only [List.append_assoc, List.cons_append]

theorem LogInv.pass_eq (h : LogInv cfg s) {fuel : Nat} (hfuel : s.extents.length ≤ fuel) :
    pass cfg s visit fuel s.addr acc =
      some ((s.pages.takeWhile (isSealed s)).foldl (fun acc a => visit acc (s.page a)) acc) := by
  have hprefix : (s.extents.flatMap (pageAddrs cfg · cfg.pagesPerExtent)).takeWhile (isSealed s) =
      s.pages.takeWhile (isSealed s) := by
    obtain ⟨a, more, hall, ha⟩ := h.extents_pages
    rw [hall, List.takeWhile_append, List.takeWhile_cons_of_neg (by simp [ha])]
    split
    next hlen =>
      rw [(List.takeWhile_prefix (isSealed s)).eq_of_length hlen, List.append_nil]
    next => rfl
  obtain ⟨used, hused, -⟩ := h.frontier.used
  obtain ⟨e, rest, hlist⟩ : ∃ e rest, s.extents = e :: rest := by
    cases hlist : s.extents with
    | nil => simp [hlist] at hused
    | cons e rest => exact ⟨e, rest, rfl⟩
  have haddr : e = s.addr := by
    have hhead := h.first
    rw [hlist] at hhead
    exact Option.some.inj hhead
  rw [← hprefix, hlist, ← haddr]
  refine Log.pass_eq visit (by rw [← hlist]; exact hfuel) (fun e' he' => ?_) ?_ ?_
  · rw [← hlist] at he'
    exact ⟨(h.aligned e' he').2, he'⟩
  · rw [← hlist, List.isChain_iff_getElem]
    intro i hi a ha hsealed
    exact h.linked i _ _ (List.getElem?_eq_getElem _) (List.getElem?_eq_getElem _) a ha
      (h.mem_of_sealed hsealed)
  · have hall : e :: rest = used ++ [s.nextExtent] := by rw [← hlist, hused]
    have hlast : (e :: rest).getLast (List.cons_ne_nil _ _) = s.nextExtent :=
      (List.getLast_congr _ (by simp) hall).trans (by simp)
    rw [hlast]
    exact h.nextExtent_unsealed

end Pass

/-! ## The iterator -/

def pagesInFront (s : ShardLog τ) : List Nat := s.pages.takeWhile (isSealed s)

def recordsInFront (s : ShardLog τ) : List LogEntry := (pagesInFront s).flatMap s.written

theorem LogInv.sealedPage (h : LogInv cfg s) {a : Nat} (ha : a ∈ pagesInFront s) :
    ∃ offset, SealedPage cfg s a offset := by
  have hsealed : isSealed s a = true := List.mem_takeWhile_imp ha
  exact h.closed a ((List.takeWhile_subset _) ha) hsealed

theorem LogInv.numEntries_eq (h : LogInv cfg s) {fuel : Nat} (hfuel : s.extents.length ≤ fuel) :
    pass cfg s (fun n page => n + page.numEntries) fuel s.addr 0 =
      some (recordsInFront s).length := by
  rw [h.pass_eq _ hfuel, recordsInFront]
  have hcount : ∀ (l : List Nat) (n : Nat), (∀ a ∈ l, ∃ offset, SealedPage cfg s a offset) →
      l.foldl (fun n a => n + (s.page a).numEntries) n = n + (l.flatMap s.written).length := by
    intro l
    induction l with
    | nil => intro n _; rfl
    | cons a l ih =>
        intro n hl
        obtain ⟨offset, hsealed⟩ := hl a List.mem_cons_self
        rw [List.foldl_cons, ih _ fun b hb => hl b (List.mem_cons_of_mem _ hb), hsealed.numEntries,
          List.flatMap_cons, List.length_append, Nat.add_assoc]
  have hall := hcount (pagesInFront s) 0 fun a ha => h.sealedPage ha
  rw [Nat.zero_add] at hall
  exact congrArg some hall

/-- The part of a page in front of the first record with the invalid generation. -/
def validPart (records : List LogEntry) : List LogEntry :=
  records.takeWhile fun entry => entry.generation != invalidGeneration

theorem LogInv.entries_eq (h : LogInv cfg s) {fuel : Nat} (hfuel : s.extents.length ≤ fuel) :
    pass cfg s (fun acc page => acc ++ pageEntries cfg page) fuel s.addr [] =
      some ((pagesInFront s).flatMap fun a => validPart (s.written a)) := by
  rw [h.pass_eq _ hfuel]
  have hcopy : ∀ (l : List Nat) (acc : List LogEntry),
      (∀ a ∈ l, ∃ offset, SealedPage cfg s a offset) →
      l.foldl (fun acc a => acc ++ pageEntries cfg (s.page a)) acc =
        acc ++ l.flatMap fun a => validPart (s.written a) := by
    intro l
    induction l with
    | nil => intro acc _; exact (List.append_nil acc).symm
    | cons a l ih =>
        intro acc hl
        obtain ⟨offset, hsealed⟩ := hl a List.mem_cons_self
        have hpage : pageEntries cfg (s.page a) = validPart (s.written a) :=
          hsealed.laidOut.readEntries_eq hsealed.le hsealed.terminal (Nat.le_refl _)
        rw [List.foldl_cons, ih _ fun b hb => hl b (List.mem_cons_of_mem _ hb), hpage,
          List.flatMap_cons, List.append_assoc]
  exact congrArg some ((hcopy (pagesInFront s) [] fun a ha => h.sealedPage ha).trans
    (List.nil_append _))

theorem validPart_eq_self {records : List LogEntry} :
    validPart records = records ↔ ∀ r ∈ records, r.generation ≠ invalidGeneration := by
  rw [validPart, List.takeWhile_eq_self_iff]
  simp

theorem length_validPart_le (records : List LogEntry) :
    (validPart records).length ≤ records.length := (List.takeWhile_prefix _).length_le

theorem length_flatMap_validPart {l : List Nat} {written : Nat → List LogEntry} :
    (l.flatMap fun a => validPart (written a)).length = (l.flatMap written).length ↔
      ∀ r ∈ l.flatMap written, r.generation ≠ invalidGeneration := by
  have hle : ∀ l : List Nat,
      (l.flatMap fun a => validPart (written a)).length ≤ (l.flatMap written).length := by
    intro l
    induction l with
    | nil => exact Nat.le_refl _
    | cons a l ih =>
        rw [List.flatMap_cons, List.flatMap_cons, List.length_append, List.length_append]
        exact Nat.add_le_add (length_validPart_le _) ih
  induction l with
  | nil => simp
  | cons a l ih =>
      have hhead := length_validPart_le (written a)
      have htail := hle l
      rw [List.flatMap_cons, List.flatMap_cons, List.length_append, List.length_append]
      constructor
      · intro hlen r hr
        have hboth : (validPart (written a)).length = (written a).length ∧
            (l.flatMap fun a => validPart (written a)).length = (l.flatMap written).length := by
          omega
        rcases List.mem_append.mp hr with hr | hr
        · exact validPart_eq_self.mp ((List.takeWhile_prefix _).eq_of_length hboth.1) r hr
        · exact ih.mp hboth.2 r hr
      · intro hall
        rw [validPart_eq_self.mpr fun r hr => hall r (List.mem_append_left _ hr),
          ih.mpr fun r hr => hall r (List.mem_append_right _ hr)]

/-- **The iterator** of a log: it opens exactly when no record it reads has the invalid generation,
and then sorts the records on the pages it reads. -/
theorem LogInv.init_eq (h : LogInv cfg s) {fuel : Nat} (hfuel : s.extents.length ≤ fuel)
    (sort : (LogEntry → LogEntry → Int) → List LogEntry → List LogEntry) :
    shardLogIteratorInit cfg sort s fuel =
      if ∀ r ∈ recordsInFront s, r.generation ≠ invalidGeneration then
        .ok ⟨sort shardLogCompare (recordsInFront s), (recordsInFront s).length, 0⟩
      else .error .uninitialized := by
  rw [shardLogIteratorInit, h.numEntries_eq hfuel, h.entries_eq hfuel]
  by_cases hvalid : ∀ r ∈ recordsInFront s, r.generation ≠ invalidGeneration
  · have hsame : ((pagesInFront s).flatMap fun a => validPart (s.written a)) = recordsInFront s := by
      refine List.flatMap_congr fun a ha => validPart_eq_self.mpr fun r hr => hvalid r ?_
      exact List.mem_flatMap.mpr ⟨a, ha, hr⟩
    simp only [hsame, if_true, if_pos hvalid]
  · have hshort : ¬ ((pagesInFront s).flatMap fun a => validPart (s.written a)).length =
        (recordsInFront s).length := mt length_flatMap_validPart.mp hvalid
    rw [if_neg hvalid]
    simp only
    rw [if_neg hshort]

theorem drain_eq {l : List LogEntry} {n pos : Nat} (hle : pos + n = l.length) :
    (ShardLogIterator.mk l l.length pos).drain n = some (l.drop pos) := by
  induction n generalizing pos with
  | zero =>
      have hend : ¬ pos < l.length := by omega
      rw [ShardLogIterator.drain, ShardLogIterator.canNext, if_neg (by simp [hend]),
        List.drop_eq_nil_of_le (by omega)]
  | succ n ih =>
      have hlt : pos < l.length := by omega
      rw [ShardLogIterator.drain, ShardLogIterator.canNext, if_pos (by simp [hlt]),
        List.drop_eq_getElem_cons hlt]
      have hrest : pos + 1 + n = l.length := by omega
      have hnext : (ShardLogIterator.mk l l.length pos).next.drain n = some (l.drop (pos + 1)) :=
        ih hrest
      simp only [ShardLogIterator.curr, List.getElem?_eq_getElem hlt, Option.bind_some, hnext,
        Option.map_some]

theorem sealedRecords_eq (s : ShardLog τ) :
    sealedRecords s = recordsInFront s ++
      ((s.pages.dropWhile (isSealed s)).filter (isSealed s)).flatMap s.written := by
  have hfront : (pagesInFront s).filter (isSealed s) = pagesInFront s :=
    List.filter_eq_self.mpr fun a ha => List.mem_takeWhile_imp ha
  have hall : (pagesInFront s ++ s.pages.dropWhile (isSealed s)).filter (isSealed s) =
      s.pages.filter (isSealed s) := by
    rw [pagesInFront, List.takeWhile_append_dropWhile]
  rw [List.filter_append, hfront] at hall
  rw [sealedRecords, recordsInFront, ← List.flatMap_append]
  exact congrArg (List.flatMap s.written) hall.symm

theorem in_front_iff {l : List Nat} {p : Nat → Bool} :
    (l.Pairwise fun a b => p b = true → p a = true) ↔ (l.dropWhile p).filter p = [] := by
  induction l with
  | nil => simp
  | cons a l ih =>
      rw [List.pairwise_cons]
      cases ha : p a with
      | true =>
          rw [List.dropWhile_cons_of_pos ha, ← ih]
          exact ⟨fun h => h.2, fun h => ⟨fun _ _ _ => rfl, h⟩⟩
      | false =>
          rw [List.dropWhile_cons_of_neg (by simp [ha]), List.filter_cons_of_neg (by simp [ha]),
            List.filter_eq_nil_iff]
          constructor
          · rintro ⟨hnone, -⟩ b hb hsealed
            exact absurd (hnone b hb hsealed) (by simp)
          · intro hnone
            refine ⟨fun b hb hsealed => absurd hsealed (hnone b hb), ?_⟩
            exact List.pairwise_of_forall_mem_list fun _ _ b hb hsealed =>
              absurd hsealed (hnone b hb)

/-- **When a log can be read back**: the drain of a new iterator returns the records on the sealed
pages once each and in the order of their generations, exactly when the log is `Readable`. -/
theorem LogInv.round_trips_iff (h : LogInv cfg s) {fuel : Nat} (hfuel : s.extents.length ≤ fuel) :
    RoundTrips cfg s fuel ↔ Readable s := by
  constructor
  · intro htrip
    have hopen : ∀ sort, SortsBy sort → ∃ out,
        (∀ r ∈ recordsInFront s, r.generation ≠ invalidGeneration) ∧
        (ShardLogIterator.mk (sort shardLogCompare (recordsInFront s))
          (recordsInFront s).length 0).drain (recordsInFront s).length = some out ∧
        out.Perm (sealedRecords s) ∧
        out.Pairwise fun a b => a.generation.toNat ≤ b.generation.toNat := by
      intro sort hsort
      obtain ⟨itor, out, hinit, hdrain, hperm, hsorted⟩ := htrip sort hsort
      rw [h.init_eq hfuel] at hinit
      split at hinit
      next hvalid =>
        obtain rfl := Except.ok.inj hinit
        exact ⟨out, hvalid, hdrain, hperm, hsorted⟩
      next => cases hinit
    obtain ⟨out, hvalid, hdrain, hperm, -⟩ := hopen _ (sortsBy_sortFrom (recordsInFront s))
    have hcons : Consistent shardLogCompare (recordsInFront s) := by
      by_contra hnot
      rw [sortFrom_of_not_consistent hnot] at hdrain
      obtain ⟨n, hn⟩ : ∃ n, (recordsInFront s).length = n + 1 :=
        ⟨(recordsInFront s).length - 1, by
          have := List.length_pos_of_ne_nil (ne_nil_of_not_consistent hnot)
          omega⟩
      rw [hn] at hdrain
      simp [ShardLogIterator.drain, ShardLogIterator.canNext, ShardLogIterator.curr] at hdrain
    have hsorted : ∀ sort, SortsBy sort →
        (sort shardLogCompare (recordsInFront s)).Perm (recordsInFront s) ∧
        (sort shardLogCompare (recordsInFront s)).Perm (sealedRecords s) ∧
        (sort shardLogCompare (recordsInFront s)).Pairwise
          fun a b => a.generation.toNat ≤ b.generation.toNat := by
      intro sort hsort
      obtain ⟨out, -, hdrain, hperm, hsorted⟩ := hopen sort hsort
      have hself := (hsort _ _ hcons).1
      rw [← hself.length_eq, drain_eq (Nat.zero_add _), List.drop_zero] at hdrain
      obtain rfl := Option.some.inj hdrain
      exact ⟨hself, hperm, hsorted⟩
    obtain ⟨hself, hall, -⟩ := hsorted _ (sortsBy_sortFrom (recordsInFront s))
    have hlen := (hself.symm.trans hall).length_eq
    rw [sealedRecords_eq, List.length_append] at hlen
    have hnone : (s.pages.dropWhile (isSealed s)).filter (isSealed s) = [] := by
      cases hbehind : (s.pages.dropWhile (isSealed s)).filter (isSealed s) with
      | nil => rfl
      | cons a rest =>
          have hin : a ∈ (s.pages.dropWhile (isSealed s)).filter (isSealed s) := by
            rw [hbehind]
            exact List.mem_cons_self
          obtain ⟨hpage, hsealed⟩ := List.mem_filter.mp hin
          obtain ⟨offset, hclosed⟩ := h.closed a ((List.dropWhile_subset _) hpage) hsealed
          have hpos := List.length_pos_of_ne_nil hclosed.written
          rw [hbehind, List.flatMap_cons, List.length_append] at hlen
          omega
    have hsame : sealedRecords s = recordsInFront s := by
      rw [sealedRecords_eq, hnone, List.flatMap_nil, List.append_nil]
    refine ⟨in_front_iff.mpr hnone, by rw [hsame]; exact hvalid, ?_⟩
    rw [hsame]
    exact consistent_shardLogCompare_iff.mp ((sorts_by_key_iff fun r : LogEntry =>
      r.generation.toNat).mp fun sort hsort => ⟨(hsorted sort hsort).1, (hsorted sort hsort).2.2⟩)
  · intro hread sort hsort
    have hnone : (s.pages.dropWhile (isSealed s)).filter (isSealed s) = [] :=
      in_front_iff.mp hread.in_front
    have hsame : sealedRecords s = recordsInFront s := by
      rw [sealedRecords_eq, hnone, List.flatMap_nil, List.append_nil]
    have hvalid := hread.valid
    have hclose := hread.close
    rw [hsame] at hvalid hclose
    obtain ⟨hperm, hsorted⟩ := (sorts_by_key_iff fun r : LogEntry => r.generation.toNat).mpr
      (consistent_shardLogCompare_iff.mpr hclose) sort hsort
    refine ⟨_, _, by rw [h.init_eq hfuel, if_pos hvalid], ?_, by rw [hsame]; exact hperm, hsorted⟩
    have hdrain := drain_eq (l := sort shardLogCompare (recordsInFront s)) (Nat.zero_add _)
    rw [hperm.length_eq, List.drop_zero] at hdrain
    exact hdrain

/-! ## Reachable logs -/

section Reachable

variable [DecidableEq τ]

/-- **When the log of any interleaving of calls can be read back.** -/
theorem round_trips_iff_readable (hreach : (logSystem cfg τ).Reachable s) {fuel : Nat}
    (hfuel : s.extents.length ≤ fuel) : RoundTrips cfg s fuel ↔ Readable s :=
  (logInv_of_reachable hreach).round_trips_iff hfuel

omit [DecidableEq τ] in
theorem readable_iff : Readable s ↔
    (s.pages.Pairwise fun a b => isSealed s b = true → isSealed s a = true) ∧
    (∀ r ∈ sealedRecords s, r.generation ≠ invalidGeneration) ∧
    ∀ a ∈ sealedRecords s, ∀ b ∈ sealedRecords s, a.generation.toNat < b.generation.toNat →
      0 < (b.generation.toNat - a.generation.toNat) % 4294967296 ∧
        (b.generation.toNat - a.generation.toNat) % 4294967296 < 2147483648 :=
  ⟨fun h => ⟨h.in_front, h.valid, h.close⟩, fun h => ⟨h.1, h.2.1, h.2.2⟩⟩

instance : Decidable (Readable s) := decidable_of_iff _ readable_iff.symm

end Reachable

/-- The sizes `laio_config_valid` admits. -/
def laioConfig : ShardLogConfig := ⟨4096, 32, by decide, by decide, by decide⟩

def newLog : ShardLog (Fin 2) where
  addr := 131072
  magic := 7
  nextAddr := 0
  nextExtent := 131072
  extents := [131072]
  thread := fun _ => none
  page := fun _ => ⟨false, 0, 0, 0, fun _ => ⟨0, [], ⟨.insert, []⟩⟩⟩
  pages := []
  written := fun _ => []

theorem isNew_newLog : IsNew laioConfig newLog where
  extent := by decide
  next := by decide
  thread := fun _ => rfl
  page := fun _ => rfl
  pages := rfl

/-- A record that leaves no room for another one of its kind on its page. -/
def largeEntry (generation : BitVec 64) : LogEntry :=
  ⟨generation, [1], ⟨.insert, List.replicate 2048 0⟩⟩

/-- A thread fills three pages, the second record being older than the first one. -/
def oneWriter : List (LogWrite (Fin 2)) :=
  [⟨0, largeEntry 5, 262144⟩, ⟨0, largeEntry 3, 393216⟩, ⟨0, largeEntry 4, 393216⟩]

/-- The log of `oneWriter` has two sealed pages and can be read back. -/
theorem round_trips_one_writer : ∃ s, (logSystem laioConfig (Fin 2)).Reachable s ∧
    (sealedRecords s).length = 2 ∧ RoundTrips laioConfig s s.extents.length := by
  obtain ⟨tr, s, hrun, hend⟩ := System.exists_run (IsNew laioConfig) (logNext laioConfig) newLog
    oneWriter (P := fun _ s => decide (Readable s) && decide ((sealedRecords s).length = 2))
    (by decide +kernel)
  rw [Bool.and_eq_true, decide_eq_true_eq, decide_eq_true_eq] at hend
  have hreach : (logSystem laioConfig (Fin 2)).Reachable s := ⟨newLog, tr, isNew_newLog, hrun⟩
  exact ⟨s, hreach, hend.2, (round_trips_iff_readable hreach (Nat.le_refl _)).mpr hend.1⟩

/-- Thread 0 writes to the first page, thread 1 fills and seals the second one. -/
def twoWriters : List (LogWrite (Fin 2)) :=
  [⟨0, ⟨1, [1], ⟨.insert, [1]⟩⟩, 262144⟩, ⟨1, largeEntry 2, 393216⟩, ⟨1, largeEntry 3, 393216⟩]

/-- **A sealed record is lost**: in the log of `twoWriters` a page is sealed behind one that is not. -/
theorem round_trip_fails : ∃ s, (logSystem laioConfig (Fin 2)).Reachable s ∧
    sealedRecords s = [largeEntry 2] ∧ ∀ fuel, s.extents.length ≤ fuel →
      ¬ RoundTrips laioConfig s fuel := by
  obtain ⟨tr, s, hrun, hend⟩ := System.exists_run (IsNew laioConfig) (logNext laioConfig) newLog
    twoWriters (P := fun _ s => !decide (Readable s) && decide (sealedRecords s = [largeEntry 2]))
    (by decide +kernel)
  rw [Bool.and_eq_true, Bool.not_eq_true', decide_eq_false_iff_not, decide_eq_true_eq] at hend
  have hreach : (logSystem laioConfig (Fin 2)).Reachable s := ⟨newLog, tr, isNew_newLog, hrun⟩
  exact ⟨s, hreach, hend.2, fun fuel hfuel htrip =>
    hend.1 (((logInv_of_reachable hreach).round_trips_iff hfuel).mp htrip)⟩

end Log
end TreePass
