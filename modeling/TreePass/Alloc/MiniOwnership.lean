import Mathlib.Data.List.Count
import Mathlib.Data.List.Perm.Basic
import TreePass.Alloc.MiniAllocator

/-!
# What a mini allocator owns

A mini allocator holds one reference to every extent that it has taken, and one more to the extent
of its first meta page.  `Owns` says this against the counts before the tree was created, and that
no extent was taken twice.  Every operation keeps it.

* `miniAlloc_owns` and `miniInit_owns` are the steps.
* `miniDecRef_spec` says what is left when the last reference goes: the extents taken in advance
  stay allocated.  `miniRelease_spec` gives these back.
-/

namespace TreePass
namespace Alloc

variable (cfg : ExtentConfig)

/-! ## Owned extents -/

def taken (s : MiniState) : List Nat :=
  metaExtents cfg s.mini.metaPages ++ recorded s.mini.metaPages ++ s.mini.nextExtent

/-- The base address of an extent, other than 0, whose pages have 64-bit addresses. -/
def IsExtent (addr : Nat) : Prop :=
  addr % cfg.extentSize = 0 ∧ addr ≠ 0 ∧ addr + cfg.extentSize ≤ UInt64.size

/-- The extents in a list belong to one owner: each has one reference, the one of the first meta
page one more, and no other count has changed. -/
structure OwnedExtents (before : Nat → Nat) (metaHead : Nat) (al : Extents) (owned : List Nat) :
    Prop where
  refCount_eq : ∀ e, al.refCount e =
    before e + 2 * owned.count e + if e = cfg.baseAddr metaHead then 1 else 0
  nodup : (owned ++ al.supply).Nodup
  fresh : ∀ e ∈ owned ++ al.supply, before e = 0 ∧ IsExtent cfg e

/-- The mini allocator and the extents in `extra` are all that has been taken since the counts were
`before`. -/
structure Owns (before : Nat → Nat) (metaHead : Nat) (s : MiniState) (extra : List Nat) :
    Prop where
  owned : OwnedExtents cfg before metaHead s.al (taken cfg s ++ extra)
  head_eq : s.mini.metaPages.head?.map (·.addr) = some metaHead
  aligned : ∀ page ∈ s.mini.metaPages, cfg.pageSize ∣ page.addr

variable {cfg} {before : Nat → Nat} {metaHead : Nat}

theorem OwnedExtents.of_perm {al : Extents} {owned owned' : List Nat}
    (h : OwnedExtents cfg before metaHead al owned) (hperm : owned'.Perm owned) :
    OwnedExtents cfg before metaHead al owned' where
  refCount_eq := by
    intro e
    rw [h.refCount_eq e, hperm.count_eq]
  nodup := (hperm.append_right _).nodup_iff.mpr h.nodup
  fresh := fun e he => h.fresh e ((hperm.append_right _).mem_iff.mp he)

theorem OwnedExtents.alloc {al al' : Extents} {owned : List Nat} {addr : Nat}
    (h : OwnedExtents cfg before metaHead al owned) (hhead : cfg.baseAddr metaHead ∈ owned)
    (hrun : al.alloc = some (addr, al')) :
    OwnedExtents cfg before metaHead al' (owned ++ [addr]) ∧ IsExtent cfg addr ∧ addr ∉ owned := by
  obtain ⟨refCount, supply⟩ := al
  cases supply with
  | nil => cases hrun
  | cons a supply =>
      cases hrun
      have hnodup : (owned ++ addr :: supply).Nodup := h.nodup
      have hnot : addr ∉ owned := fun hmem =>
        (List.nodup_append.mp hnodup).2.2 addr hmem addr List.mem_cons_self rfl
      have hmem : addr ∈ owned ++ addr :: supply :=
        List.mem_append_right _ List.mem_cons_self
      have hsplit : owned ++ [addr] ++ supply = owned ++ addr :: supply := by
        rw [List.append_assoc, List.singleton_append]
      refine ⟨⟨?_, ?_, ?_⟩, (h.fresh addr hmem).2, hnot⟩
      · intro e
        rw [List.count_append, List.count_singleton]
        show Function.update refCount addr oneRef e = _
        by_cases he : e = addr
        · subst he
          have hne : e ≠ cfg.baseAddr metaHead := fun heq => hnot (heq ▸ hhead)
          rw [Function.update_self, (h.fresh e hmem).1, List.count_eq_zero.mpr hnot, if_neg hne]
          simp [oneRef]
        · rw [Function.update_of_ne he]
          have := h.refCount_eq e
          simp only [beq_iff_eq, if_neg (Ne.symm he), Nat.add_zero]
          exact this
      · rw [hsplit]
        exact hnodup
      · intro e he
        rw [hsplit] at he
        exact h.fresh e he

/-! ## Meta pages -/

variable (cfg) in
theorem metaExtents_concat (new : MetaPage) (pages : List MetaPage) (last : MetaPage) :
    metaExtents cfg (pages ++ [last] ++ [new]) =
      if cfg.baseAddr last.addr = cfg.baseAddr new.addr then metaExtents cfg (pages ++ [last])
      else metaExtents cfg (pages ++ [last]) ++ [cfg.baseAddr new.addr] := by
  induction pages with
  | nil =>
      show metaExtents cfg [last, new] = _
      unfold metaExtents
      by_cases hsame : cfg.baseAddr last.addr = cfg.baseAddr new.addr
      · rw [if_pos hsame, if_pos hsame]
        show [cfg.baseAddr new.addr] = [cfg.baseAddr last.addr]
        rw [hsame]
      · rw [if_neg hsame, if_neg hsame]
        rfl
  | cons page pages ih =>
      cases pages with
      | nil =>
          show metaExtents cfg (page :: last :: [new]) = if _ then metaExtents cfg [page, last] else
            metaExtents cfg [page, last] ++ _
          rw [metaExtents, show metaExtents cfg [last, new] = _ from ih, metaExtents]
          by_cases hpage : cfg.baseAddr page.addr = cfg.baseAddr last.addr
          · rw [if_pos hpage, if_pos hpage]
            rfl
          · rw [if_neg hpage, if_neg hpage]
            split <;> rfl
      | cons next pages =>
          show metaExtents cfg (page :: next :: (pages ++ [last] ++ [new])) =
            if _ then metaExtents cfg (page :: next :: (pages ++ [last])) else
              metaExtents cfg (page :: next :: (pages ++ [last])) ++ _
          rw [metaExtents, show metaExtents cfg (next :: (pages ++ [last] ++ [new])) = _ from ih,
            metaExtents]
          by_cases hpage : cfg.baseAddr page.addr = cfg.baseAddr next.addr
          · rw [if_pos hpage, if_pos hpage]
            rfl
          · rw [if_neg hpage, if_neg hpage]
            split <;> rfl

theorem baseAddr_mem_metaExtents {page : MetaPage} :
    ∀ {pages : List MetaPage}, page ∈ pages → cfg.baseAddr page.addr ∈ metaExtents cfg pages
  | [last], h => by
      rw [List.mem_singleton.mp h]
      exact List.mem_singleton_self _
  | first :: next :: pages, h => by
      unfold metaExtents
      rcases List.mem_cons.mp h with rfl | h
      · split
        next hsame =>
          rw [hsame]
          exact baseAddr_mem_metaExtents List.mem_cons_self
        next => exact List.mem_cons_self
      · have hrest := baseAddr_mem_metaExtents h
        split
        · exact hrest
        · exact List.mem_cons_of_mem _ hrest

theorem metaExtents_congr {pages pages' : List MetaPage}
    (h : pages.map (·.addr) = pages'.map (·.addr)) :
    metaExtents cfg pages = metaExtents cfg pages' := by
  induction pages generalizing pages' with
  | nil =>
      cases pages' with
      | nil => rfl
      | cons page' pages' => cases h
  | cons page pages ih =>
      cases pages' with
      | nil => cases h
      | cons page' pages' =>
          have hfirst : page.addr = page'.addr := (List.cons.inj h).1
          have hrest := (List.cons.inj h).2
          cases pages with
          | nil =>
              cases pages' with
              | nil =>
                  show [cfg.baseAddr page.addr] = [cfg.baseAddr page'.addr]
                  rw [hfirst]
              | cons next' pages' => cases hrest
          | cons next pages =>
              cases pages' with
              | nil => cases hrest
              | cons next' pages' =>
                  have hnext : next.addr = next'.addr := (List.cons.inj hrest).1
                  unfold metaExtents
                  rw [hfirst, hnext, ih hrest]

theorem Owns.baseHead_mem {s : MiniState} {extra : List Nat}
    (h : Owns cfg before metaHead s extra) : cfg.baseAddr metaHead ∈ taken cfg s := by
  obtain ⟨page, hpage, rfl⟩ := Option.map_eq_some_iff.mp h.head_eq
  exact List.mem_append_left _ (List.mem_append_left _
    (baseAddr_mem_metaExtents (List.mem_of_mem_head? hpage)))

/-! ## Steps -/

theorem Owns.getNewExtent {s s' : MiniState} {extra : List Nat} {addr : Nat}
    (h : Owns cfg before metaHead s extra) (hrun : getNewExtent s = some (addr, s')) :
    Owns cfg before metaHead s' (extra ++ [addr]) ∧ IsExtent cfg addr ∧
      addr ∉ taken cfg s ++ extra ∧ s'.mini.metaPages = s.mini.metaPages ∧
      s'.mini.nextExtent = s.mini.nextExtent ∧ s'.mini.nextAddr = s.mini.nextAddr := by
  obtain ⟨⟨addr', al⟩, halloc, hresult⟩ := Option.bind_eq_some_iff.mp hrun
  cases hresult
  obtain ⟨howned, hextent, hnot⟩ :=
    h.owned.alloc (List.mem_append_left _ h.baseHead_mem) halloc
  refine ⟨⟨?_, h.head_eq, h.aligned⟩, hextent, hnot, rfl, rfl, rfl⟩
  rw [List.append_assoc] at howned
  exact howned

theorem Owns.takeNextExtents (n : Nat) :
    ∀ {s s' : MiniState}, Owns cfg before metaHead s [] → takeNextExtents n s = some s' →
      Owns cfg before metaHead s' [] ∧ s'.mini.metaPages = s.mini.metaPages ∧
        s'.mini.nextAddr = s.mini.nextAddr ∧
        s'.mini.nextExtent.length = s.mini.nextExtent.length + n := by
  induction n with
  | zero =>
      intro s s' h hrun
      cases hrun
      exact ⟨h, rfl, rfl, rfl⟩
  | succ n ih =>
      intro s s' h hrun
      obtain ⟨⟨addr, s₁⟩, hget, hrun⟩ := Option.bind_eq_some_iff.mp hrun
      obtain ⟨hown, -, -, hpages, hnext, haddr⟩ := h.getNewExtent hget
      have hmoved : Owns cfg before metaHead
          { s₁ with mini := { s₁.mini with nextExtent := s₁.mini.nextExtent ++ [addr] } } [] := by
        refine ⟨hown.owned.of_perm ?_, hown.head_eq, hown.aligned⟩
        unfold taken
        rw [List.append_nil, ← List.append_assoc]
        exact List.Perm.refl _
      obtain ⟨hown', hpages', haddr', hlen⟩ := ih hmoved hrun
      refine ⟨hown', hpages'.trans hpages, haddr'.trans haddr, ?_⟩
      rw [hlen]
      show (s₁.mini.nextExtent ++ [addr]).length + n = _
      rw [hnext, List.length_append, List.length_singleton]
      omega

theorem baseAddr_add_pageSize {addr : Nat} (haligned : cfg.pageSize ∣ addr)
    (hne : (addr + cfg.pageSize) % cfg.extentSize ≠ 0) :
    cfg.baseAddr (addr + cfg.pageSize) = cfg.baseAddr addr := by
  obtain ⟨k, rfl⟩ := haligned
  have hpage : 0 < cfg.pageSize := by have := cfg.pageSize_ge; omega
  have hdiv : ∀ n, cfg.pageSize * n / cfg.extentSize = n / cfg.pagesPerExtent := fun n =>
    Nat.mul_div_mul_left n cfg.pagesPerExtent hpage
  have hmod : cfg.pageSize * (k + 1) % cfg.extentSize =
      cfg.pageSize * ((k + 1) % cfg.pagesPerExtent) := Nat.mul_mod_mul_left ..
  rw [← Nat.mul_succ] at hne ⊢
  rw [hmod] at hne
  have hrest : (k + 1) % cfg.pagesPerExtent ≠ 0 := fun h => hne (by rw [h, Nat.mul_zero])
  unfold ExtentConfig.baseAddr
  rw [hdiv, hdiv, Nat.succ_div_of_not_dvd fun hdvd => hrest (Nat.mod_eq_zero_of_dvd hdvd)]

theorem IsExtent.baseAddr_eq {addr : Nat} (h : IsExtent cfg addr) : cfg.baseAddr addr = addr :=
  Nat.div_mul_cancel (Nat.dvd_of_mod_eq_zero h.1)

theorem IsExtent.lt_size {addr : Nat} (h : IsExtent cfg addr) : addr < UInt64.size :=
  Nat.lt_of_lt_of_le (Nat.lt_add_of_pos_right cfg.extentSize_pos) h.2.2

theorem IsExtent.pageSize_dvd {addr : Nat} (h : IsExtent cfg addr) : cfg.pageSize ∣ addr :=
  Nat.dvd_trans (Nat.dvd_mul_right ..) (Nat.dvd_of_mod_eq_zero h.1)

private theorem Owns.appendToLast {s : MiniState} {extentAddr : Nat} {front : List MetaPage}
    {last : MetaPage} (h : Owns cfg before metaHead s [extentAddr])
    (hfront : s.mini.metaPages = front ++ [last]) :
    Owns cfg before metaHead { s with mini := { s.mini with
      metaPages := front ++ [{ last with entries := last.entries ++ [extentAddr] }] } } [] := by
  have haddrs : (front ++ [{ last with entries := last.entries ++ [extentAddr] }]).map
      MetaPage.addr = s.mini.metaPages.map MetaPage.addr := by
    rw [hfront]
    simp only [List.map_append, List.map_cons, List.map_nil]
  refine ⟨h.owned.of_perm ?_, ?_, ?_⟩
  · unfold taken
    rw [metaExtents_congr haddrs, hfront, List.perm_iff_count]
    intro e
    simp only [recorded, List.flatMap_append, List.flatMap_singleton, List.count_append,
      List.count_nil]
    omega
  · rw [← h.head_eq, ← List.head?_map, ← List.head?_map, haddrs]
  · intro page hpage
    have hmem : page.addr ∈ s.mini.metaPages.map MetaPage.addr :=
      haddrs ▸ List.mem_map_of_mem hpage
    obtain ⟨old, hold, heq⟩ := List.mem_map.mp hmem
    exact heq ▸ h.aligned old hold

private theorem Owns.appendNew {s : MiniState} {extentAddr addr : Nat} {front : List MetaPage}
    {last : MetaPage} {extra : List Nat} (h : Owns cfg before metaHead s (extentAddr :: extra))
    (hfront : s.mini.metaPages = front ++ [last]) (haddr : cfg.pageSize ∣ addr)
    (hextra : (cfg.baseAddr last.addr = cfg.baseAddr addr ∧ extra = []) ∨
      (cfg.baseAddr last.addr ≠ cfg.baseAddr addr ∧ extra = [cfg.baseAddr addr])) :
    Owns cfg before metaHead { s with mini := { s.mini with
      metaPages := s.mini.metaPages ++ [⟨addr, [extentAddr]⟩] } } [] := by
  refine ⟨h.owned.of_perm ?_, ?_, ?_⟩
  · unfold taken
    rw [hfront, metaExtents_concat, List.perm_iff_count]
    intro e
    simp only [recorded, List.flatMap_append, List.flatMap_singleton, List.count_append,
      List.count_nil, List.count_cons]
    rcases hextra with ⟨hsame, rfl⟩ | ⟨hne, rfl⟩
    · rw [if_pos hsame]
      simp only [List.count_nil]
      omega
    · rw [if_neg hne]
      simp only [List.count_append, List.count_cons, List.count_nil]
      omega
  · rw [← h.head_eq, hfront]
    cases front <;> rfl
  · intro page hpage
    rcases List.mem_append.mp hpage with hpage | hpage
    · exact h.aligned page hpage
    · rw [List.mem_singleton.mp hpage]
      exact haddr

theorem Owns.appendEntry {s s' : MiniState} {extentAddr : Nat}
    (h : Owns cfg before metaHead s [extentAddr])
    (hrun : appendEntry cfg s extentAddr = some s') :
    Owns cfg before metaHead s' [] ∧ s'.mini.nextExtent = s.mini.nextExtent ∧
      s'.mini.nextAddr = s.mini.nextAddr ∧
      recorded s'.mini.metaPages = recorded s.mini.metaPages ++ [extentAddr] := by
  obtain ⟨last, hlast, hrun⟩ := Option.bind_eq_some_iff.mp hrun
  obtain ⟨front, hfront⟩ : ∃ front, s.mini.metaPages = front ++ [last] :=
    List.getLast?_eq_some_iff.mp hlast
  have hmem : last ∈ s.mini.metaPages :=
    hfront ▸ List.mem_append_right _ (List.mem_singleton_self _)
  by_cases hfits : entryFits cfg last = true
  · rw [if_pos hfits] at hrun
    obtain rfl := Option.some.inj hrun
    have hpages : s.mini.metaPages.dropLast = front := by rw [hfront, List.dropLast_concat]
    refine ⟨?_, rfl, rfl, ?_⟩
    · rw [hpages]
      exact h.appendToLast hfront
    · show recorded (s.mini.metaPages.dropLast ++ _) = _
      rw [hpages, hfront]
      simp only [recorded, List.flatMap_append, List.flatMap_singleton, List.append_assoc]
  · rw [if_neg hfits] at hrun
    obtain ⟨⟨addr, s₁⟩, htail, hrun⟩ := Option.bind_eq_some_iff.mp hrun
    obtain rfl := Option.some.inj hrun
    have hrecorded : recorded (s.mini.metaPages ++ [⟨addr, [extentAddr]⟩]) =
        recorded s.mini.metaPages ++ [extentAddr] := by
      simp only [recorded, List.flatMap_append, List.flatMap_singleton]
    unfold newMetaTail at htail
    by_cases hnew : (last.addr + cfg.pageSize) % cfg.extentSize = 0
    · rw [if_pos hnew] at htail
      obtain ⟨hown, hextent, hnot, hpages, hnext, hnextAddr⟩ := h.getNewExtent htail
      have hbase := hextent.baseAddr_eq
      have hne : cfg.baseAddr last.addr ≠ cfg.baseAddr addr := by
        intro heq
        apply hnot
        rw [← hbase, ← heq]
        exact List.mem_append_left _ (List.mem_append_left _ (List.mem_append_left _
          (baseAddr_mem_metaExtents hmem)))
      refine ⟨hown.appendNew (hpages.trans hfront) hextent.pageSize_dvd
        (Or.inr ⟨hne, by rw [hbase]; rfl⟩), hnext, hnextAddr, ?_⟩
      show recorded (s₁.mini.metaPages ++ _) = _
      rw [hpages, hrecorded]
    · rw [if_neg hnew] at htail
      cases htail
      have hsame := baseAddr_add_pageSize (h.aligned last hmem) hnew
      exact ⟨h.appendNew hfront (Nat.dvd_add (h.aligned last hmem) (Nat.dvd_refl _))
        (Or.inl ⟨hsame.symm, rfl⟩), rfl, rfl, hrecorded⟩

private theorem set_append_perm {α : Type*} {l : List α} {i : Nat} {old new : α}
    (h : l[i]? = some old) : (l.set i new ++ [old]).Perm (l ++ [new]) := by
  obtain ⟨hi, rfl⟩ := List.getElem?_eq_some_iff.mp h
  have hset : (l.set i new).Perm (new :: l.eraseIdx i) := List.set_perm_cons_eraseIdx hi new
  have hold : (l[i] :: l.eraseIdx i).Perm l := List.getElem_cons_eraseIdx_perm hi
  have hmid : (new :: l.eraseIdx i ++ [l[i]]).Perm (l[i] :: l.eraseIdx i ++ [new]) := by
    refine (List.perm_append_singleton ..).trans (List.Perm.trans ?_
      (List.perm_append_singleton ..).symm)
    exact List.Perm.swap ..
  exact (hset.append_right _).trans (hmid.trans (hold.append_right _))

theorem Owns.startExtent {s s' : MiniState} {batch addr : Nat} (h : Owns cfg before metaHead s [])
    (hrun : startExtent cfg batch s = some (addr, s')) :
    Owns cfg before metaHead s' [] ∧ s.mini.nextExtent[batch]? = some addr ∧
      (∃ new, s'.mini.nextExtent = s.mini.nextExtent.set batch new) ∧
      s'.mini.nextAddr = s.mini.nextAddr ∧
      recorded s'.mini.metaPages = recorded s.mini.metaPages ++ [addr] := by
  obtain ⟨extentAddr, hextent, hrun⟩ := Option.bind_eq_some_iff.mp hrun
  obtain ⟨⟨new, s₁⟩, hget, hrun⟩ := Option.bind_eq_some_iff.mp hrun
  obtain ⟨s₂, happend, hrun⟩ := Option.bind_eq_some_iff.mp hrun
  cases hrun
  obtain ⟨hown, -, -, hpages, hnext, hnextAddr⟩ := h.getNewExtent hget
  have hmoved : Owns cfg before metaHead
      { s₁ with mini := { s₁.mini with nextExtent := s₁.mini.nextExtent.set batch new } }
      [addr] := by
    refine ⟨hown.owned.of_perm ?_, hown.head_eq, hown.aligned⟩
    have hset : (s₁.mini.nextExtent.set batch new ++ [addr]).Perm (s₁.mini.nextExtent ++ [new]) :=
      set_append_perm (hnext ▸ hextent)
    unfold taken
    rw [List.append_assoc _ _ [addr], List.append_assoc _ _ ([] ++ [new])]
    exact List.Perm.append_left _ hset
  obtain ⟨hown', hnext', hnextAddr', hrecorded⟩ := hmoved.appendEntry happend
  refine ⟨hown', hextent, ⟨new, ?_⟩, hnextAddr'.trans hnextAddr, ?_⟩
  · rw [hnext', ← hnext]
  · rw [hrecorded, ← hpages]

theorem miniAlloc_owns {s s' : MiniState} {batch addr nextExtent : Nat}
    (h : Owns cfg before metaHead s [])
    (hrun : miniAlloc cfg batch s = some ((addr, nextExtent), s')) :
    Owns cfg before metaHead s' [] ∧
      s'.mini.nextExtent.length = s.mini.nextExtent.length := by
  obtain ⟨nextAddr, -, hrun⟩ := Option.bind_eq_some_iff.mp hrun
  obtain ⟨⟨addr', s₁⟩, hpage, hrun⟩ := Option.bind_eq_some_iff.mp hrun
  obtain ⟨nextExtent', -, hrun⟩ := Option.bind_eq_some_iff.mp hrun
  cases hrun
  suffices hown : Owns cfg before metaHead s₁ [] ∧
      s₁.mini.nextExtent.length = s.mini.nextExtent.length from
    ⟨⟨hown.1.owned, hown.1.head_eq, hown.1.aligned⟩, hown.2⟩
  unfold nextPage at hpage
  by_cases hstart : nextAddr % cfg.extentSize = 0
  · rw [if_pos hstart] at hpage
    obtain ⟨hown, -, ⟨new, hnext⟩, -, -⟩ := h.startExtent hpage
    exact ⟨hown, by rw [hnext, List.length_set]⟩
  · rw [if_neg hstart] at hpage
    cases hpage
    exact ⟨h, rfl⟩

/-! ## The beginning -/

/-- **A new mini allocator**, in an extent that its creator has just taken, owns this extent and
those it has taken in advance. -/
theorem miniInit_owns {al al' : Extents} {extentAddr metaHead numBatches : Nat} {s : MiniState}
    (hsupply : al.supply.Nodup) (hfresh : ∀ e ∈ al.supply, al.refCount e = 0 ∧ IsExtent cfg e)
    (halloc : al.alloc = some (extentAddr, al')) (hbase : cfg.baseAddr metaHead = extentAddr)
    (haligned : cfg.pageSize ∣ metaHead) (hrun : miniInit cfg metaHead numBatches al' = some s) :
    Owns cfg al.refCount metaHead s [] ∧ s.mini.nextExtent.length = numBatches ∧
      s.mini.nextAddr = List.replicate numBatches 0 ∧ s.mini.metaPages = [⟨metaHead, []⟩] := by
  obtain ⟨refCount, supply⟩ := al
  cases supply with
  | nil => cases halloc
  | cons addr supply =>
      cases halloc
      obtain ⟨⟨ref, al'⟩, hinc, hrun⟩ := Option.bind_eq_some_iff.mp hrun
      obtain ⟨-, -, hrun⟩ := Option.bind_eq_some_iff.mp hrun
      rw [hbase] at hinc
      have hcount : (⟨Function.update refCount extentAddr oneRef, supply⟩ : Extents).refCount
          extentAddr = oneRef := Function.update_self ..
      have hne : ¬ oneRef = free := by decide
      unfold Extents.incRef at hinc
      rw [hcount, if_neg hne] at hinc
      cases hinc
      have hstart : Owns cfg refCount metaHead
          ⟨⟨[⟨metaHead, []⟩], List.replicate numBatches 0, [], 1⟩,
            ⟨Function.update (Function.update refCount extentAddr oneRef) extentAddr (oneRef + 1),
              supply⟩⟩ [] := by
        refine ⟨⟨?_, ?_, ?_⟩, rfl, ?_⟩
        · intro e
          show Function.update (Function.update refCount extentAddr oneRef) extentAddr _ e =
            refCount e + 2 * [cfg.baseAddr metaHead].count e + _
          rw [hbase, List.count_singleton]
          by_cases he : e = extentAddr
          · subst he
            have hzero : refCount e = 0 := (hfresh e List.mem_cons_self).1
            rw [Function.update_self, hzero]
            simp [oneRef]
          · rw [Function.update_of_ne he, Function.update_of_ne he, if_neg he]
            simp [Ne.symm he]
        · show ([cfg.baseAddr metaHead] ++ supply).Nodup
          rw [hbase]
          exact hsupply
        · show ∀ e ∈ [cfg.baseAddr metaHead] ++ supply, _
          rw [hbase]
          exact hfresh
        · intro page hpage
          rw [List.mem_singleton.mp hpage]
          exact haligned
      obtain ⟨hown, hpages, hnextAddr, hlen⟩ := hstart.takeNextExtents numBatches hrun
      exact ⟨hown, by rw [hlen]; exact Nat.zero_add _, hnextAddr, hpages⟩

/-! ## The end -/

theorem Extents.dealloc_eq {al : Extents} {e : Nat} (h : al.refCount e = oneRef) :
    al.dealloc e = some { al with refCount := Function.update al.refCount e free } := by
  have hfirst : al.decRef e = some (noRefs,
      { al with refCount := Function.update al.refCount e noRefs }) := by
    unfold decRef
    rw [h]
    rfl
  have hsecond : ({ al with refCount := Function.update al.refCount e noRefs } : Extents).decRef e =
      some (free, { al with refCount := Function.update al.refCount e free }) := by
    unfold decRef
    simp only [Function.update_self, Function.update_idem]
    rfl
  unfold dealloc
  rw [hfirst]
  show (Extents.decRef { al with refCount := Function.update al.refCount e noRefs } e).bind _ = _
  rw [hsecond]
  rfl

theorem Extents.deallocAll_spec (l : List Nat) :
    ∀ al : Extents, l.Nodup → (∀ e ∈ l, al.refCount e = oneRef) →
      ∃ al', al.deallocAll l = some al' ∧ al'.supply = al.supply ∧
        ∀ e, al'.refCount e = if e ∈ l then free else al.refCount e := by
  induction l with
  | nil =>
      intro al _ _
      exact ⟨al, rfl, rfl, fun e => (if_neg List.not_mem_nil).symm⟩
  | cons addr l ih =>
      intro al hnodup hone
      obtain ⟨hnot, hrest⟩ := List.nodup_cons.mp hnodup
      have hone' : ∀ e ∈ l, Function.update al.refCount addr free e = oneRef := by
        intro e he
        have hne : e ≠ addr := fun heq => hnot (heq ▸ he)
        rw [Function.update_of_ne hne]
        exact hone e (List.mem_cons_of_mem _ he)
      obtain ⟨al', hrun, hsupply, hcount⟩ :=
        ih { al with refCount := Function.update al.refCount addr free } hrest hone'
      refine ⟨al', ?_, hsupply, ?_⟩
      · unfold deallocAll
        rw [dealloc_eq (hone addr List.mem_cons_self)]
        exact hrun
      · intro e
        rw [hcount e]
        by_cases he : e = addr
        · subst he
          rw [if_neg hnot, if_pos List.mem_cons_self]
          exact Function.update_self ..
        · simp only [List.mem_cons, he, false_or]
          rw [Function.update_of_ne he]

variable (cfg) in
/-- **The last reference.**  The recorded extents and the meta pages are freed; extents in `rest`
that the mini allocator has taken stay allocated. -/
theorem miniDecRef_spec {al : Extents} {pages : List MetaPage} {rest : List Nat}
    (h : OwnedExtents cfg before metaHead al (metaExtents cfg pages ++ recorded pages ++ rest))
    (hhead : pages.head?.map (·.addr) = some metaHead) :
    ∃ al', miniDecRef cfg pages al = some (0, al') ∧
      ∀ e, al'.refCount e = before e + 2 * rest.count e := by
  obtain ⟨first, hfirst, rfl⟩ := Option.map_eq_some_iff.mp hhead
  have hmem : cfg.baseAddr first.addr ∈ metaExtents cfg pages :=
    baseAddr_mem_metaExtents (List.mem_of_mem_head? hfirst)
  obtain ⟨howned, -, -⟩ := List.nodup_append.mp h.nodup
  have hcount : ∀ e ∈ metaExtents cfg pages ++ recorded pages ++ rest, before e = 0 ∧
      (metaExtents cfg pages ++ recorded pages ++ rest).count e = 1 := fun e he =>
    ⟨(h.fresh e (List.mem_append_left _ he)).1, List.count_eq_one_of_mem howned he⟩
  have hthree : al.refCount (cfg.baseAddr first.addr) = miniNoRefs + 1 := by
    obtain ⟨hzero, hone⟩ := hcount _ (List.mem_append_left _ (List.mem_append_left _ hmem))
    rw [h.refCount_eq, hzero, hone, if_pos rfl]
    rfl
  obtain ⟨al₁, hdec, hcount₁⟩ : ∃ al₁,
      al.decRef (cfg.baseAddr first.addr) = some (miniNoRefs, al₁) ∧ ∀ e, al₁.refCount e =
        before e + 2 * (metaExtents cfg pages ++ recorded pages ++ rest).count e := by
    refine ⟨⟨Function.update al.refCount (cfg.baseAddr first.addr) miniNoRefs, al.supply⟩, ?_, ?_⟩
    · unfold Extents.decRef
      rw [hthree]
      rfl
    · intro e
      show Function.update al.refCount _ _ e = _
      by_cases he : e = cfg.baseAddr first.addr
      · obtain ⟨hzero, hone⟩ :=
          hcount e (List.mem_append_left _ (List.mem_append_left _ (he ▸ hmem)))
        rw [hzero, hone, he, Function.update_self]
        rfl
      · rw [Function.update_of_ne he, h.refCount_eq, if_neg he, Nat.add_zero]
  obtain ⟨hlists, -, -⟩ := List.nodup_append.mp howned
  obtain ⟨hmeta, hrecorded, hapart⟩ := List.nodup_append.mp hlists
  have hone : ∀ e ∈ metaExtents cfg pages ++ recorded pages, al₁.refCount e = oneRef := by
    intro e he
    obtain ⟨hzero, hone⟩ := hcount e (List.mem_append_left _ he)
    rw [hcount₁, hzero, hone]
    rfl
  obtain ⟨al₂, hrun₂, -, hcount₂⟩ := Extents.deallocAll_spec (recorded pages) al₁ hrecorded
    fun e he => hone e (List.mem_append_right _ he)
  obtain ⟨al₃, hrun₃, -, hcount₃⟩ := Extents.deallocAll_spec (metaExtents cfg pages) al₂ hmeta
    fun e he => by
      rw [hcount₂, if_neg fun hrec => hapart e he e hrec rfl]
      exact hone e (List.mem_append_left _ he)
  refine ⟨al₃, ?_, ?_⟩
  · unfold miniDecRef
    rw [hfirst]
    show (al.decRef (cfg.baseAddr first.addr)).bind _ = _
    rw [hdec]
    show (al₁.deallocAll (recorded pages)).bind _ = _
    rw [hrun₂]
    show (al₂.deallocAll (metaExtents cfg pages)).bind _ = _
    rw [hrun₃]
    rfl
  · intro e
    rw [hcount₃, hcount₂, hcount₁]
    by_cases hlist : e ∈ metaExtents cfg pages ++ recorded pages
    · -- The extent was in one of the lists, and nowhere else.
      have hrest : e ∉ rest := fun hr => (List.nodup_append.mp howned).2.2 e hlist e hr rfl
      rw [(hcount e (List.mem_append_left _ hlist)).1, List.count_eq_zero.mpr hrest]
      rcases List.mem_append.mp hlist with hm | hr
      · rw [if_pos hm]
        rfl
      · rw [if_pos hr]
        split <;> rfl
    · obtain ⟨hm, hr⟩ := not_or.mp (mt List.mem_append.mpr hlist)
      rw [if_neg hm, if_neg hr, List.count_append, List.count_eq_zero.mpr hlist, Nat.zero_add]

theorem miniRelease_spec {s : MiniState} (h : Owns cfg before metaHead s []) :
    ∃ al, miniRelease s = some al ∧ OwnedExtents cfg before metaHead al
      (metaExtents cfg s.mini.metaPages ++ recorded s.mini.metaPages ++ []) := by
  have howned := h.owned
  rw [List.append_nil] at howned
  unfold taken at howned
  obtain ⟨hnodup, hsupply, hoff⟩ := List.nodup_append.mp howned.nodup
  obtain ⟨hlists, hnext, hapart⟩ := List.nodup_append.mp hnodup
  have hmem : cfg.baseAddr metaHead ∈ metaExtents cfg s.mini.metaPages := by
    obtain ⟨first, hfirst, rfl⟩ := Option.map_eq_some_iff.mp h.head_eq
    exact baseAddr_mem_metaExtents (List.mem_of_mem_head? hfirst)
  have hone : ∀ e ∈ s.mini.nextExtent, s.al.refCount e = oneRef := by
    intro e he
    have hne : e ≠ cfg.baseAddr metaHead := fun heq =>
      hapart _ (List.mem_append_left _ hmem) e he heq.symm
    have hfresh := (howned.fresh e (List.mem_append_left _ (List.mem_append_right _ he))).1
    rw [howned.refCount_eq, hfresh,
      List.count_eq_one_of_mem hnodup (List.mem_append_right _ he), if_neg hne]
    rfl
  obtain ⟨al, hrun, hkept, hcount⟩ := Extents.deallocAll_spec s.mini.nextExtent s.al hnext hone
  refine ⟨al, hrun, ?_, ?_, ?_⟩
  · intro e
    rw [hcount, List.append_nil]
    by_cases he : e ∈ s.mini.nextExtent
    · have hnot : e ∉ metaExtents cfg s.mini.metaPages ++ recorded s.mini.metaPages := fun hl =>
        hapart e hl e he rfl
      have hne : e ≠ cfg.baseAddr metaHead := fun heq =>
        hapart _ (List.mem_append_left _ hmem) e he heq.symm
      rw [if_pos he, (howned.fresh e (List.mem_append_left _ (List.mem_append_right _ he))).1,
        List.count_eq_zero.mpr hnot, if_neg hne]
      rfl
    · have happend : (metaExtents cfg s.mini.metaPages ++ recorded s.mini.metaPages ++
          s.mini.nextExtent).count e =
            (metaExtents cfg s.mini.metaPages ++ recorded s.mini.metaPages).count e := by
        rw [List.count_append, List.count_eq_zero.mpr he, Nat.add_zero]
      rw [if_neg he, howned.refCount_eq, happend]
  · rw [List.append_nil, hkept]
    exact List.nodup_append.mpr ⟨hlists, hsupply, fun a ha b hb =>
      hoff a (List.mem_append_left _ ha) b hb⟩
  · rw [List.append_nil, hkept]
    intro e he
    refine howned.fresh e ?_
    rcases List.mem_append.mp he with hl | hs
    · exact List.mem_append_left _ (List.mem_append_left _ hl)
    · exact List.mem_append_right _ hs

end Alloc
end TreePass
