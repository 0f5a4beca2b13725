import TreePass.Alloc.MiniAddresses
import TreePass.Btree.Pack
import TreePass.Lib.Tally

/-!
# Aborting a pack

When a pack fails, the pages that are open at every height are unlocked and the tree loses its only
reference.  What the mini allocator has taken in advance is not given back.

* `PackInv` holds between the steps: the mini allocator owns what it has taken, and no page is open
  above the current height.
* `Keeps` says that a step locks the pages it opens and unlocks those it closes.
* `pack_abort_leaks` is the result about every failed pack.
-/

namespace TreePass
namespace Btree
namespace PackReq

open Alloc (Extents MiniState Owns)

variable {K : Type} {cfg : PackConfig K} {before : Nat → Nat} {metaHead : Nat}

/-! ## What holds between the steps -/

def openCount (req : PackReq K) (a : Nat) : Nat :=
  ∑ h : Fin maxHeight, (req.edge h).count a

/-- The mini allocator owns what it has taken, no page is open above the current height, and every
open page has its statistics. -/
structure PackInv (cfg : PackConfig K) (before : Nat → Nat) (metaHead : Nat) (req : PackReq K) :
    Prop where
  owns : Owns cfg.extents before metaHead req.alloc []
  batches : req.alloc.mini.nextExtent.length = maxHeight
  height_lt : req.height < maxHeight
  edge_eq_nil : ∀ h, req.height < h → req.edge h = []
  length_stats : ∀ h, (req.edgeStats h).length = (req.edge h).length

/-- The pages that have been opened are locked, those that have been closed are not, apart from some
pages that have been unlocked in addition.  No tuple is added, and the root stays where it is. -/
structure Releases (req req' : PackReq K) (pages : List Nat) : Prop where
  count_eq : ∀ a,
    req'.held.count a + pages.count a + req.openCount a = req.held.count a + req'.openCount a
  numTuples_eq : req'.numTuples = req.numTuples
  rootAddr_eq : req'.rootAddr = req.rootAddr

/-- The pages that have been opened are locked, and those that have been closed are not. -/
def Keeps (req req' : PackReq K) : Prop := Releases req req' []

theorem Releases.trans {req req' req'' : PackReq K} {l l' : List Nat} (h : Releases req req' l)
    (h' : Releases req' req'' l') : Releases req req'' (l ++ l') := by
  constructor
  · intro a
    have := h.count_eq a
    have := h'.count_eq a
    rw [List.count_append]
    omega
  · exact h'.numTuples_eq.trans h.numTuples_eq
  · exact h'.rootAddr_eq.trans h.rootAddr_eq

theorem openCount_update (req req' : PackReq K) {h : Nat} (hlt : h < maxHeight) {l : List Nat}
    (hedge : req'.edge = Function.update req.edge h l) (a : Nat) :
    req'.openCount a + (req.edge h).count a = req.openCount a + l.count a := by
  have htally := Lib.tally_update (fun (_ : Fin maxHeight) (l : List Nat) => l.count a)
    (fun i => req.edge i) ⟨h, hlt⟩ l
  have hsame : ∀ i : Fin maxHeight,
      Function.update (fun i : Fin maxHeight => req.edge i) ⟨h, hlt⟩ l i = req'.edge i := by
    intro i
    rw [hedge]
    by_cases hi : i = ⟨h, hlt⟩
    · rw [hi, Function.update_self, Function.update_self]
    · have hne : (i : Nat) ≠ h := fun heq => hi (Fin.ext heq)
      rw [Function.update_of_ne hi, Function.update_of_ne hne]
  simp only [hsame] at htally
  exact htally

theorem openCount_congr {req req' : PackReq K} (hedge : req'.edge = req.edge) (a : Nat) :
    req'.openCount a = req.openCount a := by
  unfold openCount
  rw [hedge]

theorem Keeps.of_eq {req req' : PackReq K} (hheld : req'.held = req.held)
    (hedge : req'.edge = req.edge) (hnum : req'.numTuples = req.numTuples)
    (hroot : req'.rootAddr = req.rootAddr) : Keeps req req' := by
  constructor
  · intro a
    rw [hheld, openCount_congr hedge]
    rfl
  · exact hnum
  · exact hroot

/-! ## Small steps -/

theorem PackInv.of_eq {req req' : PackReq K} (h : PackInv cfg before metaHead req)
    (halloc : req'.alloc = req.alloc) (hheight : req'.height = req.height)
    (hedge : req'.edge = req.edge) (hstats : ∀ h, (req'.edgeStats h).length =
      (req.edgeStats h).length) : PackInv cfg before metaHead req' where
  owns := halloc ▸ h.owns
  batches := halloc ▸ h.batches
  height_lt := hheight ▸ h.height_lt
  edge_eq_nil := by rw [hheight, hedge]; exact h.edge_eq_nil
  length_stats := by
    intro l
    rw [hstats, hedge]
    exact h.length_stats l

theorem length_updateStats (req : PackReq K) (h : Nat) (f : PivotStats → PivotStats) (l : Nat) :
    ((req.updateStats h f).edgeStats l).length = (req.edgeStats l).length := by
  unfold updateStats
  by_cases hl : l = h
  · subst hl
    show (Function.update req.edgeStats l _ l).length = _
    rw [Function.update_self, List.length_modify]
  · show (Function.update req.edgeStats h _ l).length = _
    rw [Function.update_of_ne hl]

theorem unlock_spec {req req' : PackReq K} {addr : Nat} (hrun : req.unlock addr = some req') :
    Releases req req' [addr] ∧ req'.alloc = req.alloc ∧ req'.height = req.height ∧
      req'.edge = req.edge ∧ req'.edgeStats = req.edgeStats ∧ req'.pages = req.pages := by
  unfold unlock at hrun
  by_cases hmem : addr ∈ req.held
  · rw [if_pos hmem] at hrun
    obtain rfl := Option.some.inj hrun
    refine ⟨⟨?_, rfl, rfl⟩, rfl, rfl, rfl, rfl, rfl⟩
    intro a
    have hperm := (List.perm_cons_erase hmem).count_eq a
    have hopen : ({ req with held := req.held.erase addr } : PackReq K).openCount a =
        req.openCount a := rfl
    rw [List.count_cons] at hperm
    rw [hopen, List.count_singleton, hperm]
  · rw [if_neg hmem] at hrun
    cases hrun

theorem tryLink_spec {req req' : PackReq K} {h childAddr : Nat} {pivot : Key K}
    {stats : PivotStats} (hrun : req.tryLink cfg h pivot childAddr stats = some req') :
    ∃ addr page, req' = req.setPage addr page := by
  obtain ⟨parent, -, hrun⟩ := Option.bind_eq_some_iff.mp hrun
  obtain ⟨page, -, hrun⟩ := Option.bind_eq_some_iff.mp hrun
  exact ⟨parent, page, (Option.some.inj hrun).symm⟩

/-! ## Nodes -/

/-- What the creation of a parent of the nodes of height `h` does: it opens a page above them, and
may close others there. -/
def CreatesAbove (cfg : PackConfig K) (before : Nat → Nat) (metaHead h : Nat)
    (create : Key K → PackReq K → Option (PackReq K)) : Prop :=
  ∀ pivot req req', PackInv cfg before metaHead req → create pivot req = some req' →
    PackInv cfg before metaHead req' ∧ Keeps req req' ∧ ∀ l ≤ h, req'.edge l = req.edge l

variable {createParent : Key K → PackReq K → Option (PackReq K)} {h : Nat}

theorem linkToParent_spec (hcreate : CreatesAbove cfg before metaHead h createParent)
    {pivot : Key K} {edge : Nat × PivotStats} {req req' : PackReq K}
    (hinv : PackInv cfg before metaHead req)
    (hrun : linkToParent cfg createParent h pivot edge req = some req') :
    PackInv cfg before metaHead req' ∧ Keeps req req' ∧ ∀ l ≤ h, req'.edge l = req.edge l := by
  unfold linkToParent at hrun
  cases htry : req.tryLink cfg (h + 1) pivot edge.1 edge.2 with
  | some linked =>
      rw [htry] at hrun
      obtain rfl := Option.some.inj hrun
      obtain ⟨addr, page, rfl⟩ := tryLink_spec htry
      exact ⟨hinv.of_eq rfl rfl rfl fun _ => rfl, Keeps.of_eq rfl rfl rfl rfl, fun _ _ => rfl⟩
  | none =>
      rw [htry] at hrun
      obtain ⟨created, hnew, hlink⟩ := Option.bind_eq_some_iff.mp hrun
      obtain ⟨hinv', hkeeps, hsame⟩ := hcreate pivot req created hinv hnew
      obtain ⟨addr, page, rfl⟩ := tryLink_spec hlink
      exact ⟨hinv'.of_eq rfl rfl rfl fun _ => rfl, hkeeps.trans (Keeps.of_eq rfl rfl rfl rfl),
        hsame⟩

theorem linkNode_spec (hcreate : CreatesAbove cfg before metaHead h createParent)
    {edge : Nat × PivotStats} {nextExtentAddr : Nat} {req req' : PackReq K}
    (hinv : PackInv cfg before metaHead req)
    (hrun : linkNode cfg createParent h edge nextExtentAddr req = some req') :
    PackInv cfg before metaHead req' ∧ Releases req req' [edge.1] ∧
      ∀ l ≤ h, req'.edge l = req.edge l := by
  obtain ⟨pivot, -, hrun⟩ := Option.bind_eq_some_iff.mp hrun
  obtain ⟨linked, hlink, hunlock⟩ := Option.bind_eq_some_iff.mp hrun
  have hstart : PackInv cfg before metaHead (req.setPage edge.1
      { req.pages edge.1 with nextExtentAddr := BitVec.ofNat 64 nextExtentAddr }) :=
    hinv.of_eq rfl rfl rfl fun _ => rfl
  obtain ⟨hinv', hkeeps, hsame⟩ := linkToParent_spec hcreate hstart hlink
  obtain ⟨hrel, halloc, hheight, hedge, hstats, -⟩ := unlock_spec hunlock
  refine ⟨?_, ?_, ?_⟩
  · refine hinv'.of_eq halloc hheight hedge ?_
    intro l
    rw [hstats]
    exact length_updateStats ..
  · have hpage : Keeps req (req.setPage edge.1
        { req.pages edge.1 with nextExtentAddr := BitVec.ofNat 64 nextExtentAddr }) :=
      Keeps.of_eq rfl rfl rfl rfl
    have hstats : Keeps linked (linked.updateStats (h + 1) fun stats =>
        accumulatePivotStats stats edge.2) := Keeps.of_eq rfl rfl rfl rfl
    exact ((hpage.trans hkeeps).trans hstats).trans hrel
  · intro l hl
    rw [hedge]
    exact hsame l hl

theorem linkNodes_spec (hcreate : CreatesAbove cfg before metaHead h createParent)
    (nextExtentAddr : Nat) (edges : List (Nat × PivotStats)) :
    ∀ {req req' : PackReq K}, PackInv cfg before metaHead req →
      linkNodes cfg createParent h nextExtentAddr edges req = some req' →
      PackInv cfg before metaHead req' ∧ Releases req req' (edges.map Prod.fst) ∧
        ∀ l ≤ h, req'.edge l = req.edge l := by
  induction edges with
  | nil =>
      intro req req' hinv hrun
      obtain rfl := Option.some.inj hrun
      exact ⟨hinv, Keeps.of_eq rfl rfl rfl rfl, fun _ _ => rfl⟩
  | cons edge edges ih =>
      intro req req' hinv hrun
      obtain ⟨mid, hnode, hrest⟩ := Option.bind_eq_some_iff.mp hrun
      obtain ⟨hinv₁, hrel₁, hsame₁⟩ := linkNode_spec hcreate hinv hnode
      obtain ⟨hinv₂, hrel₂, hsame₂⟩ := ih hinv₁ hrest
      exact ⟨hinv₂, hrel₁.trans hrel₂, fun l hl => (hsame₂ l hl).trans (hsame₁ l hl)⟩

theorem linkExtent_spec (hcreate : CreatesAbove cfg before metaHead h createParent)
    (hlt : h < maxHeight) {nextExtentAddr : Nat} {req req' : PackReq K}
    (hinv : PackInv cfg before metaHead req)
    (hrun : linkExtent cfg createParent h nextExtentAddr req = some req') :
    PackInv cfg before metaHead req' ∧ Keeps req req' ∧ (∀ l < h, req'.edge l = req.edge l) ∧
      req'.edge h = [] := by
  obtain ⟨mid, hnodes, hrun⟩ := Option.bind_eq_some_iff.mp hrun
  obtain rfl := Option.some.inj hrun
  obtain ⟨hinv', hrel, hsame⟩ := linkNodes_spec hcreate nextExtentAddr _ hinv hnodes
  have hpages : ((req.edge h).zip (req.edgeStats h)).map Prod.fst = req.edge h :=
    List.map_fst_zip (le_of_eq (hinv.length_stats h).symm)
  refine ⟨?_, ?_, ?_, ?_⟩
  · refine ⟨hinv'.owns, hinv'.batches, hinv'.height_lt, ?_, ?_⟩
    · intro l hl
      show Function.update mid.edge h [] l = []
      by_cases heq : l = h
      · rw [heq, Function.update_self]
      · rw [Function.update_of_ne heq]
        exact hinv'.edge_eq_nil l hl
    · intro l
      show (Function.update mid.edgeStats h [] l).length = (Function.update mid.edge h [] l).length
      by_cases heq : l = h
      · rw [heq, Function.update_self, Function.update_self]
        rfl
      · rw [Function.update_of_ne heq, Function.update_of_ne heq]
        exact hinv'.length_stats l
  · refine ⟨?_, hrel.numTuples_eq, hrel.rootAddr_eq⟩
    intro a
    have hcount := hrel.count_eq a
    have hclosed := openCount_update mid { mid with
      edge := Function.update mid.edge h []
      edgeStats := Function.update mid.edgeStats h [] } hlt rfl a
    rw [hpages] at hcount
    rw [hsame h (le_refl h)] at hclosed
    simp only [List.count_nil] at hclosed ⊢
    show mid.held.count a + 0 + req.openCount a = _
    omega
  · intro l hl
    show Function.update mid.edge h [] l = _
    rw [Function.update_of_ne (ne_of_lt hl)]
    exact hsame l (le_of_lt hl)
  · exact Function.update_self ..

theorem allocNode_spec {req req' : PackReq K} {new : Nat} (hinv : PackInv cfg before metaHead req)
    (hrun : allocNode cfg h req = some (new, req')) :
    PackInv cfg before metaHead req' ∧ req'.held = new :: req.held ∧ req'.edge = req.edge ∧
      req'.numTuples = req.numTuples ∧ req'.rootAddr = req.rootAddr := by
  obtain ⟨⟨⟨addr, nextExtent⟩, alloc⟩, halloc, hrun⟩ := Option.bind_eq_some_iff.mp hrun
  cases hrun
  obtain ⟨hown, hlen⟩ := Alloc.miniAlloc_owns hinv.owns halloc
  exact ⟨⟨hown, hlen.trans hinv.batches, hinv.height_lt, hinv.edge_eq_nil, hinv.length_stats⟩,
    rfl, rfl, rfl, rfl⟩

theorem closeExtent_spec (hcreate : CreatesAbove cfg before metaHead h createParent)
    (hlt : h < maxHeight) {new : Nat} {req req' : PackReq K}
    (hinv : PackInv cfg before metaHead req)
    (hrun : closeExtent cfg createParent h new req = some req') :
    PackInv cfg before metaHead req' ∧ Keeps req req' ∧ ∀ l < h, req'.edge l = req.edge l := by
  unfold closeExtent at hrun
  cases hcurr : req.currentNode h with
  | none =>
      rw [hcurr] at hrun
      obtain rfl := Option.some.inj hrun
      exact ⟨hinv, Keeps.of_eq rfl rfl rfl rfl, fun _ _ => rfl⟩
  | some old =>
      rw [hcurr] at hrun
      have hlinked : PackInv cfg before metaHead (req.linkSiblings old new) :=
        hinv.of_eq rfl rfl rfl fun _ => rfl
      by_cases hsame : cfg.extents.baseAddr old = cfg.extents.baseAddr new
      · have hrun' : some (req.linkSiblings old new) = some req' := (if_pos hsame).symm.trans hrun
        obtain rfl := Option.some.inj hrun'
        exact ⟨hlinked, Keeps.of_eq rfl rfl rfl rfl, fun _ _ => rfl⟩
      · have hrun' : linkExtent cfg createParent h new (req.linkSiblings old new) = some req' :=
          (if_neg hsame).symm.trans hrun
        obtain ⟨hinv', hkeeps, hbelow, -⟩ := linkExtent_spec hcreate hlt hlinked hrun'
        have hlink : Keeps req (req.linkSiblings old new) := Keeps.of_eq rfl rfl rfl rfl
        exact ⟨hinv', hlink.trans hkeeps, hbelow⟩

theorem createNextNode_spec (levels : Nat) :
    ∀ {h : Nat} {pivot : Key K} {req req' : PackReq K}, levels + h ≤ maxHeight →
      PackInv cfg before metaHead req →
      createNextNode cfg levels h pivot req = some req' →
      PackInv cfg before metaHead req' ∧ Keeps req req' ∧ ∀ l < h, req'.edge l = req.edge l := by
  induction levels with
  | zero =>
      intro h pivot req req' _ _ hrun
      cases hrun
  | succ levels ih =>
      intro h pivot req req' hlevels hinv hrun
      obtain ⟨⟨new, req₁⟩, halloc, hrun⟩ := Option.bind_eq_some_iff.mp hrun
      obtain ⟨req₂, hclose, hrun⟩ := Option.bind_eq_some_iff.mp hrun
      obtain rfl := Option.some.inj hrun
      have hlt : h < maxHeight := by omega
      have hcreate : CreatesAbove cfg before metaHead h (createNextNode cfg levels (h + 1)) := by
        intro pivot req req' hinv hrun
        obtain ⟨hinv', hkeeps, hsame⟩ := ih (by omega) hinv hrun
        exact ⟨hinv', hkeeps, fun l hl => hsame l (Nat.lt_succ_of_le hl)⟩
      obtain ⟨hinv₁, hheld, hedge, hnum, hroot⟩ := allocNode_spec hinv halloc
      obtain ⟨hinv₂, hkeeps, hsame⟩ := closeExtent_spec hcreate hlt hinv₁ hclose
      refine ⟨?_, ?_, ?_⟩
      · have hheight : (req₂.openNode h new).height = if req₂.height < h then h else req₂.height :=
          rfl
        have hother : ∀ l, l ≠ h → (req₂.openNode h new).edge l = req₂.edge l := fun l hl =>
          Function.update_of_ne hl ..
        have hstats : ∀ l, l ≠ h → (req₂.openNode h new).edgeStats l = req₂.edgeStats l :=
          fun l hl => Function.update_of_ne hl ..
        refine ⟨hinv₂.owns, hinv₂.batches, ?_, ?_, ?_⟩
        · have := hinv₂.height_lt
          rw [hheight]
          split <;> assumption
        · intro l hl
          rw [hheight] at hl
          have hne : l ≠ h ∧ req₂.height < l := by
            split at hl <;> omega
          rw [hother l hne.1]
          exact hinv₂.edge_eq_nil l hne.2
        · intro l
          by_cases hl : l = h
          · subst hl
            show (Function.update req₂.edgeStats l _ l).length =
              (Function.update req₂.edge l _ l).length
            rw [Function.update_self, Function.update_self, List.length_append,
              List.length_append, hinv₂.length_stats l]
            rfl
          · rw [hother l hl, hstats l hl]
            exact hinv₂.length_stats l
      · refine ⟨?_, hkeeps.numTuples_eq.trans hnum, hkeeps.rootAddr_eq.trans hroot⟩
        intro a
        have hopen := openCount_update req₂ (req₂.openNode h new) hlt rfl a
        have hcount := hkeeps.count_eq a
        rw [hheld, openCount_congr hedge] at hcount
        rw [List.count_append] at hopen
        rw [List.count_cons, List.count_nil] at hcount
        rw [List.count_singleton] at hopen
        show req₂.held.count a + 0 + req.openCount a = _
        omega
      · intro l hl
        show Function.update req₂.edge h _ l = _
        rw [Function.update_of_ne (ne_of_lt hl), hsame l hl, hedge]

/-! ## Tuples -/

theorem trySetTuple_spec {t : Tuple K} {req req' : PackReq K}
    (hrun : req.trySetTuple cfg t = some req') : ∃ addr page, req' = req.setPage addr page := by
  obtain ⟨leaf, -, hrun⟩ := Option.bind_eq_some_iff.mp hrun
  obtain ⟨page, -, hrun⟩ := Option.bind_eq_some_iff.mp hrun
  exact ⟨leaf, page, (Option.some.inj hrun).symm⟩

theorem addTuple_spec {t : Tuple K} {req req' : PackReq K} (hinv : PackInv cfg before metaHead req)
    (hrun : req.addTuple cfg t = some req') :
    PackInv cfg before metaHead req' ∧ Keeps req req' := by
  unfold addTuple at hrun
  cases htry : req.trySetTuple cfg t with
  | some set =>
      rw [htry] at hrun
      obtain rfl := Option.some.inj hrun
      obtain ⟨addr, page, rfl⟩ := trySetTuple_spec htry
      exact ⟨hinv.of_eq rfl rfl rfl fun _ => rfl, Keeps.of_eq rfl rfl rfl rfl⟩
  | none =>
      rw [htry] at hrun
      obtain ⟨created, hnew, hset⟩ := Option.bind_eq_some_iff.mp hrun
      obtain ⟨hinv', hkeeps, -⟩ := createNextNode_spec maxHeight (le_refl _) hinv hnew
      obtain ⟨addr, page, rfl⟩ := trySetTuple_spec hset
      have hpage : Keeps created (created.setPage addr page) := Keeps.of_eq rfl rfl rfl rfl
      exact ⟨hinv'.of_eq rfl rfl rfl fun _ => rfl, hkeeps.trans hpage⟩

def LocksOpen (req : PackReq K) : Prop := ∀ a, req.held.count a = req.openCount a

theorem Keeps.locksOpen {req req' : PackReq K} (h : Keeps req req') (hlocks : LocksOpen req) :
    LocksOpen req' := by
  intro a
  have hcount := h.count_eq a
  have := hlocks a
  rw [List.count_nil] at hcount
  omega

/-- **One tuple.**  The loop goes on with one tuple more, or the message was not valid and nothing
has changed. -/
theorem packLoop_spec {t : Tuple K} {req req' : PackReq K} {status : PackStatus}
    (hinv : PackInv cfg before metaHead req) (hlocks : LocksOpen req)
    (hrun : req.packLoop cfg t = some (status, req')) :
    PackInv cfg before metaHead req' ∧ LocksOpen req' ∧
      req'.rootAddr = req.rootAddr ∧
      (status = .ok ∧ isInvalidUserType t.msg = false ∧ req'.numTuples = req.numTuples + 1 ∨
        status = .invalidState ∧ isInvalidUserType t.msg = true) := by
  unfold packLoop at hrun
  cases hmsg : isInvalidUserType t.msg with
  | true =>
      rw [if_pos hmsg] at hrun
      cases hrun
      exact ⟨hinv, hlocks, rfl, Or.inr ⟨rfl, rfl⟩⟩
  | false =>
      rw [if_neg (by rw [hmsg]; exact Bool.false_ne_true)] at hrun
      obtain ⟨added, hadd, heq⟩ := Option.map_eq_some_iff.mp hrun
      cases heq
      obtain ⟨hinv', hkeeps⟩ := addTuple_spec hinv hadd
      refine ⟨?_, hkeeps.locksOpen hlocks, hkeeps.rootAddr_eq, Or.inl ⟨rfl, rfl, ?_⟩⟩
      · exact hinv'.of_eq rfl rfl rfl fun l => length_updateStats ..
      · show added.numTuples + 1 = _
        rw [hkeeps.numTuples_eq]

/-! ## The beginning -/

theorem setupStart_spec {pages : Nat → Page K} {al : Extents} {req : PackReq K}
    (hsupply : al.supply.Nodup)
    (hfresh : ∀ e ∈ al.supply, al.refCount e = 0 ∧ Alloc.IsExtent cfg.extents e)
    (hrun : setupStart cfg pages al = some req) :
    ∃ metaHead, PackInv cfg al.refCount metaHead req ∧ LocksOpen req ∧ req.numTuples = 0 ∧
      Alloc.IsExtent cfg.extents req.rootAddr ∧
      cfg.extents.baseAddr req.rootAddr = cfg.extents.baseAddr metaHead ∧
      Alloc.HandsOut cfg.extents req.alloc [] ∧ ∀ h, req.edge h = [] := by
  obtain ⟨⟨root, al'⟩, halloc, hrun⟩ := Option.bind_eq_some_iff.mp hrun
  obtain ⟨alloc, hinit, hrun⟩ := Option.bind_eq_some_iff.mp hrun
  obtain rfl := Option.some.inj hrun
  have hroot : Alloc.IsExtent cfg.extents root := by
    unfold Extents.alloc at halloc
    obtain ⟨refCount, supply⟩ := al
    cases supply with
    | nil => cases halloc
    | cons addr supply =>
        cases halloc
        exact (hfresh root List.mem_cons_self).2
  have hbase : cfg.extents.baseAddr (root + cfg.extents.pageSize) = root := by
    have hne : (root + cfg.extents.pageSize) % cfg.extents.extentSize ≠ 0 := by
      have hpage := cfg.extents.pageSize_ge
      have hextent : cfg.extents.pageSize * 2 ≤ cfg.extents.extentSize :=
        Nat.mul_le_mul_left _ cfg.extents.pagesPerExtent_ge
      rw [Nat.add_mod, hroot.1, Nat.zero_add, Nat.mod_mod, Nat.mod_eq_of_lt (by omega)]
      omega
    rw [Alloc.baseAddr_add_pageSize hroot.pageSize_dvd hne, hroot.baseAddr_eq]
  obtain ⟨howns, hlen, hnext, hpages⟩ := Alloc.miniInit_owns hsupply hfresh halloc hbase
    (Nat.dvd_add hroot.pageSize_dvd (Nat.dvd_refl _)) hinit
  refine ⟨root + cfg.extents.pageSize, ?_, ?_, rfl, hroot, hroot.baseAddr_eq.trans hbase.symm,
    Alloc.handsOut_init hnext hpages, fun _ => rfl⟩
  · exact ⟨howns, hlen, show 0 < maxHeight by decide, fun _ _ => rfl, fun _ => rfl⟩
  · intro a
    unfold openCount
    exact (Finset.sum_eq_zero fun _ _ => List.count_nil).symm

/-! ## The end -/

theorem unlockAll_spec (pages : List Nat) :
    ∀ {req req' : PackReq K}, req.unlockAll pages = some req' →
      Releases req req' pages ∧ req'.alloc = req.alloc ∧ req'.edge = req.edge := by
  induction pages with
  | nil =>
      intro req req' hrun
      obtain rfl := Option.some.inj hrun
      exact ⟨Keeps.of_eq rfl rfl rfl rfl, rfl, rfl⟩
  | cons addr pages ih =>
      intro req req' hrun
      obtain ⟨mid, hunlock, hrest⟩ := Option.bind_eq_some_iff.mp hrun
      obtain ⟨hrel₁, halloc₁, -, hedge₁, -⟩ := unlock_spec hunlock
      obtain ⟨hrel₂, halloc₂, hedge₂⟩ := ih hrest
      exact ⟨hrel₁.trans hrel₂, halloc₂.trans halloc₁, hedge₂.trans hedge₁⟩

private theorem count_flatMap_range (edge : Nat → List Nat) (a n : Nat) :
    ((List.range n).flatMap edge).count a = ∑ h ∈ Finset.range n, (edge h).count a := by
  induction n with
  | zero => rfl
  | succ n ih =>
      rw [List.range_succ, List.flatMap_append, List.count_append, ih, Finset.sum_range_succ,
        List.flatMap_singleton]

theorem count_openPages {req : PackReq K} (hinv : PackInv cfg before metaHead req) (a : Nat) :
    req.openPages.count a = req.openCount a := by
  unfold openPages openCount
  rw [count_flatMap_range, ← Finset.sum_range fun h => (req.edge h).count a]
  refine Finset.sum_subset ?_ ?_
  · intro h hmem
    have := hinv.height_lt
    have := Finset.mem_range.mp hmem
    exact Finset.mem_range.mpr (by omega)
  · intro h _ hnot
    have hlt : req.height < h := by
      have := mt Finset.mem_range.mpr hnot
      omega
    rw [hinv.edge_eq_nil h hlt, List.count_nil]

/-- Every height has an extent that no page was taken from, and these extents stay allocated. -/
def LeaksExtents (before after : Nat → Nat) : Prop :=
  ∃ spare : List Nat, spare.length = maxHeight ∧ spare.Nodup ∧
    ∀ e, after e = before e + if e ∈ spare then Alloc.oneRef else 0

theorem LeaksExtents.ne {after : Nat → Nat} (h : LeaksExtents before after) : after ≠ before := by
  obtain ⟨spare, hlen, -, hcount⟩ := h
  rintro rfl
  cases spare with
  | nil => cases hlen
  | cons e spare =>
      have he := hcount e
      rw [if_pos List.mem_cons_self] at he
      have : Alloc.oneRef = 2 := rfl
      omega

theorem packAbort_spec {req req' : PackReq K} (hinv : PackInv cfg before metaHead req)
    (hlocks : LocksOpen req) (hrun : packAbort cfg req = some req') :
    req'.held = [] ∧ LeaksExtents before req'.alloc.al.refCount := by
  obtain ⟨mid, hunlock, hrun⟩ := Option.bind_eq_some_iff.mp hrun
  obtain ⟨⟨ref, al⟩, hdec, hrun⟩ := Option.bind_eq_some_iff.mp hrun
  obtain rfl := Option.some.inj hrun
  obtain ⟨hrel, halloc, hedge⟩ := unlockAll_spec req.openPages hunlock
  constructor
  · refine List.eq_nil_iff_forall_not_mem.mpr fun a ha => ?_
    have hcount := hrel.count_eq a
    have hpos : 0 < mid.held.count a := List.count_pos_iff.mpr ha
    rw [count_openPages hinv, hlocks a, openCount_congr hedge] at hcount
    omega
  · have howned : Alloc.OwnedExtents cfg.extents before metaHead req.alloc.al
        (Alloc.metaExtents cfg.extents req.alloc.mini.metaPages ++
          Alloc.recorded req.alloc.mini.metaPages ++ req.alloc.mini.nextExtent) := by
      have howned := hinv.owns.owned
      rw [List.append_nil] at howned
      exact howned
    obtain ⟨al', hdec', hcount⟩ := Alloc.miniDecRef_spec cfg.extents howned hinv.owns.head_eq
    rw [halloc, hdec'] at hdec
    cases hdec
    have hnodup : req.alloc.mini.nextExtent.Nodup :=
      (List.nodup_append.mp (List.nodup_append.mp howned.nodup).1).2.1
    refine ⟨req.alloc.mini.nextExtent, hinv.batches, hnodup, ?_⟩
    intro e
    rw [hcount e]
    by_cases he : e ∈ req.alloc.mini.nextExtent
    · rw [if_pos he, List.count_eq_one_of_mem hnodup he]
      rfl
    · rw [if_neg he, List.count_eq_zero.mpr he]

/-! ## Whole packs -/

/-- An input that a pack does not fail on: no more tuples than the limit, no message that a user
may not give, and no error of the iterator. -/
def Packable (maxTuples : Nat) (input : List (Tuple K × Option Nat)) : Prop :=
  input.length ≤ maxTuples ∧ ∀ p ∈ input, isInvalidUserType p.1.msg = false ∧ p.2 = none

instance (maxTuples : Nat) (input : List (Tuple K × Option Nat)) :
    Decidable (Packable maxTuples input) :=
  inferInstanceAs (Decidable (_ ∧ _))

theorem packable_nil (maxTuples : Nat) : Packable maxTuples ([] : List (Tuple K × Option Nat)) :=
  ⟨Nat.zero_le _, fun _ hp => (List.not_mem_nil hp).elim⟩

theorem packable_cons {maxTuples : Nat} {t : Tuple K} {rc : Option Nat}
    {input : List (Tuple K × Option Nat)} :
    Packable maxTuples ((t, rc) :: input) ↔ 0 < maxTuples ∧ isInvalidUserType t.msg = false ∧
      rc = none ∧ Packable (maxTuples - 1) input := by
  unfold Packable
  rw [List.forall_mem_cons, List.length_cons]
  constructor
  · rintro ⟨hlen, ⟨hmsg, hrc⟩, hrest⟩
    exact ⟨by omega, hmsg, hrc, by omega, hrest⟩
  · rintro ⟨hpos, hmsg, hrc, hlen, hrest⟩
    exact ⟨by omega, ⟨hmsg, hrc⟩, hrest⟩

private theorem fail_spec {req req' : PackReq K} {fail status : PackStatus} {packable : Prop}
    (hinv : PackInv cfg before metaHead req) (hlocks : LocksOpen req) (hfail : fail ≠ .ok)
    (hnot : ¬ packable)
    (hrun : (packAbort cfg req).map (fun req => (fail, req)) = some (status, req')) :
    (status = .ok ↔ packable) ∧
      (status ≠ .ok → req'.held = [] ∧ LeaksExtents before req'.alloc.al.refCount) := by
  obtain ⟨aborted, habort, heq⟩ := Option.map_eq_some_iff.mp hrun
  cases heq
  exact ⟨iff_of_false hfail hnot, fun _ => packAbort_spec hinv hlocks habort⟩

theorem packTuples_spec (input : List (Tuple K × Option Nat)) :
    ∀ {req req' : PackReq K} {status : PackStatus}, PackInv cfg before metaHead req →
      LocksOpen req → req.packTuples cfg input = some (status, req') →
      (status = .ok ↔ Packable (cfg.maxTuples - req.numTuples) input) ∧
        (status ≠ .ok → req'.held = [] ∧ LeaksExtents before req'.alloc.al.refCount) := by
  induction input with
  | nil =>
      intro req req' status hinv hlocks hrun
      obtain ⟨packed, -, heq⟩ := Option.map_eq_some_iff.mp hrun
      cases heq
      exact ⟨iff_of_true rfl (packable_nil _), fun hne => absurd rfl hne⟩
  | cons p input ih =>
      obtain ⟨t, rc⟩ := p
      intro req req' status hinv hlocks hrun
      unfold packTuples at hrun
      by_cases hroom : req.numTuples < cfg.maxTuples
      · rw [if_neg (not_not_intro hroom)] at hrun
        cases hloop : packLoop cfg t req with
        | none =>
            rw [hloop] at hrun
            cases hrun
        | some result =>
            obtain ⟨loopStatus, mid⟩ := result
            rw [hloop] at hrun
            obtain ⟨hinv', hlocks', -, hcase⟩ := packLoop_spec hinv hlocks hloop
            rcases hcase with ⟨rfl, hmsg, hnum⟩ | ⟨rfl, hmsg⟩
            · cases rc with
              | none =>
                  obtain ⟨hiff, hleak⟩ := ih hinv' hlocks' hrun
                  refine ⟨?_, hleak⟩
                  rw [hiff, packable_cons, hnum, Nat.sub_add_eq]
                  constructor
                  · exact fun h => ⟨by omega, hmsg, rfl, h⟩
                  · exact fun h => h.2.2.2
              | some rc =>
                  refine fail_spec hinv' hlocks' (show PackStatus.iterator rc ≠ .ok by simp) ?_ hrun
                  rw [packable_cons]
                  rintro ⟨-, -, hrc, -⟩
                  cases hrc
            · refine fail_spec hinv' hlocks' (show PackStatus.invalidState ≠ .ok by simp) ?_ hrun
              rw [packable_cons, hmsg]
              rintro ⟨-, hvalid, -⟩
              cases hvalid
      · rw [if_pos hroom] at hrun
        refine fail_spec hinv hlocks (show PackStatus.limitExceeded ≠ .ok by simp) ?_ hrun
        rw [packable_cons]
        omega

end PackReq

open Alloc (Extents)
open PackReq (LeaksExtents Packable)

/-- **A failed pack** holds no lock, but every height leaks the extent that its batch has taken in
advance: `btree_pack_abort` drops the reference to the tree without `mini_release`. -/
theorem pack_abort_leaks {K : Type} (cfg : PackConfig K) (pages : Nat → Page K) (al : Extents)
    (input : List (Tuple K × Option Nat)) (status : PackStatus) (req : PackReq K)
    (hsupply : al.supply.Nodup)
    (hfresh : ∀ e ∈ al.supply, al.refCount e = 0 ∧ Alloc.IsExtent cfg.extents e)
    (hrun : pack cfg pages al input = some (status, req)) (hfail : status ≠ .ok) :
    req.held = [] ∧ LeaksExtents al.refCount req.alloc.al.refCount := by
  obtain ⟨start, hstart, hrun⟩ := Option.bind_eq_some_iff.mp hrun
  obtain ⟨metaHead, hinv, hlocks, -, -⟩ := PackReq.setupStart_spec hsupply hfresh hstart
  exact (PackReq.packTuples_spec input hinv hlocks hrun).2 hfail

/-- **What a pack gives back.**  If it fails, the thread holds no page and the counts of all extents
are as before exactly when there is nothing that it could fail on: every failure leaks. -/
theorem pack_gives_back_iff {K : Type} (cfg : PackConfig K) (pages : Nat → Page K) (al : Extents)
    (input : List (Tuple K × Option Nat)) (status : PackStatus) (req : PackReq K)
    (hsupply : al.supply.Nodup)
    (hfresh : ∀ e ∈ al.supply, al.refCount e = 0 ∧ Alloc.IsExtent cfg.extents e)
    (hrun : pack cfg pages al input = some (status, req)) :
    (status ≠ .ok → req.held = [] ∧ req.alloc.al.refCount = al.refCount) ↔
      Packable cfg.maxTuples input := by
  have hleaks := pack_abort_leaks cfg pages al input status req hsupply hfresh hrun
  obtain ⟨start, hstart, hpack⟩ := Option.bind_eq_some_iff.mp hrun
  obtain ⟨metaHead, hinv, hlocks, hnum, -⟩ := PackReq.setupStart_spec hsupply hfresh hstart
  have hiff := (PackReq.packTuples_spec input hinv hlocks hpack).1
  rw [hnum, Nat.sub_zero] at hiff
  rw [← hiff]
  constructor
  · intro hback
    by_contra hne
    exact (hleaks hne).2.ne (hback hne).2
  · exact fun hok hne => absurd hok hne

/-- Pages of 4096 bytes in extents of 32, and a limit of one tuple. -/
private def oneTuple : PackConfig Nat where
  btree := ⟨4096, fun _ => 8⟩
  extents := ⟨4096, 32, by decide, by decide⟩
  maxTuples := 1
  hash := none

private def noPages : Nat → Page Nat := fun _ => Page.init oneTuple.btree

private def tenExtents : Extents := ⟨fun _ => 0, (List.range 10).map fun i => (i + 1) * 131072⟩

private theorem tenExtents_fresh :
    ∀ e ∈ tenExtents.supply, tenExtents.refCount e = 0 ∧ Alloc.IsExtent oneTuple.extents e := by
  intro e he
  obtain ⟨i, hi, rfl⟩ := List.mem_map.mp he
  have hlt := List.mem_range.mp hi
  refine ⟨rfl, ?_, by omega, ?_⟩
  · show (i + 1) * 131072 % (4096 * 32) = 0
    omega
  · show (i + 1) * 131072 + 4096 * 32 ≤ 18446744073709551616
    omega

private def twoTuples : List (Tuple Nat × Option Nat) :=
  [(⟨1, ⟨.insert, [1]⟩⟩, none), (⟨2, ⟨.insert, [2]⟩⟩, none)]

private def failedPack : Option (PackStatus × PackReq Nat) :=
  pack oneTuple noPages tenExtents twoTuples

private theorem failedPack_status : failedPack.map Prod.fst = some .limitExceeded := by
  decide +kernel

theorem pack_gives_back_two_tuples :
    ∃ status req, failedPack = some (status, req) ∧
      ((status ≠ .ok → req.held = [] ∧ req.alloc.al.refCount = tenExtents.refCount) ↔
        Packable oneTuple.maxTuples twoTuples) := by
  obtain ⟨⟨status, req⟩, hrun, -⟩ := Option.map_eq_some_iff.mp failedPack_status
  exact ⟨status, req, hrun, pack_gives_back_iff oneTuple noPages tenExtents twoTuples status req
    (by decide) tenExtents_fresh hrun⟩

/-- With two tuples and a limit of one, the extents that were taken in advance stay allocated. -/
theorem pack_not_gives_back :
    ¬ ∀ (cfg : PackConfig Nat) (pages : Nat → Page Nat) (al : Extents)
      (input : List (Tuple Nat × Option Nat)) (status : PackStatus) (req : PackReq Nat),
      al.supply.Nodup → (∀ e ∈ al.supply, al.refCount e = 0 ∧ Alloc.IsExtent cfg.extents e) →
      pack cfg pages al input = some (status, req) → status ≠ .ok →
      req.held = [] ∧ req.alloc.al.refCount = al.refCount := by
  intro h
  have hspare : failedPack.map (fun r => r.2.alloc.al.refCount (3 * 131072)) = some 2 := by
    decide +kernel
  obtain ⟨⟨status, req⟩, hrun, hstatus⟩ := Option.map_eq_some_iff.mp failedPack_status
  rw [hrun] at hspare
  have hne : status ≠ .ok := by
    rw [show status = .limitExceeded from hstatus]
    decide
  obtain ⟨-, hcount⟩ := h oneTuple noPages tenExtents twoTuples status req (by decide)
    tenExtents_fresh hrun hne
  have hcount' : req.alloc.al.refCount (3 * 131072) = 2 := Option.some.inj hspare
  rw [hcount] at hcount'
  exact absurd hcount' (by decide)

end Btree
end TreePass
