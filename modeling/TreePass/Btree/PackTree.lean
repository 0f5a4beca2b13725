import TreePass.Btree.PackShape

/-!
# Packed trees

A pack that succeeds leaves a tree in levels, whose leaves hold the tuples of the input in order.

* `packTuples_shape` is the loop over the tuples, and `linkLevels_shape` the one that closes the
  heights.
* `LevelPages` is what they leave, and `LevelPages.levelShaped` the tree that its readers see.
* `pack_levelPages` is the result.
-/

namespace TreePass
namespace Btree
namespace PackReq

variable {K : Type} {cfg : PackConfig K} {before : Nat → Nat} {metaHead : Nat}

/-! ## The loop over the tuples -/

/-- The tree between two tuples: the leaves hold the tuples so far. -/
structure Holds (cfg : PackConfig K) (before : Nat → Nat) (metaHead : Nat) (tuples : List (Tuple K))
    (req : PackReq K) : Prop where
  inv : PackInv cfg before metaHead req
  stats : EdgeStats cfg 0 req
  shape : ∃ closed out, Shape cfg 0 closed out none req ∧ OpenFrom 0 closed req ∧
    entriesAt closed req 0 = tuples.map Entry.leaf

theorem trySetTuple_shape {closed : Nat → List Nat} {out : List Nat} {hole : Option Nat}
    {req req' : PackReq K} {t : Tuple K} (hinv : PackInv cfg before metaHead req)
    (hshape : Shape cfg 0 closed out hole req)
    (hhole : ∀ a, hole = some a → req.currentNode 0 = some a) (hstats : EdgeStats cfg 0 req)
    (hrun : req.trySetTuple cfg t = some req') :
    Shape cfg 0 closed out none req' ∧ EdgeStats cfg 0 (req'.countTuple cfg t) ∧
      entriesAt closed req' 0 = entriesAt closed req 0 ++ [.leaf t] ∧ req'.edge = req.edge := by
  have hbounds := out_bounds hinv.owns hshape.hands
  obtain ⟨leaf, hleaf, hrun⟩ := Option.bind_eq_some_iff.mp hrun
  obtain ⟨page, hpage, hrun⟩ := Option.bind_eq_some_iff.mp hrun
  obtain rfl := Option.some.inj hrun
  obtain ⟨hshape', hentries⟩ := hshape.append (fun a ha => (hbounds a ha).1) hleaf
    (fun a ha => Option.some.inj ((hhole a ha).symm.trans hleaf)) (Page.setLeafEntry_appends hpage)
  exact ⟨hshape', hshape.append_stats (fun a ha => (hbounds a ha).1) hleaf
    (Page.setLeafEntry_appends hpage) hstats, hentries, rfl⟩

theorem addTuple_shape {tuples : List (Tuple K)} {req req' : PackReq K} {t : Tuple K}
    (hholds : Holds cfg before metaHead tuples req) (hrun : req.addTuple cfg t = some req') :
    Holds cfg before metaHead (tuples ++ [t]) (req'.countTuple cfg t) := by
  obtain ⟨hinv, hstats, closed, out, hshape, hopen, hentries⟩ := hholds
  have hinv' : PackInv cfg before metaHead (req'.countTuple cfg t) :=
    (addTuple_spec hinv hrun).1.of_eq rfl rfl rfl fun l => length_updateStats ..
  suffices hset : EdgeStats cfg 0 (req'.countTuple cfg t) ∧ ∃ closed out,
      Shape cfg 0 closed out none req' ∧ OpenFrom 0 closed req' ∧
        entriesAt closed req' 0 = (tuples ++ [t]).map Entry.leaf by
    obtain ⟨hstats', closed', out', hshape', hopen', hentries'⟩ := hset
    exact ⟨hinv', hstats', closed', out', hshape'.of_eq rfl rfl rfl, hopen', hentries'⟩
  unfold addTuple at hrun
  cases htry : req.trySetTuple cfg t with
  | some set =>
      rw [htry] at hrun
      obtain rfl := Option.some.inj hrun
      have hnone : ∀ a, (none : Option Nat) = some a → req.currentNode 0 = some a := by
        intro a ha
        cases ha
      obtain ⟨hshape', hstats', hentries', hedge⟩ :=
        trySetTuple_shape hinv hshape hnone hstats htry
      refine ⟨hstats', closed, out, hshape', ?_, ?_⟩
      · unfold OpenFrom
        rw [hedge]
        exact hopen
      · rw [hentries', hentries, List.map_append]
        rfl
  | none =>
      rw [htry] at hrun
      obtain ⟨created, hnew, hset⟩ := Option.bind_eq_some_iff.mp hrun
      obtain ⟨hinv₁, hstats₁, closed', out', new, hshape₁, hopen₁, -, hcur, hentries₁⟩ :=
        createNextNode_shape maxHeight (le_refl _) _ _ _ _ _ hinv hshape hopen hstats hnew
      have hhole : ∀ a, some new = some a → created.currentNode 0 = some a := by
        rintro a ha
        rw [hcur, ha]
      obtain ⟨hshape₂, hstats₂, hentries₂, hedge⟩ :=
        trySetTuple_shape hinv₁ hshape₁ hhole hstats₁ hset
      refine ⟨hstats₂, closed', out', hshape₂, ?_, ?_⟩
      · unfold OpenFrom
        rw [hedge]
        exact hopen₁
      · rw [hentries₂, hentries₁, hentries, List.map_append]
        rfl

/-- **The loop over the tuples** of a pack that succeeds: when the input is used up, the leaves hold
it. -/
theorem packTuples_shape (input : List (Tuple K × Option Nat)) :
    ∀ {tuples : List (Tuple K)} {req req' : PackReq K}, Holds cfg before metaHead tuples req →
      LocksOpen req → req.packTuples cfg input = some (.ok, req') →
      ∃ last, Holds cfg before metaHead (tuples ++ input.map Prod.fst) last ∧ LocksOpen last ∧
        last.rootAddr = req.rootAddr ∧ last.numTuples = req.numTuples + input.length ∧
        packPostLoop cfg last = some req' := by
  induction input with
  | nil =>
      intro tuples req req' hholds hlocks hrun
      obtain ⟨packed, hpost, heq⟩ := Option.map_eq_some_iff.mp hrun
      cases heq
      refine ⟨req, ?_, hlocks, rfl, rfl, hpost⟩
      rw [List.map_nil, List.append_nil]
      exact hholds
  | cons p input ih =>
      obtain ⟨t, rc⟩ := p
      intro tuples req req' hholds hlocks hrun
      have hfail : ∀ {fail : PackStatus} {req : PackReq K}, fail ≠ .ok →
          (packAbort cfg req).map (fun req => (fail, req)) ≠ some (.ok, req') := by
        intro fail req hfail heq
        obtain ⟨aborted, -, hpair⟩ := Option.map_eq_some_iff.mp heq
        cases hpair
        exact hfail rfl
      unfold packTuples at hrun
      by_cases hroom : req.numTuples < cfg.maxTuples
      · rw [if_neg (not_not_intro hroom)] at hrun
        cases hloop : packLoop cfg t req with
        | none =>
            rw [hloop] at hrun
            cases hrun
        | some result =>
            obtain ⟨loopStatus, mid⟩ := result
            obtain ⟨hinv', hlocks', hroot, hcase⟩ := packLoop_spec hholds.inv hlocks hloop
            rw [hloop] at hrun
            rcases hcase with ⟨rfl, hmsg, hnum⟩ | ⟨rfl, hmsg⟩
            · cases rc with
              | none =>
                  have hmid : Holds cfg before metaHead (tuples ++ [t]) mid := by
                    unfold packLoop at hloop
                    rw [if_neg (by rw [hmsg]; exact Bool.false_ne_true)] at hloop
                    obtain ⟨added, hadd, heq⟩ := Option.map_eq_some_iff.mp hloop
                    cases heq
                    exact addTuple_shape hholds hadd
                  obtain ⟨last, hlast, hlocksLast, hrootLast, hnumLast, hpost⟩ :=
                    ih hmid hlocks' hrun
                  refine ⟨last, ?_, hlocksLast, hrootLast.trans hroot, ?_, hpost⟩
                  · rw [List.map_cons, List.append_cons]
                    exact hlast
                  · rw [hnumLast, hnum, List.length_cons]
                    omega
              | some rc => exact absurd hrun (hfail (by simp))
            · exact absurd hrun (hfail (by simp))
      · rw [if_pos hroom] at hrun
        exact absurd hrun (hfail (by simp))

/-! ## Closing the heights -/

/-- The heights below `h` are closed. -/
structure ClosedBelow (cfg : PackConfig K) (before : Nat → Nat) (metaHead h : Nat)
    (closed : Nat → List Nat) (out : List Nat) (req : PackReq K) : Prop where
  inv : PackInv cfg before metaHead req
  shape : Shape cfg 0 closed out none req
  stats : EdgeStats cfg h req
  openFrom : OpenFrom h closed req
  edge_eq : ∀ i, i < h → req.edge i = []

theorem ClosedBelow.linkExtent {levels h : Nat} {closed : Nat → List Nat} {out : List Nat}
    {req req' : PackReq K} (hclosed : ClosedBelow cfg before metaHead h closed out req)
    (hlevels : levels + (h + 1) ≤ maxHeight)
    (hrun : linkExtent cfg (createNextNode cfg levels (h + 1)) h 0 req = some req') :
    ∃ closed' out', ClosedBelow cfg before metaHead (h + 1) closed' out' req' ∧ Keeps req req' ∧
      entriesAt closed' req' 0 = entriesAt closed req 0 := by
  obtain ⟨hinv, hshape, hstats, hopen, hedges⟩ := hclosed
  have habove : CreatesAbove cfg before metaHead h (createNextNode cfg levels (h + 1)) := by
    intro pivot req req' hinv hrun
    obtain ⟨hinv', hkeeps, hsame⟩ := createNextNode_spec _ hlevels hinv hrun
    exact ⟨hinv', hkeeps, fun l hl => hsame l (Nat.lt_succ_of_le hl)⟩
  obtain ⟨hinv', hkeeps, -, -⟩ := linkExtent_spec habove (by omega) hinv hrun
  obtain ⟨closed', out', hshape', hopen', hstats', hlinks', hframe, hclosed', hedge', hkept⟩ :=
    linkExtent_shape (createNextNode_shape levels hlevels) habove hinv (hshape.mono (Nat.zero_le _))
      (fun i hi => hopen i (by omega)) hstats (hshape.links h (Nat.zero_le h))
      (hshape.level h (Nat.zero_le h)).height_eq hrun
  -- The nodes of the height and those below it keep their entries.
  have hnodes : ∀ i, i ≤ h → closed' i ++ req'.edge i = closed i ++ req.edge i := by
    intro i hi
    rcases Nat.lt_or_eq_of_le hi with hlt | rfl
    · rw [hframe.closed_eq i hlt, hframe.edge_eq i hlt]
    · rw [hclosed', hedge', List.append_nil]
  have hsame : ∀ i, i ≤ h → ∀ a ∈ closed i ++ req.edge i,
      (req.pages a).SameNode (req'.pages a) := by
    intro i hi a ha
    exact hkept a (hshape.known i a ha) (by
      rw [(hshape.level i (Nat.zero_le i)).height_eq a ha]
      exact hi)
  refine ⟨closed', out', ⟨hinv', ⟨hshape'.hands, hshape'.known, ?_, ?_⟩,
    hstats'.mono (Nat.le_succ h), hopen', ?_⟩, hkeeps, ?_⟩
  · intro i _
    by_cases hi : i ≤ h
    · rw [hnodes i hi]
      exact (hshape.level i (Nat.zero_le i)).of_same (hsame i hi)
    · exact hshape'.level i (by omega)
  · intro i _
    rcases Nat.lt_trichotomy i h with hlt | rfl | hgt
    · refine (hshape.links i (Nat.zero_le i)).of_slots (hframe.closed_eq i hlt)
        (hnodes (i + 1) hlt) ?_ ?_
      · exact fun a ha => (hsame (i + 1) hlt a ha).slots_eq
      · exact fun a ha => (hsame i hlt.le a (List.mem_append_left _ ha)).slots_eq
    · exact hlinks'
    · exact hshape'.links i hgt
  · intro i hi
    rcases Nat.lt_or_eq_of_le (Nat.le_of_lt_succ hi) with hlt | rfl
    · rw [hframe.edge_eq i hlt]
      exact hedges i hlt
    · exact hedge'
  · exact entriesAt_congr (hnodes 0 (Nat.zero_le h)) fun a ha =>
      (hsame 0 (Nat.zero_le h) a ha).slots_eq

theorem linkLevels_shape (levels : Nat) :
    ∀ {h top : Nat} {closed : Nat → List Nat} {out : List Nat} {req req' : PackReq K},
      ClosedBelow cfg before metaHead h closed out req → levels + h ≤ maxHeight →
      linkLevels cfg levels h req = some (top, req') →
      ∃ closed' out', ClosedBelow cfg before metaHead top closed' out' req' ∧ Keeps req req' ∧
        entriesAt closed' req' 0 = entriesAt closed req 0 ∧ req'.height ≤ top ∧
        (req'.edge top).length ≤ 1 := by
  induction levels with
  | zero =>
      intro h top closed out req req' hclosed _ hrun
      unfold linkLevels at hrun
      split at hrun
      · cases hrun
      · rename_i hdone
        cases hrun
        exact ⟨closed, out, hclosed, Keeps.of_eq rfl rfl rfl rfl, rfl, by omega,
          not_lt.mp fun hlt => hdone (Or.inr hlt)⟩
  | succ levels ih =>
      intro h top closed out req req' hclosed hlevels hrun
      unfold linkLevels at hrun
      split at hrun
      · obtain ⟨mid, hlink, hrest⟩ := Option.bind_eq_some_iff.mp hrun
        obtain ⟨closed₁, out₁, hclosed₁, hkeeps₁, hentries₁⟩ :=
          hclosed.linkExtent (by omega) hlink
        obtain ⟨closed₂, out₂, hclosed₂, hkeeps₂, hentries₂, hheight, hone⟩ :=
          ih hclosed₁ (by omega) hrest
        exact ⟨closed₂, out₂, hclosed₂, hkeeps₁.trans hkeeps₂, hentries₂.trans hentries₁, hheight,
          hone⟩
      · rename_i hdone
        cases hrun
        exact ⟨closed, out, hclosed, Keeps.of_eq rfl rfl rfl rfl, rfl, by omega,
          not_lt.mp fun hlt => hdone (Or.inr hlt)⟩

end PackReq

/-! ## Levels of pages -/

/-- **What a pack leaves**: the pages of every height, from left to right, up to the root. -/
structure LevelPages (cfg : Config K) (pages : Nat → Page K) (rootAddr top : Nat)
    (nodes : Nat → List Nat) (tuples : List (Tuple K)) : Prop where
  root_eq : nodes top = [rootAddr]
  height_eq : ∀ h, h ≤ top → ∀ a ∈ nodes h, (pages a).height = h
  nonempty : ∀ h, h ≤ top → ∀ a ∈ nodes h, (pages a).slots ≠ []
  linked : ∀ h, h ≤ top → Linked (fun a => (pages a).view) 0 (nodes h)
  addr_ne_zero : ∀ h, h ≤ top → ∀ a ∈ nodes h, a ≠ 0
  aligned : ∀ h, h < top → ∀ a ∈ nodes h, a < UInt64.size ∧ 4096 ∣ a
  leaves_eq : (nodes 0).flatMap (fun a => (pages a).storedEntries) = tuples.map Entry.leaf
  links : ∀ h, h < top →
    ((nodes (h + 1)).flatMap fun a => (pages a).storedEntries).map PackReq.linkOf =
      (nodes h).map (PackReq.linkTo cfg pages h)

def Entry.OfHeight (h : Nat) : Entry K → Prop
  | .leaf _ => h = 0
  | .index _ => h ≠ 0

private theorem testBit_of_aligned {a i : Nat} (haligned : 4096 ∣ a) (hi : i < 12) :
    a.testBit i = false := by
  obtain ⟨k, rfl⟩ := haligned
  have htwo : (4096 : Nat) = 2 ^ 12 := rfl
  rw [htwo, Nat.testBit_two_pow_mul, decide_eq_false (by omega), Bool.false_and]

private theorem maskBit : ∀ i : Fin 64, 12 ≤ i.val → (0xFFF : Addr).getLsbD i = false := by decide

theorem toNat_masked {a : Nat} (hbound : a < UInt64.size) (haligned : 4096 ∣ a) :
    (BitVec.ofNat 64 a &&& ~~~(0xFFF : Addr)).toNat = a := by
  have hsame : BitVec.ofNat 64 a &&& ~~~(0xFFF : Addr) = BitVec.ofNat 64 a := by
    refine BitVec.eq_of_getLsbD_eq fun i hi => ?_
    rw [BitVec.getLsbD_and, BitVec.getLsbD_not, BitVec.getLsbD_ofNat]
    by_cases hlow : i < 12
    · rw [testBit_of_aligned haligned hlow, Bool.and_false, Bool.false_and]
    · rw [maskBit ⟨i, hi⟩ (not_lt.mp hlow), decide_eq_true hi, Bool.not_false, Bool.and_true,
        Bool.and_true]
  rw [hsame]
  exact PackReq.toNat_ofNat hbound

def childOf (entry : Entry K) : Nat :=
  ((PackReq.linkOf entry).map fun e => e.maskedChildAddr.toNat).getD 0

namespace Page

variable {hdr : Page K} {h : Nat}

theorem firstKey_eq (hheight : hdr.height = h)
    (hkind : ∀ entry ∈ hdr.storedEntries, entry.OfHeight h) (hne : hdr.slots ≠ []) :
    ∃ k, PackReq.firstKey hdr h = some k ∧ hdr.view.keys.head? = some k := by
  obtain ⟨slot, rest, hslots⟩ := List.exists_cons_of_ne_nil hne
  have hfirst : slot.entry.OfHeight h := by
    refine hkind _ ?_
    unfold storedEntries
    rw [hslots]
    exact List.mem_cons_self
  unfold PackReq.firstKey Node.keys Node.entries view ondiskPivots getLeafEntry getIndexEntry
  rw [hslots, hheight]
  obtain ⟨offset, t | e⟩ := slot
  · have hzero : h = 0 := hfirst
    rw [if_pos hzero, if_pos hzero]
    exact ⟨Key.user t.key, rfl, rfl⟩
  · have hpos : h ≠ 0 := hfirst
    rw [if_neg hpos, if_neg hpos]
    exact ⟨e.pivot, rfl, rfl⟩

theorem children_eq (hpos : h ≠ 0) (hkind : ∀ entry ∈ hdr.storedEntries, entry.OfHeight h) :
    hdr.view.pivots.map IndexEntry.childAddr = hdr.storedEntries.map childOf := by
  show (hdr.ondiskPivots.map OndiskIndexEntry.view).map _ = _
  unfold storedEntries at hkind ⊢
  unfold ondiskPivots
  rw [List.map_map]
  generalize hdr.slots = slots at hkind ⊢
  induction slots with
  | nil => rfl
  | cons slot slots ih =>
      have hrest := ih fun entry hentry => hkind entry (List.mem_cons_of_mem _ hentry)
      obtain ⟨offset, t | e⟩ := slot
      · exact absurd (hkind (.leaf t) List.mem_cons_self) hpos
      · exact congrArg (e.maskedChildAddr.toNat :: ·) hrest

theorem mem_view_pivots {e : IndexEntry K} (he : e ∈ hdr.view.pivots) :
    ∃ e', Entry.index e' ∈ hdr.storedEntries ∧ e = e'.view := by
  obtain ⟨e', he', rfl⟩ := List.mem_map.mp he
  obtain ⟨⟨offset, t | e''⟩, hslot, heq⟩ := List.mem_filterMap.mp he'
  · cases heq
  · cases heq
    exact ⟨e', List.mem_map_of_mem hslot, rfl⟩

theorem storedEntries_of_leaf (hkind : ∀ entry ∈ hdr.storedEntries, entry.OfHeight 0) :
    hdr.storedEntries = hdr.view.tuples.map Entry.leaf := by
  show hdr.storedEntries = (hdr.slots.filterMap Slot.tuple?).map Entry.leaf
  unfold storedEntries at hkind ⊢
  generalize hdr.slots = slots at hkind ⊢
  induction slots with
  | nil => rfl
  | cons slot slots ih =>
      have hrest := ih fun entry hentry => hkind entry (List.mem_cons_of_mem _ hentry)
      obtain ⟨offset, t | e⟩ := slot
      · exact congrArg (Entry.leaf t :: ·) hrest
      · exact absurd rfl (hkind (.index e) List.mem_cons_self)

theorem keys_of_leaf (hheight : hdr.height = 0) :
    hdr.view.keys = hdr.view.tuples.map fun t => Key.user t.key := by
  have hview : hdr.view.height = 0 := hheight
  unfold Node.keys Node.entries
  rw [if_pos hview, List.map_map]
  rfl

end Page

namespace LevelPages

variable {cfg : Config K} {pages : Nat → Page K} {rootAddr top : Nat} {nodes : Nat → List Nat}
  {tuples : List (Tuple K)} (s : LevelPages cfg pages rootAddr top nodes tuples)

include s

theorem ofHeight (h : Nat) : h ≤ top → ∀ a ∈ nodes h, ∀ entry ∈ (pages a).storedEntries,
    entry.OfHeight h := by
  induction h with
  | zero =>
      intro _ a ha entry hentry
      have hmem : entry ∈ tuples.map Entry.leaf := by
        rw [← s.leaves_eq]
        exact List.mem_flatMap.mpr ⟨a, ha, hentry⟩
      obtain ⟨t, -, rfl⟩ := List.mem_map.mp hmem
      exact rfl
  | succ h ih =>
      intro hle a ha entry hentry
      have hmem : PackReq.linkOf entry ∈ (nodes h).map (PackReq.linkTo cfg pages h) := by
        rw [← s.links h hle]
        exact List.mem_map_of_mem (List.mem_flatMap.mpr ⟨a, ha, hentry⟩)
      obtain ⟨b, hb, hlink⟩ := List.mem_map.mp hmem
      obtain ⟨k, hk, -⟩ := Page.firstKey_eq (s.height_eq h (by omega) b hb) (ih (by omega) b hb)
        (s.nonempty h (by omega) b hb)
      unfold PackReq.linkTo at hlink
      rw [hk] at hlink
      cases entry with
      | leaf t => cases hlink
      | index e => exact Nat.succ_ne_zero h

theorem firstKey_spec {h : Nat} (hle : h ≤ top) {a : Nat} (ha : a ∈ nodes h) :
    ∃ k, PackReq.firstKey (pages a) h = some k ∧ (pages a).view.keys.head? = some k :=
  Page.firstKey_eq (s.height_eq h hle a ha) (s.ofHeight h hle a ha) (s.nonempty h hle a ha)

theorem children_eq {h : Nat} (hlt : h < top) :
    (nodes (h + 1)).flatMap (fun a => (pages a).view.pivots.map IndexEntry.childAddr) =
      nodes h := by
  have hpages : (nodes (h + 1)).flatMap (fun a => (pages a).view.pivots.map IndexEntry.childAddr) =
      ((nodes (h + 1)).flatMap fun a => (pages a).storedEntries).map childOf := by
    rw [List.map_flatMap]
    exact List.flatMap_congr fun a ha =>
      Page.children_eq (Nat.succ_ne_zero h) (s.ofHeight (h + 1) hlt a ha)
  have hlinks := congrArg (List.map fun link : Option (OndiskIndexEntry K) =>
    (link.map fun e => e.maskedChildAddr.toNat).getD 0) (s.links h hlt)
  rw [List.map_map, List.map_map] at hlinks
  rw [hpages]
  refine hlinks.trans ?_
  conv_rhs => rw [← List.map_id (nodes h)]
  refine List.map_congr_left fun a ha => ?_
  obtain ⟨k, hk, -⟩ := s.firstKey_spec hlt.le ha
  obtain ⟨hbound, haligned⟩ := s.aligned h hlt a ha
  show ((PackReq.linkTo cfg pages h a).map _).getD 0 = a
  unfold PackReq.linkTo
  rw [hk]
  exact toNat_masked hbound haligned

theorem tuples_eq : (nodes 0).flatMap (fun a => (pages a).view.tuples) = tuples := by
  have hinj : Function.Injective (Entry.leaf : Tuple K → Entry K) := by
    intro t t' heq
    cases heq
    rfl
  refine hinj.list_map ?_
  rw [← s.leaves_eq, List.map_flatMap]
  exact List.flatMap_congr fun a ha =>
    (Page.storedEntries_of_leaf (s.ofHeight 0 (Nat.zero_le top) a ha)).symm

theorem height_root : (pages rootAddr).view.height = top := by
  refine s.height_eq top (le_refl top) rootAddr ?_
  rw [s.root_eq]
  exact List.mem_singleton_self rootAddr

theorem nodesOfHeight_eq (n : Nat) : ∀ {h : Nat}, h + n = top →
    nodesOfHeight (fun a => (pages a).view) rootAddr h = nodes h := by
  induction n with
  | zero =>
      rintro h rfl
      have hroot : nodesOfHeight (fun a => (pages a).view) rootAddr
          (pages rootAddr).view.height = [rootAddr] := nodesOfHeight_root
      rw [s.height_root] at hroot
      exact hroot.trans s.root_eq.symm
  | succ n ih =>
      intro h hsum
      have hlt : h < ((fun a => (pages a).view) rootAddr).height := by
        show h < (pages rootAddr).view.height
        rw [s.height_root]
        omega
      rw [Btree.nodesOfHeight_eq hlt, ih (by omega)]
      exact s.children_eq (by omega)

theorem pivot_eq {h a : Nat} (hlt : h < top) (ha : a ∈ nodes (h + 1)) {e : IndexEntry K}
    (he : e ∈ (pages a).view.pivots) : (pages e.childAddr).view.keys.head? = some e.pivot := by
  obtain ⟨e', hentry, rfl⟩ := Page.mem_view_pivots he
  have hlink : PackReq.linkOf (.index e') ∈ (nodes h).map (PackReq.linkTo cfg pages h) := by
    rw [← s.links h hlt]
    exact List.mem_map_of_mem (List.mem_flatMap.mpr ⟨a, ha, hentry⟩)
  obtain ⟨b, hb, heq⟩ := List.mem_map.mp hlink
  obtain ⟨k, hk, hhead⟩ := s.firstKey_spec hlt.le hb
  obtain ⟨hbound, haligned⟩ := s.aligned h hlt b hb
  unfold PackReq.linkTo at heq
  rw [hk] at heq
  obtain rfl := Option.some.inj heq
  have hchild : (OndiskIndexEntry.mk ⟨BitVec.ofNat 64 b, nodeStats cfg (pages b)⟩
      k).view.childAddr = b := toNat_masked hbound haligned
  rw [hchild, hhead]
  rfl

theorem levelShaped [LinearOrder K] (hasc : tuples.Pairwise fun t t' => t.key < t'.key) :
    LevelShaped (fun a => (pages a).view) rootAddr := by
  have hroot := s.height_root
  have hnodes : ∀ h, h ≤ top → nodesOfHeight (fun a => (pages a).view) rootAddr h = nodes h :=
    fun h hle => s.nodesOfHeight_eq (top - h) (by omega)
  constructor
  · intro h hle a ha
    rw [hroot] at hle
    rw [hnodes h hle] at ha
    exact s.height_eq h hle a ha
  · intro h hle a ha hnil
    rw [hroot] at hle
    rw [hnodes h hle] at ha
    obtain ⟨k, -, hhead⟩ := s.firstKey_spec hle ha
    rw [hnil] at hhead
    cases hhead
  · intro h hlt a ha e he
    rw [hroot] at hlt
    rw [hnodes (h + 1) hlt] at ha
    exact s.pivot_eq hlt ha he
  · intro h hle
    rw [hroot] at hle
    rw [hnodes h hle]
    exact s.linked h hle
  · intro h hle hzero
    rw [hroot] at hle
    rw [hnodes h hle] at hzero
    exact s.addr_ne_zero h hle 0 hzero rfl
  · have hkeys : keysOfHeight (fun a => (pages a).view) rootAddr 0 =
        tuples.map fun t => Key.user t.key := by
      unfold keysOfHeight keyChunks
      rw [hnodes 0 (Nat.zero_le top), ← s.tuples_eq, List.map_flatMap, ← List.flatMap_def]
      exact List.flatMap_congr fun a ha => Page.keys_of_leaf (s.height_eq 0 (Nat.zero_le top) a ha)
    rw [hkeys]
    refine List.pairwise_map.mpr (hasc.imp fun hlt => ?_)
    exact WithBot.coe_lt_coe.mpr (WithTop.coe_lt_coe.mpr hlt)

end LevelPages

namespace PackReq

variable {K : Type} {cfg : PackConfig K} {before : Nat → Nat} {metaHead : Nat}

/-! ## The root -/

/-- The nodes of a packed tree: those that were closed, and the root in place of the last one. -/
def packedNodes (closed : Nat → List Nat) (rootAddr top h : Nat) : List Nat :=
  if h = top then [rootAddr] else closed h

theorem ClosedBelow.closed_eq_nil {closed : Nat → List Nat} {out : List Nat} {req : PackReq K}
    (hclosed : ClosedBelow cfg before metaHead req.height closed out req) {h : Nat}
    (hle : req.height ≤ h) : closed h = [] := by
  obtain ⟨hinv, hshape, -, hopen, -⟩ := hclosed
  have habove : req.edge (h + 1) = [] := hinv.edge_eq_nil (h + 1) (by omega)
  have hlinks := hshape.links h (Nat.zero_le h)
  unfold LinksClosed entriesAt at hlinks
  rw [hopen (h + 1) (by omega) habove, habove] at hlinks
  exact List.map_eq_nil_iff.mp hlinks.symm

theorem ClosedBelow.levelPages {closed : Nat → List Nat} {out : List Nat} {req : PackReq K}
    {top : Nat} (hclosed : ClosedBelow cfg before metaHead req.height closed out req)
    (hedge : req.edge req.height = [top]) (hpage : 4096 ∣ cfg.extents.pageSize)
    {rootAddr : Nat} (hroot : rootAddr ≠ 0) (hout : rootAddr ∉ out) {tuples : List (Tuple K)}
    (hentries : entriesAt closed req 0 = tuples.map Entry.leaf) :
    LevelPages cfg.btree
      (Function.update req.pages rootAddr { req.pages top with nextExtentAddr := 0 }) rootAddr
      req.height (packedNodes closed rootAddr req.height) tuples := by
  have hnil := hclosed.closed_eq_nil (le_refl req.height)
  obtain ⟨hinv, hshape, -, -, hedges⟩ := hclosed
  generalize hpages : Function.update req.pages rootAddr { req.pages top with
    nextExtentAddr := 0 } = pages
  have hcopy : pages rootAddr = { req.pages top with nextExtentAddr := 0 } := by
    rw [← hpages]
    exact Function.update_self ..
  have hother : ∀ a ∈ out, pages a = req.pages a := by
    rintro a ha
    rw [← hpages]
    refine Function.update_of_ne ?_ ..
    rintro rfl
    exact hout ha
  -- The nodes of a height below the root, and those of the root's.
  have hbelow : ∀ h, h < req.height → packedNodes closed rootAddr req.height h =
      closed h ++ req.edge h := by
    intro h hlt
    unfold packedNodes
    rw [if_neg (ne_of_lt hlt), hedges h hlt, List.append_nil]
  have htop : packedNodes closed rootAddr req.height req.height = [rootAddr] := if_pos rfl
  have hlast : closed req.height ++ req.edge req.height = [top] := by
    rw [hnil, hedge]
    rfl
  have hknown : ∀ h, h < req.height → ∀ a ∈ packedNodes closed rootAddr req.height h,
      a ∈ closed h ++ req.edge h ∧ a ∈ out ∧ pages a = req.pages a := by
    intro h hlt a ha
    rw [hbelow h hlt] at ha
    have hmem := hshape.known h a ha
    exact ⟨ha, hmem, hother a hmem⟩
  have hlevel := hshape.level req.height (Nat.zero_le _)
  have htopMem : top ∈ closed req.height ++ req.edge req.height := by
    rw [hlast]
    exact List.mem_singleton_self top
  have hstored : ∀ h, h ≤ req.height → (packedNodes closed rootAddr req.height h).flatMap
      (fun a => (pages a).storedEntries) = entriesAt closed req h := by
    intro h hle
    unfold entriesAt
    rcases Nat.lt_or_eq_of_le hle with hlt | rfl
    · rw [hbelow h hlt]
      exact List.flatMap_congr fun a ha => by rw [hother a (hshape.known h a ha)]
    · rw [htop, hlast, List.flatMap_singleton, List.flatMap_singleton, hcopy]
      rfl
  constructor
  · exact htop
  · intro h hle a ha
    rcases Nat.lt_or_eq_of_le hle with hlt | rfl
    · obtain ⟨hmem, -, hsame⟩ := hknown h hlt a ha
      rw [hsame]
      exact (hshape.level h (Nat.zero_le h)).height_eq a hmem
    · rw [htop] at ha
      obtain rfl := List.mem_singleton.mp ha
      rw [hcopy]
      exact hlevel.height_eq top htopMem
  · intro h hle a ha
    rcases Nat.lt_or_eq_of_le hle with hlt | rfl
    · obtain ⟨hmem, -, hsame⟩ := hknown h hlt a ha
      rw [hsame]
      exact (hshape.level h (Nat.zero_le h)).nonempty a hmem (Option.some_ne_none a)
    · rw [htop] at ha
      obtain rfl := List.mem_singleton.mp ha
      rw [hcopy]
      exact hlevel.nonempty top htopMem (Option.some_ne_none top)
  · intro h hle
    rcases Nat.lt_or_eq_of_le hle with hlt | rfl
    · rw [hbelow h hlt]
      refine (hshape.level h (Nat.zero_le h)).linked.congr fun a ha => ?_
      rw [hother a (hshape.known h a ha)]
      exact ⟨rfl, rfl⟩
    · have hlinked := hlevel.linked
      rw [hlast] at hlinked
      rw [htop]
      unfold Linked
      rw [hcopy]
      exact hlinked
  · intro h hle a ha
    rcases Nat.lt_or_eq_of_le hle with hlt | rfl
    · obtain ⟨-, hmem, -⟩ := hknown h hlt a ha
      exact (out_bounds hinv.owns hshape.hands a hmem).1
    · rw [htop] at ha
      rw [List.mem_singleton.mp ha]
      exact hroot
  · intro h hlt a ha
    obtain ⟨-, hmem, -⟩ := hknown h hlt a ha
    obtain ⟨-, hbound, hdvd⟩ := out_bounds hinv.owns hshape.hands a hmem
    exact ⟨hbound, hpage.trans hdvd⟩
  · rw [hstored 0 (Nat.zero_le _), hentries]
  · intro h hlt
    have hlinks := hshape.links h (Nat.zero_le h)
    unfold LinksClosed at hlinks
    rw [hstored (h + 1) hlt, hlinks, hbelow h hlt, hedges h hlt, List.append_nil]
    refine List.map_congr_left fun a ha => linkTo_congr ?_ h
    rw [hother a (hshape.known h a (List.mem_append_left _ ha))]

theorem packPostLoop_shape {tuples : List (Tuple K)} {req req' : PackReq K}
    (hholds : Holds cfg before metaHead tuples req) (hnum : req.numTuples ≠ 0)
    (hroot : Alloc.IsExtent cfg.extents req.rootAddr)
    (hbase : cfg.extents.baseAddr req.rootAddr = cfg.extents.baseAddr metaHead)
    (hpage : 4096 ∣ cfg.extents.pageSize) (hrun : packPostLoop cfg req = some req') :
    req'.rootAddr = req.rootAddr ∧
      ∃ top nodes, LevelPages cfg.btree req'.pages req'.rootAddr top nodes tuples := by
  unfold packPostLoop at hrun
  rw [if_neg hnum] at hrun
  obtain ⟨⟨reached, linked⟩, hlink, hrun⟩ := Option.bind_eq_some_iff.mp hrun
  obtain ⟨top, htop, hrun⟩ := Option.bind_eq_some_iff.mp hrun
  obtain ⟨unlocked, hunlock, hrun⟩ := Option.bind_eq_some_iff.mp hrun
  obtain ⟨al, -, hrun⟩ := Option.bind_eq_some_iff.mp hrun
  obtain rfl := Option.some.inj hrun
  obtain ⟨hinv, hstats, closed, out, hshape, hopen, hentries⟩ := hholds
  obtain ⟨closed', out', hclosed, hkeeps, hentries', hreached, hone⟩ :=
    linkLevels_shape maxHeight
      ⟨hinv, hshape, hstats, hopen, fun i hi => absurd hi (Nat.not_lt_zero i)⟩
      (le_refl _) hlink
  -- The loop ends at the height of the last open node.
  have hheight : reached = linked.height := by
    by_contra hne
    rw [hclosed.edge_eq linked.height (by omega)] at htop
    cases htop
  subst hheight
  have hedge : linked.edge linked.height = [top] := by
    obtain ⟨rest, hrest⟩ := List.head?_eq_some_iff.mp htop
    rw [hrest, List.length_cons] at hone
    rw [hrest, List.eq_nil_of_length_eq_zero (by omega : rest.length = 0)]
  have hnotOut : req.rootAddr ∉ out' := by
    intro hmem
    obtain ⟨page, hpage, haddr⟩ := Option.map_eq_some_iff.mp hclosed.inv.owns.head_eq
    have hnot := hclosed.inv.owns.not_recorded.1 page (List.mem_of_mem_head? hpage)
    rw [haddr, ← hbase] at hnot
    exact hnot (hclosed.shape.hands.recorded_base _ hmem)
  obtain ⟨hrel, -, -, -, -, hpages⟩ := unlock_spec hunlock
  have hrootEq : unlocked.rootAddr = req.rootAddr :=
    hrel.rootAddr_eq.trans hkeeps.rootAddr_eq
  refine ⟨hrootEq, linked.height, packedNodes closed' req.rootAddr linked.height, ?_⟩
  show LevelPages cfg.btree unlocked.pages unlocked.rootAddr _ _ _
  rw [hrootEq, hpages]
  show LevelPages cfg.btree (Function.update linked.pages linked.rootAddr _) _ _ _ _
  rw [hkeeps.rootAddr_eq]
  exact hclosed.levelPages hedge hpage hroot.2.1 hnotOut (hentries'.trans hentries)

end PackReq

open PackReq in
/-- **What a pack leaves.**  The leaves of the tree hold the tuples of the input, and the nodes of
every height are linked to those below.  The root is the first page of an extent. -/
theorem pack_rootedPages {K : Type} {cfg : PackConfig K} (hpage : 4096 ∣ cfg.extents.pageSize)
    {pages : Nat → Page K} {al : Alloc.Extents} (hsupply : al.supply.Nodup)
    (hfresh : ∀ e ∈ al.supply, al.refCount e = 0 ∧ Alloc.IsExtent cfg.extents e)
    {input : List (Tuple K × Option Nat)} (hne : input ≠ []) {req : PackReq K}
    (hrun : pack cfg pages al input = some (.ok, req)) :
    Alloc.IsExtent cfg.extents req.rootAddr ∧
      ∃ top nodes, LevelPages cfg.btree req.pages req.rootAddr top nodes (input.map Prod.fst) := by
  obtain ⟨start, hstart, hrun⟩ := Option.bind_eq_some_iff.mp hrun
  obtain ⟨metaHead, hinv, hlocks, hnum, hroot, hbase, hhands, hedge⟩ :=
    setupStart_spec hsupply hfresh hstart
  have hholds : PackReq.Holds cfg al.refCount metaHead [] start := by
    refine ⟨hinv, ?_, fun _ => [], [], ⟨hhands, ?_, ?_, ?_⟩, fun _ _ _ => rfl, ?_⟩
    · intro h _
      have hlen := hinv.length_stats h
      rw [hedge h] at hlen ⊢
      exact List.eq_nil_of_length_eq_zero hlen
    · intro h a ha
      rw [hedge h] at ha
      exact ha
    · intro h _
      rw [hedge h]
      exact ⟨fun a ha => absurd ha List.not_mem_nil, trivial,
        fun a ha => absurd ha List.not_mem_nil⟩
    · intro h _
      unfold LinksClosed entriesAt
      rw [hedge (h + 1)]
      rfl
    · unfold entriesAt
      rw [hedge 0]
      rfl
  obtain ⟨last, hlast, -, hrootLast, hnumLast, hpost⟩ := packTuples_shape input hholds hlocks hrun
  have hpos := List.length_pos_iff.mpr hne
  rw [← hrootLast] at hroot hbase
  obtain ⟨hsame, hlevels⟩ := packPostLoop_shape hlast (by omega) hroot hbase hpage hpost
  rw [← hsame] at hroot
  exact ⟨hroot, hlevels⟩

theorem pack_levelPages {K : Type} {cfg : PackConfig K} (hpage : 4096 ∣ cfg.extents.pageSize)
    {pages : Nat → Page K} {al : Alloc.Extents} (hsupply : al.supply.Nodup)
    (hfresh : ∀ e ∈ al.supply, al.refCount e = 0 ∧ Alloc.IsExtent cfg.extents e)
    {input : List (Tuple K × Option Nat)} (hne : input ≠ []) {req : PackReq K}
    (hrun : pack cfg pages al input = some (.ok, req)) :
    ∃ top nodes, LevelPages cfg.btree req.pages req.rootAddr top nodes (input.map Prod.fst) :=
  (pack_rootedPages hpage hsupply hfresh hne hrun).2

end Btree
end TreePass
