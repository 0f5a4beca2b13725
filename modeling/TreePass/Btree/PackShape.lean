import TreePass.Btree.IteratorErasure
import TreePass.Btree.Levels
import TreePass.Btree.PackAbort

/-!
# The shape of a tree while it is packed

At every height a pack has closed nodes, which are linked in their parents, and open ones to their
right.  The nodes of a height form one chain, and the entries one height up are the links to its
closed nodes, in order.

* `Shape` says this of all heights from `l` on: a node that is closed changes only the heights
  above.
* `EdgeStats` says that the statistics of the open nodes are those of their entries.
* `Frame` says what a step leaves alone.
* `createNextNode_shape` is the step for a new node, by recursion over the heights.
-/

namespace TreePass
namespace Btree

open Alloc (HandsOut Owns)

variable {K : Type}

/-! ## Entries at the end of a page -/

def Page.storedEntries (hdr : Page K) : List (Entry K) := hdr.slots.map Slot.entry

/-- One entry more in the statistics of a node, as a pack counts it. -/
def countEntry (cfg : Config K) (stats : PivotStats) : Entry K → PivotStats
  | .leaf t =>
      ⟨(stats.numKvs + 1) % 2 ^ 32, (stats.keyBytes + cfg.keyLength t.key) % 2 ^ 32,
        (stats.messageBytes + t.msg.data.length) % 2 ^ 32⟩
  | .index e => accumulatePivotStats stats e.pivotData.stats

def nodeStats (cfg : Config K) (hdr : Page K) : PivotStats :=
  hdr.storedEntries.foldl (countEntry cfg) statsZero

theorem nodeStats_congr {cfg : Config K} {hdr hdr' : Page K} (hslots : hdr'.slots = hdr.slots) :
    nodeStats cfg hdr' = nodeStats cfg hdr := by
  unfold nodeStats Page.storedEntries
  rw [hslots]

/-- A page with the same entries in the same place of the tree. -/
structure Page.SameNode (hdr hdr' : Page K) : Prop where
  slots_eq : hdr'.slots = hdr.slots
  height_eq : hdr'.height = hdr.height
  prevAddr_eq : hdr'.prevAddr = hdr.prevAddr
  nextAddr_eq : hdr'.nextAddr = hdr.nextAddr

theorem Page.SameNode.refl (hdr : Page K) : hdr.SameNode hdr := ⟨rfl, rfl, rfl, rfl⟩

theorem Page.SameNode.trans {hdr hdr' hdr'' : Page K} (h : hdr.SameNode hdr')
    (h' : hdr'.SameNode hdr'') : hdr.SameNode hdr'' :=
  ⟨h'.slots_eq.trans h.slots_eq, h'.height_eq.trans h.height_eq,
    h'.prevAddr_eq.trans h.prevAddr_eq, h'.nextAddr_eq.trans h.nextAddr_eq⟩

/-- A page with one entry more at its end. -/
structure Page.Appends (hdr : Page K) (entry : Entry K) (hdr' : Page K) : Prop where
  entries_eq : hdr'.storedEntries = hdr.storedEntries ++ [entry]
  height_eq : hdr'.height = hdr.height
  prevAddr_eq : hdr'.prevAddr = hdr.prevAddr
  nextAddr_eq : hdr'.nextAddr = hdr.nextAddr

theorem Page.Appends.nodeStats_eq {cfg : Config K} {hdr hdr' : Page K} {entry : Entry K}
    (h : hdr.Appends entry hdr') :
    nodeStats cfg hdr' = countEntry cfg (nodeStats cfg hdr) entry := by
  unfold nodeStats
  rw [h.entries_eq, List.foldl_concat]

theorem Page.placeEntry_appends {cfg : Config K} {hdr hdr' : Page K} {entry : Entry K}
    (hrun : hdr.placeEntry cfg hdr.numEntries entry = some hdr') : hdr.Appends entry hdr' := by
  unfold placeEntry at hrun
  simp only [lt_irrefl, if_false] at hrun
  split at hrun
  · cases hrun
  · obtain rfl := Option.some.inj hrun
    refine ⟨?_, rfl, rfl, rfl⟩
    unfold storedEntries
    rw [List.map_append]
    rfl

private theorem Page.slots_numEntries (hdr : Page K) : hdr.slots[hdr.numEntries]? = none :=
  List.getElem?_eq_none (le_refl _)

theorem Page.setIndexEntry_appends {cfg : Config K} {hdr hdr' : Page K} {pivot : Key K}
    {addr : Addr} {stats : PivotStats}
    (hrun : hdr.setIndexEntry cfg hdr.numEntries pivot addr stats = some hdr') :
    hdr.Appends (.index ⟨⟨addr, stats⟩, pivot⟩) hdr' := by
  unfold setIndexEntry at hrun
  rw [slots_numEntries] at hrun
  exact placeEntry_appends hrun

theorem Page.setLeafEntry_appends {cfg : Config K} {hdr hdr' : Page K} {key : K} {msg : Message}
    (hrun : hdr.setLeafEntry cfg hdr.numEntries key msg = some hdr') :
    hdr.Appends (.leaf ⟨key, msg⟩) hdr' := by
  unfold setLeafEntry at hrun
  rw [slots_numEntries] at hrun
  exact placeEntry_appends hrun

/-! ## Chains -/

theorem Linked.congr {pages pages' : Nat → Node K} {l : List Nat} :
    ∀ {prev : Nat}, (∀ a ∈ l, (pages' a).prevAddr = (pages a).prevAddr ∧
      (pages' a).nextAddr = (pages a).nextAddr) → Linked pages prev l → Linked pages' prev l := by
  induction l with
  | nil => exact fun _ _ => trivial
  | cons a l ih =>
      rintro prev hsame ⟨hprev, hnext, hrest⟩
      obtain ⟨hprev', hnext'⟩ := hsame a List.mem_cons_self
      exact ⟨hprev'.trans hprev, hnext'.trans hnext,
        ih (fun b hb => hsame b (List.mem_cons_of_mem _ hb)) hrest⟩

theorem Linked.concat {pages pages' : Nat → Node K} {old new : Nat}
    (hprev : (pages' new).prevAddr = old) (hnext : (pages' new).nextAddr = 0)
    (hold : (pages' old).prevAddr = (pages old).prevAddr ∧ (pages' old).nextAddr = new)
    (l : List Nat) : ∀ {prev : Nat}, (∀ a ∈ l, (pages' a).prevAddr = (pages a).prevAddr ∧
      (pages' a).nextAddr = (pages a).nextAddr) → Linked pages prev (l ++ [old]) →
      Linked pages' prev (l ++ [old] ++ [new]) := by
  induction l with
  | nil =>
      rintro prev - ⟨hfirst, -, -⟩
      exact ⟨hold.1.trans hfirst, hold.2, hprev, hnext, trivial⟩
  | cons a l ih =>
      rintro prev hsame ⟨hfirst, hnext', hrest⟩
      obtain ⟨hprev', hnext''⟩ := hsame a List.mem_cons_self
      refine ⟨hprev'.trans hfirst, ?_, ih (fun b hb => hsame b (List.mem_cons_of_mem _ hb)) hrest⟩
      rw [hnext'', hnext']
      cases l <;> rfl

namespace PackReq

variable {cfg : PackConfig K} {before : Nat → Nat} {metaHead : Nat}

/-! ## Shapes -/

def view (req : PackReq K) : Nat → Node K := fun addr => (req.pages addr).view

/-- The entries of the nodes of a height: those of the closed ones and those of the open ones. -/
def entriesAt (closed : Nat → List Nat) (req : PackReq K) (h : Nat) : List (Entry K) :=
  (closed h ++ req.edge h).flatMap fun addr => (req.pages addr).storedEntries

def linkOf : Entry K → Option (OndiskIndexEntry K)
  | .leaf _ => none
  | .index e => some e

/-- The link to a node: its address and statistics, under its first key. -/
def linkTo (cfg : Config K) (pages : Nat → Page K) (h addr : Nat) : Option (OndiskIndexEntry K) :=
  (firstKey (pages addr) h).map fun k => ⟨⟨BitVec.ofNat 64 addr, nodeStats cfg (pages addr)⟩, k⟩

/-- The nodes of a height: they form a chain, and all but a new one have entries. -/
structure LevelOk (req : PackReq K) (hole : Option Nat) (h : Nat) (nodes : List Nat) : Prop where
  height_eq : ∀ a ∈ nodes, (req.pages a).height = h
  linked : Linked req.view 0 nodes
  nonempty : ∀ a ∈ nodes, some a ≠ hole → (req.pages a).slots ≠ []

def LinksClosed (cfg : Config K) (closed : Nat → List Nat) (req : PackReq K) (h : Nat) : Prop :=
  (entriesAt closed req (h + 1)).map linkOf = (closed h).map (linkTo cfg req.pages h)

/-- **The shape of the heights from `l` on.**  All nodes are among the pages handed out. -/
structure Shape (cfg : PackConfig K) (l : Nat) (closed : Nat → List Nat) (out : List Nat)
    (hole : Option Nat) (req : PackReq K) : Prop where
  hands : HandsOut cfg.extents req.alloc out
  known : ∀ h, ∀ a ∈ closed h ++ req.edge h, a ∈ out
  level : ∀ h, l ≤ h → LevelOk req hole h (closed h ++ req.edge h)
  links : ∀ h, l ≤ h → LinksClosed cfg.btree closed req h

def OpenFrom (l : Nat) (closed : Nat → List Nat) (req : PackReq K) : Prop :=
  ∀ h, l ≤ h → req.edge h = [] → closed h = []

def EdgeStats (cfg : PackConfig K) (l : Nat) (req : PackReq K) : Prop :=
  ∀ h, l ≤ h → req.edgeStats h = (req.edge h).map fun a => nodeStats cfg.btree (req.pages a)

theorem EdgeStats.mono {l l' : Nat} (hle : l ≤ l') {req : PackReq K}
    (h : EdgeStats cfg l req) : EdgeStats cfg l' req := fun i hi => h i (hle.trans hi)

theorem EdgeStats.congr {l : Nat} {req req' : PackReq K} (h : EdgeStats cfg l req)
    (hedge : ∀ i, l ≤ i → req'.edge i = req.edge i)
    (hstats : ∀ i, l ≤ i → req'.edgeStats i = req.edgeStats i)
    (hslots : ∀ i, l ≤ i → ∀ a ∈ req.edge i, (req'.pages a).slots = (req.pages a).slots) :
    EdgeStats cfg l req' := by
  intro i hi
  rw [hstats i hi, hedge i hi, h i hi]
  exact List.map_congr_left fun a ha => (nodeStats_congr (hslots i hi a ha)).symm

/-- **What a step at the heights from `l` on leaves alone.** -/
structure Frame (l : Nat) (closed closed' : Nat → List Nat) (out out' : List Nat)
    (req req' : PackReq K) : Prop where
  closed_eq : ∀ h, h < l → closed' h = closed h
  edge_eq : ∀ h, h < l → req'.edge h = req.edge h
  pages_eq : ∀ a ∈ out, (req.pages a).height < l → req'.pages a = req.pages a
  out_subset : ∀ a ∈ out, a ∈ out'

theorem Frame.refl (l : Nat) (closed : Nat → List Nat) (out : List Nat) (req : PackReq K) :
    Frame l closed closed out out req req :=
  ⟨fun _ _ => rfl, fun _ _ => rfl, fun _ _ _ => rfl, fun _ ha => ha⟩

theorem Frame.trans {l : Nat} {closed closed' closed'' : Nat → List Nat} {out out' out'' : List Nat}
    {req req' req'' : PackReq K} (h : Frame l closed closed' out out' req req')
    (h' : Frame l closed' closed'' out' out'' req' req'') :
    Frame l closed closed'' out out'' req req'' where
  closed_eq := fun i hi => (h'.closed_eq i hi).trans (h.closed_eq i hi)
  edge_eq := fun i hi => (h'.edge_eq i hi).trans (h.edge_eq i hi)
  pages_eq := by
    intro a ha hheight
    have hsame := h.pages_eq a ha hheight
    rw [← hsame] at hheight
    exact (h'.pages_eq a (h.out_subset a ha) hheight).trans hsame
  out_subset := fun a ha => h'.out_subset a (h.out_subset a ha)

theorem LevelOk.of_same {req req' : PackReq K} {hole : Option Nat} {h : Nat} {nodes : List Nat}
    (hok : LevelOk req hole h nodes)
    (hsame : ∀ a ∈ nodes, (req.pages a).SameNode (req'.pages a)) : LevelOk req' hole h nodes where
  height_eq := fun a ha => (hsame a ha).height_eq.trans (hok.height_eq a ha)
  linked := by
    refine hok.linked.congr fun a ha => ?_
    show (req'.pages a).prevAddr.toNat = (req.pages a).prevAddr.toNat ∧
      (req'.pages a).nextAddr.toNat = (req.pages a).nextAddr.toNat
    rw [(hsame a ha).prevAddr_eq, (hsame a ha).nextAddr_eq]
    exact ⟨rfl, rfl⟩
  nonempty := by
    intro a ha hne
    rw [(hsame a ha).slots_eq]
    exact hok.nonempty a ha hne

theorem entriesAt_congr {closed closed' : Nat → List Nat} {req req' : PackReq K} {h : Nat}
    (hnodes : closed' h ++ req'.edge h = closed h ++ req.edge h)
    (hsame : ∀ a ∈ closed h ++ req.edge h, (req'.pages a).slots = (req.pages a).slots) :
    entriesAt closed' req' h = entriesAt closed req h := by
  unfold entriesAt Page.storedEntries
  rw [hnodes]
  exact List.flatMap_congr fun a ha => by rw [hsame a ha]

theorem firstKey_congr {hdr hdr' : Page K} (hslots : hdr'.slots = hdr.slots) (h : Nat) :
    firstKey hdr' h = firstKey hdr h := by
  unfold firstKey Page.getLeafEntry Page.getIndexEntry
  rw [hslots]

theorem linkTo_congr {cfg : Config K} {pages pages' : Nat → Page K} {a : Nat}
    (hslots : (pages' a).slots = (pages a).slots) (h : Nat) :
    linkTo cfg pages h a = linkTo cfg pages' h a := by
  unfold linkTo
  rw [firstKey_congr hslots, nodeStats_congr hslots]

theorem LinksClosed.of_slots {cfg : Config K} {closed closed' : Nat → List Nat}
    {req req' : PackReq K} {h : Nat} (hlinks : LinksClosed cfg closed req h)
    (hclosed : closed' h = closed h)
    (hnodes : closed' (h + 1) ++ req'.edge (h + 1) = closed (h + 1) ++ req.edge (h + 1))
    (habove : ∀ a ∈ closed (h + 1) ++ req.edge (h + 1), (req'.pages a).slots = (req.pages a).slots)
    (hat : ∀ a ∈ closed h, (req'.pages a).slots = (req.pages a).slots) :
    LinksClosed cfg closed' req' h := by
  unfold LinksClosed at hlinks ⊢
  rw [entriesAt_congr hnodes habove, hlinks, hclosed]
  refine List.map_congr_left fun a ha => ?_
  exact linkTo_congr (hat a ha) h

theorem Shape.congr {l : Nat} {closed : Nat → List Nat} {out : List Nat} {hole : Option Nat}
    {req req' : PackReq K} (hshape : Shape cfg l closed out hole req)
    (hedge : req'.edge = req.edge) (halloc : req'.alloc = req.alloc)
    (hpages : ∀ h, l ≤ h → ∀ a ∈ closed h ++ req.edge h, req'.pages a = req.pages a) :
    Shape cfg l closed out hole req' where
  hands := halloc ▸ hshape.hands
  known := hedge ▸ hshape.known
  level := by
    intro h hl
    rw [hedge]
    exact (hshape.level h hl).of_same fun a ha => by
      rw [hpages h hl a ha]
      exact Page.SameNode.refl _
  links := by
    intro h hl
    refine (hshape.links h hl).of_slots rfl (by rw [hedge]) ?_ ?_
    · exact fun a ha => by rw [hpages (h + 1) (by omega) a ha]
    · exact fun a ha => by rw [hpages h hl a (List.mem_append_left _ ha)]

theorem Shape.of_eq {l : Nat} {closed : Nat → List Nat} {out : List Nat} {hole : Option Nat}
    {req req' : PackReq K} (hshape : Shape cfg l closed out hole req)
    (hpages : req'.pages = req.pages) (hedge : req'.edge = req.edge)
    (halloc : req'.alloc = req.alloc) : Shape cfg l closed out hole req' :=
  hshape.congr hedge halloc fun _ _ _ _ => by rw [hpages]

theorem Shape.ne_of_below {l h : Nat} {closed : Nat → List Nat} {out : List Nat}
    {hole : Option Nat} {req : PackReq K} (hshape : Shape cfg l closed out hole req) (hl : l ≤ h)
    {a b : Nat} (ha : a ∈ closed h ++ req.edge h) (hb : (req.pages b).height < l) : a ≠ b := by
  rintro rfl
  have := (hshape.level h hl).height_eq a ha
  omega

theorem Shape.setBelow {l : Nat} {closed : Nat → List Nat} {out : List Nat} {hole : Option Nat}
    {req : PackReq K} (hshape : Shape cfg l closed out hole req) {b : Nat}
    (hb : (req.pages b).height < l) (page : Page K) :
    Shape cfg l closed out hole (req.setPage b page) :=
  hshape.congr rfl rfl fun _ hl _ ha => Function.update_of_ne (hshape.ne_of_below hl ha hb) ..

theorem LevelOk.nodup {req : PackReq K} {hole : Option Nat} {h : Nat} {nodes : List Nat}
    (hok : LevelOk req hole h nodes) (hzero : 0 ∉ nodes) : nodes.Nodup := by
  refine List.nodup_iff_injective_get.mpr ?_
  intro i j hij
  have hi := List.getElem?_eq_getElem (l := nodes) i.isLt
  have hj := List.getElem?_eq_getElem (l := nodes) j.isLt
  have heq : nodes[(i : Nat)] = nodes[(j : Nat)] := hij
  rw [heq] at hi
  exact Fin.ext (hok.linked.injective hzero hi hj)

theorem eq_concat_of_currentNode {req : PackReq K} {h cur : Nat}
    (hcur : req.currentNode h = some cur) : ∃ open', req.edge h = open' ++ [cur] :=
  List.getLast?_eq_some_iff.mp hcur

theorem Shape.append {l : Nat} {closed : Nat → List Nat} {out : List Nat} {hole : Option Nat}
    {req : PackReq K} (hshape : Shape cfg l closed out hole req) (hzero : ∀ a ∈ out, a ≠ 0)
    {cur : Nat} (hcur : req.currentNode l = some cur) (hhole : ∀ a, hole = some a → a = cur)
    {entry : Entry K} {page : Page K} (happ : (req.pages cur).Appends entry page) :
    Shape cfg l closed out none (req.setPage cur page) ∧
      entriesAt closed (req.setPage cur page) l = entriesAt closed req l ++ [entry] := by
  obtain ⟨front, hedge⟩ := eq_concat_of_currentNode hcur
  have hnodes : closed l ++ req.edge l = (closed l ++ front) ++ [cur] := by
    rw [hedge, List.append_assoc]
  have hlast : cur ∈ closed l ++ req.edge l := by
    rw [hnodes]
    exact List.mem_append_right _ (List.mem_singleton_self cur)
  have hnodup := (hshape.level l (le_refl l)).nodup fun h0 => hzero 0 (hshape.known l 0 h0) rfl
  have hcurr : (req.setPage cur page).pages cur = page := Function.update_self ..
  have hother : ∀ a, a ≠ cur → (req.setPage cur page).pages a = req.pages a := fun a ha =>
    Function.update_of_ne ha ..
  have hfront : ∀ a ∈ closed l ++ front, a ≠ cur := by
    rw [hnodes] at hnodup
    intro a ha heq
    exact (List.nodup_append.mp hnodup).2.2 a ha cur (List.mem_singleton_self cur) heq
  have hheight := (hshape.level l (le_refl l)).height_eq cur hlast
  have habove : ∀ h, l < h → ∀ a ∈ closed h ++ req.edge h, a ≠ cur := by
    rintro h hl a ha rfl
    have := (hshape.level h hl.le).height_eq a ha
    omega
  have hkeep : ∀ a, a ≠ cur → some a ≠ hole := by
    rintro a ha heq
    exact ha (hhole a heq.symm)
  refine ⟨⟨hshape.hands, hshape.known, ?_, ?_⟩, ?_⟩
  · intro h hl
    have hok := hshape.level h hl
    have hpages : ∀ a, ((req.setPage cur page).pages a).height = (req.pages a).height ∧
        ((req.setPage cur page).pages a).prevAddr = (req.pages a).prevAddr ∧
        ((req.setPage cur page).pages a).nextAddr = (req.pages a).nextAddr := by
      intro a
      by_cases ha : a = cur
      · rw [ha, hcurr]
        exact ⟨happ.height_eq, happ.prevAddr_eq, happ.nextAddr_eq⟩
      · rw [hother a ha]
        exact ⟨rfl, rfl, rfl⟩
    constructor
    · exact fun a ha => (hpages a).1.trans (hok.height_eq a ha)
    · refine hok.linked.congr fun a _ => ?_
      show ((req.setPage cur page).pages a).prevAddr.toNat = (req.pages a).prevAddr.toNat ∧
        ((req.setPage cur page).pages a).nextAddr.toNat = (req.pages a).nextAddr.toNat
      rw [(hpages a).2.1, (hpages a).2.2]
      exact ⟨rfl, rfl⟩
    · intro a ha _
      by_cases hcur' : a = cur
      · rw [hcur', hcurr]
        intro hnil
        have hentries := happ.entries_eq
        unfold Page.storedEntries at hentries
        rw [hnil] at hentries
        cases hentries' : (req.pages cur).slots.map Slot.entry <;> rw [hentries'] at hentries <;>
          cases hentries
      · rw [hother a hcur']
        exact hok.nonempty a ha (hkeep a hcur')
  · intro h hl
    refine (hshape.links h hl).of_slots rfl rfl ?_ ?_
    · exact fun a ha => by rw [hother a (habove (h + 1) (by omega) a ha)]
    · intro a ha
      have hne : a ≠ cur := by
        rcases Nat.lt_or_eq_of_le hl with hlt | rfl
        · exact habove h hlt a (List.mem_append_left _ ha)
        · exact hfront a (List.mem_append_left _ ha)
      rw [hother a hne]
  · have hsplit : ∀ f : Nat → List (Entry K), (closed l ++ req.edge l).flatMap f =
        (closed l ++ front).flatMap f ++ f cur := by
      intro f
      rw [hnodes, List.flatMap_append, List.flatMap_singleton]
    show (closed l ++ req.edge l).flatMap _ = (closed l ++ req.edge l).flatMap _ ++ [entry]
    rw [hsplit, hsplit, hcurr, happ.entries_eq, List.append_assoc]
    congr 1
    exact List.flatMap_congr fun a ha => by rw [hother a (hfront a ha)]

private theorem modify_concat {α : Type*} (f : α → α) (l : List α) (x : α) :
    (l ++ [x]).modify l.length f = l ++ [f x] := by
  induction l with
  | nil => rfl
  | cons y l ih => exact congrArg (y :: ·) ih

theorem Shape.append_stats {l : Nat} {closed : Nat → List Nat} {out : List Nat}
    {hole : Option Nat} {req : PackReq K} (hshape : Shape cfg l closed out hole req)
    (hzero : ∀ a ∈ out, a ≠ 0) {cur : Nat} (hcur : req.currentNode l = some cur)
    {entry : Entry K} {page : Page K} (happ : (req.pages cur).Appends entry page)
    (hstats : EdgeStats cfg l req) :
    EdgeStats cfg l ((req.setPage cur page).updateStats l fun sum =>
      countEntry cfg.btree sum entry) := by
  obtain ⟨front, hedge⟩ := eq_concat_of_currentNode hcur
  have hlast : cur ∈ closed l ++ req.edge l := by
    rw [hedge]
    exact List.mem_append_right _ (List.mem_append_right _ (List.mem_singleton_self cur))
  have hnodup := (hshape.level l (le_refl l)).nodup fun h0 => hzero 0 (hshape.known l 0 h0) rfl
  have hfront : ∀ a ∈ front, a ≠ cur := by
    rw [hedge] at hnodup
    intro a ha heq
    have hpart := (List.nodup_append.mp hnodup).2.1
    exact (List.nodup_append.mp hpart).2.2 a ha cur (List.mem_singleton_self cur) heq
  have hother : ∀ a, a ≠ cur → (req.setPage cur page).pages a = req.pages a := fun a ha =>
    Function.update_of_ne ha ..
  intro h hl
  show Function.update req.edgeStats l _ h = (req.edge h).map fun a =>
    nodeStats cfg.btree ((req.setPage cur page).pages a)
  rcases Nat.lt_or_eq_of_le hl with hlt | rfl
  · rw [Function.update_of_ne (ne_of_gt hlt), hstats h hl]
    refine List.map_congr_left fun a ha => ?_
    rw [hother a]
    rintro rfl
    have hheight := (hshape.level h hl).height_eq a (List.mem_append_right _ ha)
    have hheight' := (hshape.level l (le_refl l)).height_eq a hlast
    omega
  · have hcurr : (req.setPage cur page).pages cur = page := Function.update_self ..
    rw [Function.update_self]
    show (req.edgeStats l).modify ((req.edgeStats l).length - 1) _ = _
    rw [hstats l hl, hedge, List.map_append, List.map_append, List.map_singleton,
      List.map_singleton, List.length_append, List.length_singleton, Nat.add_sub_cancel,
      modify_concat, hcurr, happ.nodeStats_eq]
    congr 1
    exact List.map_congr_left fun a ha => by rw [hother a (hfront a ha)]

/-! ## Links -/

theorem toNat_ofNat {a : Nat} (ha : a < UInt64.size) : (BitVec.ofNat 64 a).toNat = a := by
  rw [BitVec.toNat_ofNat]
  exact Nat.mod_eq_of_lt ha

/-- What the creation of a node of height `h` does: there is a new open node without entries at the
right end of the height. -/
def CreatesNode (cfg : PackConfig K) (before : Nat → Nat) (metaHead h : Nat)
    (create : Key K → PackReq K → Option (PackReq K)) : Prop :=
  ∀ pivot req req' closed out, PackInv cfg before metaHead req → Shape cfg h closed out none req →
    OpenFrom h closed req → EdgeStats cfg h req → create pivot req = some req' →
    PackInv cfg before metaHead req' ∧ EdgeStats cfg h req' ∧ ∃ closed' out' new,
      Shape cfg h closed' out' (some new) req' ∧ OpenFrom h closed' req' ∧
      Frame h closed closed' out out' req req' ∧ req'.currentNode h = some new ∧
      entriesAt closed' req' h = entriesAt closed req h

theorem out_bounds {req : PackReq K} {out : List Nat} (howns : Owns cfg.extents before metaHead
    req.alloc []) (hands : HandsOut cfg.extents req.alloc out) :
    ∀ a ∈ out, a ≠ 0 ∧ a < UInt64.size ∧ cfg.extents.pageSize ∣ a := by
  intro a ha
  have hrec := hands.recorded_base a ha
  have hextent : Alloc.IsExtent cfg.extents (cfg.extents.baseAddr a) :=
    (howns.owned.fresh _ (List.mem_append_left _ (List.mem_append_left _ (List.mem_append_left _
      (List.mem_append_right _ hrec))))).2
  obtain ⟨-, hne, hbound⟩ := hextent
  have hle : cfg.extents.baseAddr a ≤ a := Nat.div_mul_le_self ..
  have hpos := cfg.extents.extentSize_pos
  have hlt : a < cfg.extents.baseAddr a + cfg.extents.extentSize := by
    have hmod := Nat.mod_lt a hpos
    have hdiv := Nat.div_add_mod' a cfg.extents.extentSize
    unfold Alloc.ExtentConfig.baseAddr
    omega
  exact ⟨by omega, by omega, hands.aligned a ha⟩

variable {h : Nat} {createParent : Key K → PackReq K → Option (PackReq K)}

theorem tryLink_shape {closed : Nat → List Nat} {out : List Nat} {hole : Option Nat}
    {req req' : PackReq K} {pivot : Key K} {childAddr : Nat} {stats : PivotStats}
    (hinv : PackInv cfg before metaHead req) (hshape : Shape cfg (h + 1) closed out hole req)
    (hhole : ∀ a, hole = some a → req.currentNode (h + 1) = some a)
    (hstats : EdgeStats cfg (h + 1) req)
    (hrun : req.tryLink cfg (h + 1) pivot childAddr stats = some req') :
    PackInv cfg before metaHead req' ∧
      EdgeStats cfg (h + 1) (req'.updateStats (h + 1) fun sum => accumulatePivotStats sum stats) ∧
      Shape cfg (h + 1) closed out none req' ∧
      entriesAt closed req' (h + 1) = entriesAt closed req (h + 1) ++
        [.index ⟨⟨BitVec.ofNat 64 childAddr, stats⟩, pivot⟩] ∧
      Frame (h + 1) closed closed out out req req' ∧ req'.edge = req.edge := by
  have hbounds := out_bounds hinv.owns hshape.hands
  obtain ⟨cur, hcur, hrun⟩ := Option.bind_eq_some_iff.mp hrun
  obtain ⟨page, hpage, hrun⟩ := Option.bind_eq_some_iff.mp hrun
  obtain rfl := Option.some.inj hrun
  obtain ⟨hshape', hentries⟩ := hshape.append (fun a ha => (hbounds a ha).1) hcur
    (fun a ha => Option.some.inj ((hhole a ha).symm.trans hcur)) (Page.setIndexEntry_appends hpage)
  have hheight : (req.pages cur).height = h + 1 := by
    obtain ⟨front, hedge⟩ := eq_concat_of_currentNode hcur
    refine (hshape.level (h + 1) (le_refl _)).height_eq cur ?_
    rw [hedge]
    exact List.mem_append_right _ (List.mem_append_right _ (List.mem_singleton_self cur))
  refine ⟨hinv.of_eq rfl rfl rfl fun _ => rfl, hshape.append_stats (fun a ha => (hbounds a ha).1)
    hcur (Page.setIndexEntry_appends hpage) hstats, hshape', hentries, ⟨fun _ _ => rfl,
    fun _ _ => rfl, ?_, fun _ ha => ha⟩, rfl⟩
  rintro a - ha
  have hne : a ≠ cur := by
    rintro rfl
    omega
  exact Function.update_of_ne hne ..

theorem linkToParent_shape (hcreate : CreatesNode cfg before metaHead (h + 1) createParent)
    {closed : Nat → List Nat} {out : List Nat} {req req' : PackReq K} {pivot : Key K}
    {edge : Nat × PivotStats} (hinv : PackInv cfg before metaHead req)
    (hshape : Shape cfg (h + 1) closed out none req) (hopen : OpenFrom (h + 1) closed req)
    (hstats : EdgeStats cfg (h + 1) req)
    (hrun : linkToParent cfg createParent h pivot edge req = some req') :
    PackInv cfg before metaHead req' ∧
      EdgeStats cfg (h + 1) (req'.updateStats (h + 1) fun sum =>
        accumulatePivotStats sum edge.2) ∧ ∃ closed' out',
      Shape cfg (h + 1) closed' out' none req' ∧ OpenFrom (h + 1) closed' req' ∧
      Frame (h + 1) closed closed' out out' req req' ∧
      entriesAt closed' req' (h + 1) = entriesAt closed req (h + 1) ++
        [.index ⟨⟨BitVec.ofNat 64 edge.1, edge.2⟩, pivot⟩] := by
  unfold linkToParent at hrun
  cases htry : req.tryLink cfg (h + 1) pivot edge.1 edge.2 with
  | some linked =>
      rw [htry] at hrun
      obtain rfl := Option.some.inj hrun
      have hnone : ∀ a, (none : Option Nat) = some a → req.currentNode (h + 1) = some a := by
        intro a ha
        cases ha
      obtain ⟨hinv', hstats', hshape', hentries, hframe, hedge⟩ :=
        tryLink_shape hinv hshape hnone hstats htry
      refine ⟨hinv', hstats', closed, out, hshape', ?_, hframe, hentries⟩
      unfold OpenFrom
      rw [hedge]
      exact hopen
  | none =>
      rw [htry] at hrun
      obtain ⟨created, hnew, hlink⟩ := Option.bind_eq_some_iff.mp hrun
      obtain ⟨hinv₁, hstats₁, closed', out', new, hshape₁, hopen₁, hframe₁, hcur, hentries₁⟩ :=
        hcreate pivot req created closed out hinv hshape hopen hstats hnew
      have hhole : ∀ a, some new = some a → created.currentNode (h + 1) = some a := by
        rintro a ha
        rw [hcur, ha]
      obtain ⟨hinv₂, hstats₂, hshape₂, hentries₂, hframe₂, hedge⟩ :=
        tryLink_shape hinv₁ hshape₁ hhole hstats₁ hlink
      refine ⟨hinv₂, hstats₂, closed', out', hshape₂, ?_, hframe₁.trans hframe₂, ?_⟩
      · unfold OpenFrom
        rw [hedge]
        exact hopen₁
      · rw [hentries₂, hentries₁]

/-- **Nodes of height `h` are linked**: the entries one height up have grown by the links to them,
and the nodes themselves are as they were. -/
structure LinksNodes (cfg : PackConfig K) (h : Nat) (closed closed' : Nat → List Nat)
    (out out' : List Nat) (req req' : PackReq K) (nodes : List Nat) : Prop where
  shape : Shape cfg (h + 1) closed' out' none req'
  openFrom : OpenFrom (h + 1) closed' req'
  stats : EdgeStats cfg (h + 1) req'
  frame : Frame h closed closed' out out' req req'
  closed_eq : closed' h = closed h
  edge_eq : req'.edge h = req.edge h
  same : ∀ a ∈ out, (req.pages a).height ≤ h → (req.pages a).SameNode (req'.pages a)
  links : (entriesAt closed' req' (h + 1)).map linkOf =
    (entriesAt closed req (h + 1)).map linkOf ++ nodes.map (linkTo cfg.btree req.pages h)

theorem LinksNodes.trans {closed closed' closed'' : Nat → List Nat} {out out' out'' : List Nat}
    {req req' req'' : PackReq K} {nodes nodes' : List Nat}
    (hl : LinksNodes cfg h closed closed' out out' req req' nodes)
    (hl' : LinksNodes cfg h closed' closed'' out' out'' req' req'' nodes')
    (hnodes : ∀ a ∈ nodes', a ∈ out ∧ (req.pages a).height = h) :
    LinksNodes cfg h closed closed'' out out'' req req'' (nodes ++ nodes') where
  shape := hl'.shape
  openFrom := hl'.openFrom
  stats := hl'.stats
  frame := hl.frame.trans hl'.frame
  closed_eq := hl'.closed_eq.trans hl.closed_eq
  edge_eq := hl'.edge_eq.trans hl.edge_eq
  same := by
    intro a ha hheight
    have hsame := hl.same a ha hheight
    exact hsame.trans (hl'.same a (hl.frame.out_subset a ha)
      (hsame.height_eq.symm ▸ hheight))
  links := by
    rw [hl'.links, hl.links, List.map_append, List.append_assoc]
    congr 2
    refine List.map_congr_left fun a ha => ?_
    obtain ⟨hout, hheight⟩ := hnodes a ha
    exact (linkTo_congr (hl.same a hout hheight.le).slots_eq h).symm

theorem linkNode_shape (hcreate : CreatesNode cfg before metaHead (h + 1) createParent)
    (habove : CreatesAbove cfg before metaHead h createParent)
    {closed : Nat → List Nat} {out : List Nat} {req req' : PackReq K} {edge : Nat × PivotStats}
    {nextExtentAddr : Nat} (hinv : PackInv cfg before metaHead req)
    (hshape : Shape cfg (h + 1) closed out none req) (hopen : OpenFrom (h + 1) closed req)
    (hstats : EdgeStats cfg (h + 1) req) (hheight : (req.pages edge.1).height = h)
    (hcount : edge.2 = nodeStats cfg.btree (req.pages edge.1))
    (hrun : linkNode cfg createParent h edge nextExtentAddr req = some req') :
    PackInv cfg before metaHead req' ∧ ∃ closed' out',
      LinksNodes cfg h closed closed' out out' req req' [edge.1] := by
  have hinv' := (linkNode_spec habove hinv hrun).1
  refine ⟨hinv', ?_⟩
  obtain ⟨pivot, hpivot, hrun⟩ := Option.bind_eq_some_iff.mp hrun
  obtain ⟨linked, hlink, hunlock⟩ := Option.bind_eq_some_iff.mp hrun
  let page : Page K :=
    { req.pages edge.1 with nextExtentAddr := BitVec.ofNat 64 nextExtentAddr }
  have hshape₁ : Shape cfg (h + 1) closed out none (req.setPage edge.1 page) :=
    hshape.setBelow (by omega) page
  have hinv₁ : PackInv cfg before metaHead (req.setPage edge.1 page) :=
    hinv.of_eq rfl rfl rfl fun _ => rfl
  have hsame₁ : ∀ a, (req.pages a).SameNode ((req.setPage edge.1 page).pages a) := by
    intro a
    by_cases ha : a = edge.1
    · subst ha
      have hself : (req.setPage edge.1 page).pages edge.1 = page := Function.update_self ..
      rw [hself]
      exact ⟨rfl, rfl, rfl, rfl⟩
    · have hother : (req.setPage edge.1 page).pages a = req.pages a := Function.update_of_ne ha ..
      rw [hother]
      exact Page.SameNode.refl _
  have hstats₁ : EdgeStats cfg (h + 1) (req.setPage edge.1 page) :=
    hstats.congr (fun _ _ => rfl) (fun _ _ => rfl) fun _ _ a _ => (hsame₁ a).slots_eq
  obtain ⟨-, hstats₂, closed', out', hshape₂, hopen₂, hframe₂, hentries⟩ :=
    linkToParent_shape hcreate hinv₁ hshape₁ hopen hstats₁ hlink
  obtain ⟨-, halloc, -, hedge, hedgeStats, hpages⟩ := unlock_spec hunlock
  have hpages' : req'.pages = linked.pages := hpages
  have hedge' : req'.edge = linked.edge := hedge
  have hlower : ∀ a ∈ out, (req.pages a).height ≤ h →
      linked.pages a = (req.setPage edge.1 page).pages a := by
    intro a ha hle
    refine hframe₂.pages_eq a ha ?_
    rw [(hsame₁ a).height_eq]
    omega
  refine ⟨closed', out', hshape₂.of_eq hpages' hedge' halloc, ?_, ?_,
    ⟨?_, ?_, ?_, hframe₂.out_subset⟩, hframe₂.closed_eq h (Nat.lt_succ_self h), ?_, ?_, ?_⟩
  · intro l hl
    rw [hedge']
    exact hopen₂ l hl
  · exact hstats₂.congr (fun i _ => by rw [hedge]) (fun i _ => by rw [hedgeStats])
      fun _ _ a _ => by rw [hpages]
  · exact fun l hl => hframe₂.closed_eq l (hl.trans (Nat.lt_succ_self h))
  · intro l hl
    rw [hedge']
    exact hframe₂.edge_eq l (hl.trans (Nat.lt_succ_self h))
  · intro a ha hlt
    have hne : a ≠ edge.1 := by
      rintro rfl
      omega
    rw [hpages', hlower a ha hlt.le]
    exact Function.update_of_ne hne ..
  · rw [hedge']
    exact hframe₂.edge_eq h (Nat.lt_succ_self h)
  · intro a ha hle
    rw [hpages', hlower a ha hle]
    exact hsame₁ a
  · have hafter : entriesAt closed' req' (h + 1) = entriesAt closed' linked (h + 1) :=
      entriesAt_congr (by rw [hedge']) fun a _ => by rw [hpages']
    have hbefore : entriesAt closed (req.setPage edge.1 page) (h + 1) =
        entriesAt closed req (h + 1) :=
      entriesAt_congr rfl fun a _ => (hsame₁ a).slots_eq
    rw [hafter, hentries, hbefore, List.map_append]
    congr 1
    show [some _] = [linkTo cfg.btree req.pages h edge.1]
    unfold linkTo
    rw [hpivot, hcount]
    rfl

theorem linkNodes_shape (hcreate : CreatesNode cfg before metaHead (h + 1) createParent)
    (habove : CreatesAbove cfg before metaHead h createParent) (nextExtentAddr : Nat)
    (edges : List (Nat × PivotStats)) :
    ∀ {closed : Nat → List Nat} {out : List Nat} {req req' : PackReq K},
      PackInv cfg before metaHead req → Shape cfg (h + 1) closed out none req →
      OpenFrom (h + 1) closed req → EdgeStats cfg (h + 1) req →
      (∀ edge ∈ edges, edge.1 ∈ out ∧ (req.pages edge.1).height = h ∧
        edge.2 = nodeStats cfg.btree (req.pages edge.1)) →
      linkNodes cfg createParent h nextExtentAddr edges req = some req' →
      ∃ closed' out', LinksNodes cfg h closed closed' out out' req req' (edges.map Prod.fst) := by
  induction edges with
  | nil =>
      intro closed out req req' _ hshape hopen hstats _ hrun
      obtain rfl := Option.some.inj hrun
      exact ⟨closed, out, hshape, hopen, hstats, Frame.refl .., rfl, rfl,
        fun a _ _ => Page.SameNode.refl _, (List.append_nil _).symm⟩
  | cons edge edges ih =>
      intro closed out req req' hinv hshape hopen hstats hedges hrun
      obtain ⟨mid, hnode, hrest⟩ := Option.bind_eq_some_iff.mp hrun
      obtain ⟨-, hheight, hcount⟩ := hedges edge List.mem_cons_self
      obtain ⟨hinv₁, closed₁, out₁, hlinks₁⟩ :=
        linkNode_shape hcreate habove hinv hshape hopen hstats hheight hcount hnode
      have hedges₁ : ∀ e ∈ edges, e.1 ∈ out₁ ∧ (mid.pages e.1).height = h ∧
          e.2 = nodeStats cfg.btree (mid.pages e.1) := by
        intro e he
        obtain ⟨hout, hh, hc⟩ := hedges e (List.mem_cons_of_mem _ he)
        have hsame := hlinks₁.same _ hout hh.le
        exact ⟨hlinks₁.frame.out_subset _ hout, hsame.height_eq.trans hh,
          hc.trans (nodeStats_congr hsame.slots_eq).symm⟩
      obtain ⟨closed₂, out₂, hlinks₂⟩ :=
        ih hinv₁ hlinks₁.shape hlinks₁.openFrom hlinks₁.stats hedges₁ hrest
      refine ⟨closed₂, out₂, hlinks₁.trans hlinks₂ ?_⟩
      intro a ha
      obtain ⟨e, he, rfl⟩ := List.mem_map.mp ha
      obtain ⟨hout, hh, -⟩ := hedges e (List.mem_cons_of_mem _ he)
      exact ⟨hout, hh⟩

theorem Shape.of_nodes {l : Nat} {closed closed' : Nat → List Nat} {out : List Nat}
    {hole : Option Nat} {req req' : PackReq K} (hshape : Shape cfg l closed out hole req)
    (hpages : req'.pages = req.pages) (halloc : req'.alloc = req.alloc)
    (hclosed : ∀ i, l ≤ i → closed' i = closed i) (hedge : ∀ i, l ≤ i → req'.edge i = req.edge i)
    (hknown : ∀ i, ∀ a ∈ closed' i ++ req'.edge i, a ∈ out) :
    Shape cfg l closed' out hole req' where
  hands := halloc ▸ hshape.hands
  known := hknown
  level := by
    intro i hi
    rw [hclosed i hi, hedge i hi]
    exact (hshape.level i hi).of_same fun a _ => by rw [hpages]; exact Page.SameNode.refl _
  links := by
    intro i hi
    refine (hshape.links i hi).of_slots (hclosed i hi)
      (by rw [hclosed _ (by omega), hedge _ (by omega)]) ?_ ?_ <;>
    exact fun a _ => by rw [hpages]

theorem linkExtent_shape (hcreate : CreatesNode cfg before metaHead (h + 1) createParent)
    (habove : CreatesAbove cfg before metaHead h createParent) {nextExtentAddr : Nat}
    {closed : Nat → List Nat} {out : List Nat} {req req' : PackReq K}
    (hinv : PackInv cfg before metaHead req) (hshape : Shape cfg (h + 1) closed out none req)
    (hopen : OpenFrom (h + 1) closed req) (hstats : EdgeStats cfg h req)
    (hlinks : LinksClosed cfg.btree closed req h)
    (hnodes : ∀ a ∈ closed h ++ req.edge h, (req.pages a).height = h)
    (hrun : linkExtent cfg createParent h nextExtentAddr req = some req') :
    ∃ closed' out', Shape cfg (h + 1) closed' out' none req' ∧ OpenFrom (h + 1) closed' req' ∧
      EdgeStats cfg h req' ∧ LinksClosed cfg.btree closed' req' h ∧
      Frame h closed closed' out out' req req' ∧
      closed' h = closed h ++ req.edge h ∧ req'.edge h = [] ∧
      ∀ a ∈ out, (req.pages a).height ≤ h → (req.pages a).SameNode (req'.pages a) := by
  have hpages : ((req.edge h).zip (req.edgeStats h)).map Prod.fst = req.edge h :=
    List.map_fst_zip (le_of_eq (hinv.length_stats h).symm)
  obtain ⟨mid, hmid, hrun⟩ := Option.bind_eq_some_iff.mp hrun
  obtain rfl := Option.some.inj hrun
  have hedges : ∀ e ∈ (req.edge h).zip (req.edgeStats h),
      e.1 ∈ out ∧ (req.pages e.1).height = h ∧
        e.2 = nodeStats cfg.btree (req.pages e.1) := by
    intro e he
    have hmem : e.1 ∈ req.edge h := (List.of_mem_zip he).1
    have happ : e.1 ∈ closed h ++ req.edge h := List.mem_append_right _ hmem
    refine ⟨hshape.known h e.1 happ, hnodes e.1 happ, ?_⟩
    rw [hstats h (le_refl h), ← List.map_prod_left_eq_zip] at he
    obtain ⟨a, -, rfl⟩ := List.mem_map.mp he
    rfl
  obtain ⟨closed₁, out₁, hl⟩ :=
    linkNodes_shape hcreate habove nextExtentAddr _ hinv hshape hopen
      (hstats.mono (Nat.le_succ h)) hedges hmid
  rw [hpages] at hl
  let closed' : Nat → List Nat := Function.update closed₁ h (closed h ++ req.edge h)
  let req' : PackReq K := { mid with
    edge := Function.update mid.edge h []
    edgeStats := Function.update mid.edgeStats h [] }
  have hclosed : ∀ i, i ≠ h → closed' i = closed₁ i := fun i hi => Function.update_of_ne hi ..
  have hedge : ∀ i, i ≠ h → req'.edge i = mid.edge i := fun i hi => Function.update_of_ne hi ..
  have hclosed_h : closed' h = closed h ++ req.edge h := Function.update_self ..
  have hedge_h : req'.edge h = [] := Function.update_self ..
  have hshape' : Shape cfg (h + 1) closed' out₁ none req' := by
    refine hl.shape.of_nodes rfl rfl (fun i hi => hclosed i (by omega))
      (fun i hi => hedge i (by omega)) ?_
    intro i a ha
    by_cases hi : i = h
    · subst hi
      rw [hclosed_h, hedge_h, List.append_nil] at ha
      exact hl.frame.out_subset a (hshape.known i a ha)
    · rw [hclosed i hi, hedge i hi] at ha
      exact hl.shape.known i a ha
  refine ⟨closed', out₁, hshape', ?_, ?_, ?_, ⟨?_, ?_, hl.frame.pages_eq, hl.frame.out_subset⟩,
    hclosed_h, hedge_h, hl.same⟩
  · intro i hi hnil
    rw [hclosed i (by omega)]
    rw [hedge i (by omega)] at hnil
    exact hl.openFrom i hi hnil
  · intro i hi
    rcases Nat.lt_or_eq_of_le hi with hlt | rfl
    · have hstats_i : req'.edgeStats i = mid.edgeStats i := Function.update_of_ne (by omega) ..
      rw [hstats_i, hedge i (by omega)]
      exact hl.stats i hlt
    · have hstats_h : req'.edgeStats h = [] := Function.update_self ..
      rw [hstats_h, hedge_h]
      rfl
  · unfold LinksClosed at hlinks ⊢
    have hentries : entriesAt closed' req' (h + 1) = entriesAt closed₁ mid (h + 1) :=
      entriesAt_congr (by rw [hclosed _ (by omega), hedge _ (by omega)]) fun _ _ => rfl
    rw [hentries, hl.links, hlinks, hclosed_h, List.map_append, ← List.map_append,
      ← List.map_append]
    refine List.map_congr_left fun a ha => ?_
    have hsame := hl.same a (hshape.known h a ha) (hnodes a ha).le
    exact linkTo_congr hsame.slots_eq h
  · intro i hi
    rw [hclosed i (by omega)]
    exact hl.frame.closed_eq i hi
  · intro i hi
    rw [hedge i (by omega)]
    exact hl.frame.edge_eq i hi

/-! ## New nodes -/

theorem Shape.mono {l l' : Nat} (hle : l ≤ l') {closed : Nat → List Nat} {out : List Nat}
    {hole : Option Nat} {req : PackReq K} (hshape : Shape cfg l closed out hole req) :
    Shape cfg l' closed out hole req :=
  ⟨hshape.hands, hshape.known, fun i hi => hshape.level i (hle.trans hi),
    fun i hi => hshape.links i (hle.trans hi)⟩

/-- A page that has just been handed out: it is no node yet. -/
structure NewPage (h : Nat) (closed : Nat → List Nat) (out : List Nat) (req : PackReq K)
    (new : Nat) : Prop where
  mem : new ∈ out
  not_node : ∀ i, new ∉ closed i ++ req.edge i
  height_eq : (req.pages new).height = h
  slots_eq : (req.pages new).slots = []
  nextAddr_eq : (req.pages new).nextAddr = 0
  prevAddr_eq : (req.pages new).prevAddr = 0

theorem allocNode_shape {closed : Nat → List Nat} {out : List Nat} {req req' : PackReq K}
    {new : Nat} (hinv : PackInv cfg before metaHead req)
    (hshape : Shape cfg h closed out none req) (hstats : EdgeStats cfg h req)
    (hrun : allocNode cfg h req = some (new, req')) :
    Shape cfg h closed (out ++ [new]) none req' ∧ EdgeStats cfg h req' ∧
      NewPage h closed (out ++ [new]) req' new ∧
      Frame h closed closed out (out ++ [new]) req req' ∧ req'.edge = req.edge ∧
      entriesAt closed req' h = entriesAt closed req h := by
  obtain ⟨⟨⟨addr, nextExtent⟩, alloc⟩, halloc, hrun⟩ := Option.bind_eq_some_iff.mp hrun
  cases hrun
  have hands := Alloc.miniAlloc_handsOut hinv.owns hshape.hands halloc
  have hnew : new ∉ out := fun hmem =>
    (List.nodup_append.mp hands.nodup).2.2 new hmem new (List.mem_singleton_self new) rfl
  have hnode : ∀ i, new ∉ closed i ++ req.edge i := fun i hmem => hnew (hshape.known i new hmem)
  let page : Page K := { Page.init cfg.btree with height := h }
  have hself : Function.update req.pages new page new = page := Function.update_self ..
  have hother : ∀ i, ∀ a ∈ closed i ++ req.edge i,
      Function.update req.pages new page a = req.pages a := by
    intro i a ha
    refine Function.update_of_ne ?_ ..
    rintro rfl
    exact hnode i ha
  refine ⟨⟨hands, fun i a ha => List.mem_append_left _ (hshape.known i a ha), ?_, ?_⟩, ?_, ?_, ?_,
    rfl, ?_⟩
  · intro i hi
    refine (hshape.level i hi).of_same fun a ha => ?_
    show (req.pages a).SameNode (Function.update req.pages new page a)
    rw [hother i a ha]
    exact Page.SameNode.refl _
  · intro i hi
    refine (hshape.links i hi).of_slots rfl rfl ?_ ?_
    · intro a ha
      show (Function.update req.pages new page a).slots = _
      rw [hother (i + 1) a ha]
    · intro a ha
      show (Function.update req.pages new page a).slots = _
      rw [hother i a (List.mem_append_left _ ha)]
  · refine hstats.congr (fun _ _ => rfl) (fun _ _ => rfl) fun i _ a ha => ?_
    show (Function.update req.pages new page a).slots = _
    rw [hother i a (List.mem_append_right _ ha)]
  · refine ⟨List.mem_append_right _ (List.mem_singleton_self new), hnode, ?_, ?_, ?_, ?_⟩
    · exact congrArg Page.height hself
    · exact congrArg Page.slots hself
    · exact congrArg Page.nextAddr hself
    · exact congrArg Page.prevAddr hself
  · refine ⟨fun _ _ => rfl, fun _ _ => rfl, ?_, fun a ha => List.mem_append_left _ ha⟩
    intro a ha _
    refine Function.update_of_ne ?_ ..
    rintro rfl
    exact hnew ha
  · refine entriesAt_congr rfl fun a ha => ?_
    show (Function.update req.pages new page a).slots = _
    rw [hother h a ha]

theorem linkSiblings_shape {closed : Nat → List Nat} {out : List Nat} {req : PackReq K}
    {old new : Nat} (hbounds : ∀ a ∈ out, a ≠ 0 ∧ a < UInt64.size)
    (hshape : Shape cfg h closed out none req) (hnew : NewPage h closed out req new)
    (hold : req.currentNode h = some old) :
    Shape cfg (h + 1) closed out none (req.linkSiblings old new) ∧
      LevelOk (req.linkSiblings old new) (some new) h (closed h ++ req.edge h ++ [new]) ∧
      ∀ a, ((req.linkSiblings old new).pages a).slots = (req.pages a).slots ∧
        ((req.linkSiblings old new).pages a).height = (req.pages a).height ∧
        ((req.pages a).height ≠ h → (req.linkSiblings old new).pages a = req.pages a) := by
  have hok := hshape.level h (le_refl h)
  obtain ⟨front, hedge⟩ := eq_concat_of_currentNode hold
  have hnodes : closed h ++ req.edge h = closed h ++ front ++ [old] := by
    rw [hedge, List.append_assoc]
  have hlast : old ∈ closed h ++ req.edge h := by
    rw [hnodes]
    exact List.mem_append_right _ (List.mem_singleton_self old)
  have hne : new ≠ old := by
    rintro rfl
    exact hnew.not_node h hlast
  have hnodup := hok.nodup fun h0 => (hbounds 0 (hshape.known h 0 h0)).1 rfl
  have hfront : ∀ a ∈ closed h ++ front, a ≠ old := by
    rw [hnodes] at hnodup
    intro a ha heq
    exact (List.nodup_append.mp hnodup).2.2 a ha old (List.mem_singleton_self old) heq
  have hpages : (req.linkSiblings old new).pages old =
      { req.pages old with nextAddr := BitVec.ofNat 64 new } := by
    show Function.update (Function.update req.pages old _) new _ old = _
    rw [Function.update_of_ne (Ne.symm hne), Function.update_self]
  have hpages' : (req.linkSiblings old new).pages new =
      { req.pages new with prevAddr := BitVec.ofNat 64 old } := by
    show Function.update (Function.update req.pages old _) new
      { Function.update req.pages old _ new with prevAddr := BitVec.ofNat 64 old } new = _
    rw [Function.update_self, Function.update_of_ne hne]
  have hother : ∀ a, a ≠ old → a ≠ new → (req.linkSiblings old new).pages a = req.pages a := by
    intro a ha ha'
    show Function.update (Function.update req.pages old _) new _ a = _
    rw [Function.update_of_ne ha', Function.update_of_ne ha]
  have hsame : ∀ a, ((req.linkSiblings old new).pages a).slots = (req.pages a).slots ∧
      ((req.linkSiblings old new).pages a).height = (req.pages a).height ∧
      ((req.pages a).height ≠ h → (req.linkSiblings old new).pages a = req.pages a) := by
    intro a
    by_cases ha : a = old
    · subst ha
      rw [hpages]
      exact ⟨rfl, rfl, fun hheight => absurd (hok.height_eq a hlast) hheight⟩
    · by_cases ha' : a = new
      · subst ha'
        rw [hpages']
        exact ⟨rfl, rfl, fun hheight => absurd hnew.height_eq hheight⟩
      · rw [hother a ha ha']
        exact ⟨rfl, rfl, fun _ => rfl⟩
  refine ⟨?_, ?_, hsame⟩
  · refine (hshape.mono (Nat.le_succ h)).congr rfl rfl fun i hi a ha => (hsame a).2.2 ?_
    rw [(hshape.level i (by omega)).height_eq a ha]
    omega
  · have hmem : ∀ a ∈ closed h ++ front, a ≠ new := by
      rintro a ha rfl
      refine hnew.not_node h ?_
      rw [hnodes]
      exact List.mem_append_left _ ha
    constructor
    · intro a ha
      rw [(hsame a).2.1]
      rcases List.mem_append.mp ha with ha | ha
      · exact hok.height_eq a ha
      · rw [List.mem_singleton.mp ha]
        exact hnew.height_eq
    · have hlinked := hok.linked
      rw [hnodes] at hlinked ⊢
      refine hlinked.concat ?_ ?_ ?_ _ ?_
      · show ((req.linkSiblings old new).pages new).prevAddr.toNat = old
        rw [hpages']
        exact toNat_ofNat (hbounds old (hshape.known h old hlast)).2
      · show ((req.linkSiblings old new).pages new).nextAddr.toNat = 0
        rw [hpages']
        exact congrArg BitVec.toNat hnew.nextAddr_eq
      · show ((req.linkSiblings old new).pages old).prevAddr.toNat = _ ∧
          ((req.linkSiblings old new).pages old).nextAddr.toNat = new
        rw [hpages]
        exact ⟨rfl, toNat_ofNat (hbounds new hnew.mem).2⟩
      · intro a ha
        show ((req.linkSiblings old new).pages a).prevAddr.toNat = _ ∧
          ((req.linkSiblings old new).pages a).nextAddr.toNat = _
        rw [hother a (hfront a ha) (hmem a ha)]
        exact ⟨rfl, rfl⟩
    · intro a ha hhole
      rw [(hsame a).1]
      rcases List.mem_append.mp ha with ha | ha
      · exact hok.nonempty a ha (by simp)
      · exact absurd (congrArg some (List.mem_singleton.mp ha)) hhole

/-- A height where a new page is about to be opened: it stands behind the other nodes. -/
structure ReadyFor (cfg : PackConfig K) (h : Nat) (closed : Nat → List Nat) (out : List Nat)
    (req : PackReq K) (new : Nat) : Prop where
  shape : Shape cfg (h + 1) closed out none req
  openFrom : OpenFrom (h + 1) closed req
  stats : EdgeStats cfg h req
  links : LinksClosed cfg.btree closed req h
  level : LevelOk req (some new) h (closed h ++ req.edge h ++ [new])
  mem : new ∈ out
  slots_eq : (req.pages new).slots = []

theorem closeExtent_shape (hcreate : CreatesNode cfg before metaHead (h + 1) createParent)
    (habove : CreatesAbove cfg before metaHead h createParent) {closed : Nat → List Nat}
    {out : List Nat} {req req' : PackReq K} {new : Nat} (hinv : PackInv cfg before metaHead req)
    (hshape : Shape cfg h closed out none req) (hopen : OpenFrom h closed req)
    (hstats : EdgeStats cfg h req) (hnew : NewPage h closed out req new)
    (hrun : closeExtent cfg createParent h new req = some req') :
    ∃ closed' out', ReadyFor cfg h closed' out' req' new ∧
      Frame h closed closed' out out' req req' ∧
      entriesAt closed' req' h = entriesAt closed req h := by
  have hbounds : ∀ a ∈ out, a ≠ 0 ∧ a < UInt64.size := fun a ha =>
    ⟨(out_bounds hinv.owns hshape.hands a ha).1, (out_bounds hinv.owns hshape.hands a ha).2.1⟩
  have hopen' : OpenFrom (h + 1) closed req := fun i hi => hopen i (by omega)
  have hok := hshape.level h (le_refl h)
  unfold closeExtent at hrun
  cases hcurr : req.currentNode h with
  | none =>
      -- The new page is the first node of its height.
      rw [hcurr] at hrun
      obtain rfl := Option.some.inj hrun
      have hnil : req.edge h = [] := List.getLast?_eq_none_iff.mp hcurr
      refine ⟨closed, out, ⟨hshape.mono (Nat.le_succ h), hopen', hstats, hshape.links h (le_refl h),
        ?_, hnew.mem, hnew.slots_eq⟩, Frame.refl .., rfl⟩
      rw [hnil, hopen h (le_refl h) hnil]
      constructor
      · intro a ha
        rw [List.mem_singleton.mp ha]
        exact hnew.height_eq
      · exact ⟨congrArg BitVec.toNat hnew.prevAddr_eq, congrArg BitVec.toNat hnew.nextAddr_eq,
          trivial⟩
      · intro a ha hhole
        exact absurd (congrArg some (List.mem_singleton.mp ha)) hhole
  | some old =>
      rw [hcurr] at hrun
      obtain ⟨hshape₁, hlevel₁, hpages₁⟩ := linkSiblings_shape hbounds hshape hnew hcurr
      have hframe₁ : Frame h closed closed out out req (req.linkSiblings old new) :=
        ⟨fun _ _ => rfl, fun _ _ => rfl, fun a _ ha => (hpages₁ a).2.2 (by omega), fun _ ha => ha⟩
      have hstats₁ : EdgeStats cfg h (req.linkSiblings old new) :=
        hstats.congr (fun _ _ => rfl) (fun _ _ => rfl) fun _ _ a _ => (hpages₁ a).1
      have hlinks₁ : LinksClosed cfg.btree closed (req.linkSiblings old new) h :=
        (hshape.links h (le_refl h)).of_slots rfl rfl (fun a _ => (hpages₁ a).1)
          fun a _ => (hpages₁ a).1
      have hentries₁ : entriesAt closed (req.linkSiblings old new) h = entriesAt closed req h :=
        entriesAt_congr rfl fun a _ => (hpages₁ a).1
      have hslots₁ : ((req.linkSiblings old new).pages new).slots = [] :=
        (hpages₁ new).1.trans hnew.slots_eq
      by_cases hsame : cfg.extents.baseAddr old = cfg.extents.baseAddr new
      · have hrun' : some (req.linkSiblings old new) = some req' := (if_pos hsame).symm.trans hrun
        obtain rfl := Option.some.inj hrun'
        exact ⟨closed, out, ⟨hshape₁, hopen', hstats₁, hlinks₁, hlevel₁, hnew.mem, hslots₁⟩,
          hframe₁, hentries₁⟩
      · have hrun' : linkExtent cfg createParent h new (req.linkSiblings old new) = some req' :=
          (if_neg hsame).symm.trans hrun
        have hnodes : ∀ a ∈ closed h ++ req.edge h,
            ((req.linkSiblings old new).pages a).height = h := fun a ha =>
          (hpages₁ a).2.1.trans (hok.height_eq a ha)
        have hinv₁ : PackInv cfg before metaHead (req.linkSiblings old new) :=
          hinv.of_eq rfl rfl rfl fun _ => rfl
        obtain ⟨closed', out', hshape₂, hopen₂, hstats₂, hlinks₂, hframe₂, hclosed, hedge, hkept⟩ :=
          linkExtent_shape hcreate habove hinv₁ hshape₁ hopen' hstats₁ hlinks₁ hnodes hrun'
        have hkept' : ∀ a ∈ closed h ++ req.edge h ++ [new],
            ((req.linkSiblings old new).pages a).SameNode (req'.pages a) := by
          intro a ha
          refine hkept a ?_ (hlevel₁.height_eq a ha).le
          rcases List.mem_append.mp ha with ha | ha
          · exact hshape.known h a ha
          · rw [List.mem_singleton.mp ha]
            exact hnew.mem
        have hlist : closed' h ++ req'.edge h = closed h ++ req.edge h := by
          rw [hclosed, hedge, List.append_nil]
          rfl
        refine ⟨closed', out', ⟨hshape₂, hopen₂, hstats₂, hlinks₂, ?_,
          hframe₂.out_subset new hnew.mem, ?_⟩, hframe₁.trans hframe₂, ?_⟩
        · rw [hlist]
          exact hlevel₁.of_same hkept'
        · rw [(hkept' new (List.mem_append_right _ (List.mem_singleton_self new))).slots_eq,
            hslots₁]
        · rw [← hentries₁]
          exact entriesAt_congr hlist fun a ha =>
            (hkept' a (List.mem_append_left _ ha)).slots_eq

theorem ReadyFor.openNode {closed : Nat → List Nat} {out : List Nat} {req : PackReq K} {new : Nat}
    (hready : ReadyFor cfg h closed out req new) :
    Shape cfg h closed out (some new) (req.openNode h new) ∧
      OpenFrom h closed (req.openNode h new) ∧ EdgeStats cfg h (req.openNode h new) ∧
      (req.openNode h new).currentNode h = some new ∧
      entriesAt closed (req.openNode h new) h = entriesAt closed req h := by
  have hself : (req.openNode h new).edge h = req.edge h ++ [new] := Function.update_self ..
  have hother : ∀ i, i ≠ h → (req.openNode h new).edge i = req.edge i := fun i hi =>
    Function.update_of_ne hi ..
  refine ⟨⟨hready.shape.hands, ?_, ?_, ?_⟩, ?_, ?_, ?_, ?_⟩
  · intro i a ha
    by_cases hi : i = h
    · subst hi
      rw [hself, ← List.append_assoc] at ha
      rcases List.mem_append.mp ha with ha | ha
      · exact hready.shape.known i a ha
      · rw [List.mem_singleton.mp ha]
        exact hready.mem
    · rw [hother i hi] at ha
      exact hready.shape.known i a ha
  · intro i hi
    by_cases heq : i = h
    · subst heq
      rw [hself, ← List.append_assoc]
      exact hready.level.of_same fun a _ => Page.SameNode.refl _
    · rw [hother i heq]
      have hok := hready.shape.level i (by omega)
      exact ⟨hok.height_eq, hok.linked, fun a ha _ => hok.nonempty a ha (by simp)⟩
  · intro i hi
    have hup := hother (i + 1) (by omega)
    by_cases heq : i = h
    · subst heq
      exact hready.links.of_slots rfl (by rw [hup]) (fun _ _ => rfl) fun _ _ => rfl
    · exact (hready.shape.links i (by omega)).of_slots rfl (by rw [hup]) (fun _ _ => rfl)
        fun _ _ => rfl
  · intro i hi hnil
    by_cases heq : i = h
    · subst heq
      rw [hself] at hnil
      exact absurd hnil (by simp)
    · rw [hother i heq] at hnil
      exact hready.openFrom i (by omega) hnil
  · intro i hi
    show Function.update req.edgeStats h (req.edgeStats h ++ [statsZero]) i = _
    by_cases heq : i = h
    · subst heq
      have hzero : nodeStats cfg.btree (req.pages new) = statsZero := by
        unfold nodeStats Page.storedEntries
        rw [hready.slots_eq]
        rfl
      rw [Function.update_self, hself, List.map_append, List.map_singleton, hready.stats i hi]
      show _ = _ ++ [nodeStats cfg.btree (req.pages new)]
      rw [hzero]
      rfl
    · rw [Function.update_of_ne heq, hother i heq]
      exact hready.stats i hi
  · unfold currentNode
    rw [hself]
    exact List.getLast?_concat
  · unfold entriesAt
    rw [hself, ← List.append_assoc, List.flatMap_append, List.flatMap_singleton]
    show (closed h ++ req.edge h).flatMap _ ++ (req.pages new).storedEntries = _
    unfold Page.storedEntries
    rw [hready.slots_eq, List.map_nil, List.append_nil]
    rfl

theorem createNextNode_shape (levels : Nat) : ∀ {h : Nat}, levels + h ≤ maxHeight →
    CreatesNode cfg before metaHead h (createNextNode cfg levels h) := by
  induction levels with
  | zero =>
      intro h _ pivot req req' closed out _ _ _ _ hrun
      cases hrun
  | succ levels ih =>
      intro h hlevels pivot req req' closed out hinv hshape hopen hstats hrun
      refine ⟨(createNextNode_spec _ hlevels hinv hrun).1, ?_⟩
      obtain ⟨⟨new, req₁⟩, halloc, hrun⟩ := Option.bind_eq_some_iff.mp hrun
      obtain ⟨req₂, hclose, hrun⟩ := Option.bind_eq_some_iff.mp hrun
      obtain rfl := Option.some.inj hrun
      have habove : CreatesAbove cfg before metaHead h (createNextNode cfg levels (h + 1)) := by
        intro pivot req req' hinv hrun
        obtain ⟨hinv', hkeeps, hsame⟩ := createNextNode_spec _ (by omega) hinv hrun
        exact ⟨hinv', hkeeps, fun l hl => hsame l (Nat.lt_succ_of_le hl)⟩
      obtain ⟨hshape₁, hstats₁, hnew, hframe₁, hedge₁, hentries₁⟩ :=
        allocNode_shape hinv hshape hstats halloc
      have hopen₁ : OpenFrom h closed req₁ := by
        unfold OpenFrom
        rw [hedge₁]
        exact hopen
      obtain ⟨closed', out', hready, hframe₂, hentries₂⟩ := closeExtent_shape (ih (by omega)) habove
        (allocNode_spec hinv halloc).1 hshape₁ hopen₁ hstats₁ hnew hclose
      obtain ⟨hshape₃, hopen₃, hstats₃, hcur, hentries₃⟩ := hready.openNode
      refine ⟨hstats₃, closed', out', new, hshape₃, hopen₃, ?_, hcur, ?_⟩
      · have hframe₃ : Frame h closed' closed' out' out' req₂ (req₂.openNode h new) :=
          ⟨fun _ _ => rfl, fun i hi => Function.update_of_ne (ne_of_lt hi) .., fun _ _ _ => rfl,
            fun _ ha => ha⟩
        exact (hframe₁.trans hframe₂).trans hframe₃
      · rw [hentries₃, hentries₂, hentries₁]

end PackReq
end Btree
end TreePass
