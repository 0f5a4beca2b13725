import TreePass.Core.LogOrder

/-!
# When the log is ordered

The generation counter of a leaf only grows: an update raises it, a defragmentation keeps it, and
both halves of a split start above it.  A new memtable starts at 0 again.

* `OrderInv` is the invariant of the runs in which every insertion is `PastEarlier`.
* `logOrdered_iff_pastEarlier`: these are the runs whose records are ordered, and their logs can be
  replayed.
* `logOrdered_fails`: a run whose records are not.
-/

namespace TreePass
namespace Core
namespace LogOrder

open Lib Lib.System Btree

variable {K : Type} [LinearOrder K] {cfg : InsertConfig K} {env : Surroundings}

/-! ## Leaves -/

/-- A leaf whose entries are placed and in order. -/
structure LeafOk (cfg : Config K) (hdr : Page K) : Prop where
  placed : hdr.Placed cfg
  leaf : hdr.IsLeaf
  ascending : hdr.entries.Pairwise fun a b => a.key < b.key

private theorem leafOk_init (cfg : InsertConfig K) : LeafOk cfg.btree (Page.init cfg.btree) where
  placed := Page.placed_init cfg.hdr_le
  leaf := fun _ h => absurd h List.not_mem_nil
  ascending := List.Pairwise.nil

private theorem LeafOk.of_sublist {hdr p' : Page K} {spec : LeafIncorporateSpec K}
    (h : LeafOk cfg.btree hdr) (hat : spec.At hdr.entries) (hplaced : p'.Placed cfg.btree)
    (hsub : p'.entries.Sublist (spec.applyTo hdr.entries)) : LeafOk cfg.btree p' where
  placed := hplaced
  leaf := fun entry hentry => by
    have hmem := hsub.subset hentry
    rw [LeafIncorporateSpec.applyTo_eq hat.within] at hmem
    rcases List.mem_append.mp hmem with hfront | hrest
    · exact h.leaf entry (List.mem_of_mem_take hfront)
    · rcases List.mem_cons.mp hrest with rfl | hback
      · exact ⟨_, rfl⟩
      · exact h.leaf entry (List.mem_of_mem_drop hback)
  ascending := (hat.ascending h.ascending).sublist hsub

/-- What becomes of a leaf: the update has the generation of its counter, and the counters of the
pages that follow are not smaller than before, the one that has the update being larger. -/
inductive Follows (cfg : InsertConfig K) (hdr : Page K) (spec : LeafIncorporateSpec K) :
    OverflowResult K → Prop
  | whole {leaf : Page K} : LeafOk cfg.btree leaf →
      leaf.generation = counterFor cfg hdr spec + 1 →
      Follows cfg hdr spec (.whole leaf (counterFor cfg hdr spec))
  | split {pivot : Key K} {left right : Page K} : LeafOk cfg.btree left → LeafOk cfg.btree right →
      left.generation =
        counterFor cfg hdr spec + (if Key.user spec.tupleKey < pivot then 1 else 0) →
      right.generation =
        counterFor cfg hdr spec + (if Key.user spec.tupleKey < pivot then 0 else 1) →
      Follows cfg hdr spec (.split pivot left right (counterFor cfg hdr spec))

omit [LinearOrder K] in
theorem le_counterFor (cfg : InsertConfig K) (hdr : Page K) (spec : LeafIncorporateSpec K) :
    hdr.generation ≤ counterFor cfg hdr spec := by
  rw [counterFor]
  split <;> omega

theorem incorporate_follows {hdr : Page K} {spec : LeafIncorporateSpec K}
    (h : LeafOk cfg.btree hdr) (hat : spec.At hdr.entries) {result : OverflowResult K}
    (hresult : incorporate cfg env hdr spec = some result) : Follows cfg hdr spec result := by
  have hspec : spec.Within hdr.numEntries := by
    rw [← Page.length_entries]
    exact hat.within
  have hcan : hdr.canPerformLeafIncorporateSpec cfg.btree spec = true ↔
      ∃ r, hdr.tryPerformLeafIncorporateSpec cfg.btree spec = some r := Page.canPerform_iff hspec.2
  rw [incorporate] at hresult
  -- an update that leaves the leaf whole
  have hwhole : ∀ {leaf : Page K} {generation : Nat},
      counterFor cfg hdr spec = hdr.generation →
      Page.Updated cfg.btree hdr.generation (spec.applyTo hdr.entries) leaf generation →
      Follows cfg hdr spec (.whole leaf generation) := by
    intro leaf generation hcounter hupdated
    have hgeneration : generation = counterFor cfg hdr spec :=
      hupdated.generation.trans hcounter.symm
    rw [hgeneration]
    refine .whole (h.of_sublist hat hupdated.placed ?_) ?_
    · rw [hupdated.entries]
    · rw [hupdated.after, hcounter]
  split at hresult
  next leaf generation htry =>
    obtain rfl := Option.some.inj hresult
    refine hwhole ?_ (h.placed.updated hspec htry)
    rw [counterFor, if_pos (Or.inl (hcan.mpr ⟨_, htry⟩))]
  next hnone =>
    have hcannot : ¬ hdr.canPerformLeafIncorporateSpec cfg.btree spec = true := fun hfits => by
      obtain ⟨r, hr⟩ := hcan.mp hfits
      rw [hnone] at hr
      cases hr
    rcases Page.defragmentOrSplitLeaf_cases h.placed h.leaf h.ascending hat hresult with
      ⟨hsmall, leaf, generation, rfl, hupdated⟩ |
      ⟨hlarge, pivot, left, right, generation, rfl, hinto⟩
    · refine hwhole ?_ hupdated
      rw [counterFor, if_pos (Or.inr hsmall)]
    · have hcounter : counterFor cfg hdr spec = hdr.generation + 1 := by
        rw [counterFor, if_neg (not_or.mpr ⟨hcannot, hlarge⟩)]
      have hgeneration : generation = counterFor cfg hdr spec :=
        hinto.generation.trans hcounter.symm
      rw [hgeneration]
      refine .split (h.of_sublist hat hinto.placed_left ?_)
        (h.of_sublist hat hinto.placed_right ?_) ?_ ?_
      · rw [hinto.entries_left]
        exact List.take_sublist _ _
      · rw [hinto.entries_right]
        exact List.drop_sublist _ _
      · rw [hinto.generation_left, hcounter]
      · rw [hinto.generation_right, hcounter]

/-! ## Memtables -/

/-- A memtable whose leaves are in order and whose descents end at leaves it has. -/
structure MemtableOk (cfg : InsertConfig K) (mt : LeafMemtable K) : Prop where
  leaves : ∀ i, LeafOk cfg.btree (mt.leaf i)
  routed : ∀ x, mt.route x < mt.numLeaves

private theorem memtableOk_create (cfg : InsertConfig K) : MemtableOk cfg (btreeCreate cfg) where
  leaves := fun _ => leafOk_init cfg
  routed := fun _ => Nat.zero_lt_one

/-- What an insertion of a key does to the counters of the leaves. -/
structure Advances (cfg : InsertConfig K) (x : K) (counter : Nat) (mt mt' : LeafMemtable K) :
    Prop where
  ok : MemtableOk cfg mt'
  mono : ∀ y, (mt.leafOf y).generation ≤ (mt'.leafOf y).generation
  own : counter < (mt'.leafOf x).generation

theorem replace_advances {mt : LeafMemtable K} (h : MemtableOk cfg mt) {spec : LeafIncorporateSpec K}
    {result : OverflowResult K} (hresult : Follows cfg (mt.leafOf spec.tupleKey) spec result) :
    (mt.replace (mt.route spec.tupleKey) result).2 =
        counterFor cfg (mt.leafOf spec.tupleKey) spec ∧
      Advances cfg spec.tupleKey (counterFor cfg (mt.leafOf spec.tupleKey) spec) mt
        (mt.replace (mt.route spec.tupleKey) result).1 := by
  have hlow := le_counterFor cfg (mt.leafOf spec.tupleKey) spec
  generalize hi : mt.route spec.tupleKey = i
  have hleafOf : ∀ {y : K}, mt.route y = i → mt.leafOf y = mt.leafOf spec.tupleKey := by
    intro y hy
    simp only [LeafMemtable.leafOf, hy, hi]
  cases hresult with
  | @whole leaf hok hgeneration =>
      generalize counterFor cfg (mt.leafOf spec.tupleKey) spec = counter at *
      refine ⟨rfl, ⟨fun j => ?_, h.routed⟩, fun y => ?_, ?_⟩
      · rcases eq_or_ne j i with rfl | hj
        · simpa only [LeafMemtable.replace, Function.update_self] using hok
        · simpa only [LeafMemtable.replace, Function.update_of_ne hj] using h.leaves j
      · by_cases hy : mt.route y = i
        · rw [hleafOf hy]
          simp only [LeafMemtable.replace, LeafMemtable.leafOf, hy, Function.update_self]
          change (mt.leafOf spec.tupleKey).generation ≤ _
          omega
        · simp only [LeafMemtable.replace, LeafMemtable.leafOf, Function.update_of_ne hy]
          exact le_refl _
      · simp only [LeafMemtable.replace, LeafMemtable.leafOf, hi, Function.update_self]
        omega
  | @split pivot left right hleft hright hleftGen hrightGen =>
      have hnew : ∀ y, mt.route y ≠ mt.numLeaves := fun y => (h.routed y).ne
      have hiNew : i ≠ mt.numLeaves := hi ▸ hnew spec.tupleKey
      -- the leaf of a key afterwards
      have hafter : ∀ y, (mt.replace i (.split pivot left right
          (counterFor cfg (mt.leafOf spec.tupleKey) spec))).1.leafOf y =
          if mt.route y = i then (if pivot ≤ Key.user y then right else left)
          else mt.leafOf y := by
        intro y
        simp only [LeafMemtable.replace, LeafMemtable.leafOf]
        by_cases hy : mt.route y = i
        · by_cases hp : pivot ≤ Key.user y
          · rw [if_pos ⟨hy, hp⟩, if_pos hy, if_pos hp, Function.update_self]
          · rw [if_neg fun hcon => hp hcon.2, if_pos hy, if_neg hp, hy,
              Function.update_of_ne hiNew, Function.update_self]
        · rw [if_neg fun hcon => hy hcon.1, if_neg hy, Function.update_of_ne (hnew y),
            Function.update_of_ne hy]
      refine ⟨rfl, ⟨fun j => ?_, fun y => ?_⟩, fun y => ?_, ?_⟩
      · simp only [LeafMemtable.replace]
        rcases eq_or_ne j mt.numLeaves with rfl | hj
        · rw [Function.update_self]
          exact hright
        · rw [Function.update_of_ne hj]
          rcases eq_or_ne j i with rfl | hj
          · rw [Function.update_self]
            exact hleft
          · rw [Function.update_of_ne hj]
            exact h.leaves j
      · simp only [LeafMemtable.replace]
        have hy := h.routed y
        split <;> omega
      · rw [hafter]
        split
        next hy =>
          rw [hleafOf hy]
          split <;> omega
        next => exact le_refl _
      · rw [hafter, if_pos hi]
        by_cases hp : pivot ≤ Key.user spec.tupleKey
        · rw [if_pos hp, hrightGen, if_neg (not_lt.mpr hp)]
          omega
        · rw [if_neg hp, hleftGen, if_pos (not_le.mp hp)]
          omega

/-- **The specification of `btree_insert`**: the generation is what the counter of the leaf shows. -/
theorem btreeInsert_ok {mt : LeafMemtable K} (h : MemtableOk cfg mt) {x : K} {msg : Message}
    {r : Except PlatformStatus Nat × LeafMemtable K}
    (hr : btreeInsert cfg env mt x msg = some r) :
    (∃ rc, specFor cfg env mt x msg = .error rc ∧ r.1 = .error rc ∧
      r.2 = mt.takeExtents env.newExtents) ∨
    (∃ spec, specFor cfg env mt x msg = .ok spec ∧
      r.1 = .ok (counterFor cfg (mt.leafOf x) spec) ∧
      Advances cfg x (counterFor cfg (mt.leafOf x) spec) mt r.2) := by
  rw [btreeInsert] at hr
  split at hr
  next rc hspec =>
    obtain rfl := Option.some.inj hr
    exact Or.inl ⟨rc, hspec, rfl, rfl⟩
  next spec hspec =>
    refine Or.inr ⟨spec, hspec, ?_⟩
    obtain ⟨result, hresult, rfl⟩ := Option.map_eq_some_iff.mp hr
    rw [specFor] at hspec
    split at hspec
    next => cases hspec
    next =>
      have hok := h.leaves (mt.route x)
      obtain ⟨rfl, hat⟩ := Page.createLeafIncorporateSpec_at hok.leaf hok.ascending hspec
      obtain ⟨hgeneration, hadvances⟩ :=
        replace_advances h (incorporate_follows hok hat hresult)
      exact ⟨congrArg Except.ok hgeneration,
        ⟨⟨hadvances.ok.leaves, hadvances.ok.routed⟩, hadvances.mono, hadvances.own⟩⟩

/-! ## The invariant -/

variable {τ : Type} [DecidableEq τ]

/-- What every state has as long as each insertion was `PastEarlier`. -/
structure OrderInv (cfg : InsertConfig K) (s : InsertState τ K) : Prop where
  memtable : MemtableOk cfg s.memtable
  /-- The records of this memtable are behind the counters of their leaves. -/
  behind : ∀ r ∈ s.applied, r.memtable = s.generation →
    r.generation < (s.memtable.leafOf r.key).generation
  memtables : ∀ r ∈ s.applied, r.memtable ≤ s.generation
  ordered : LogOrdered s
  log_subset : ∀ r ∈ s.log, r ∈ s.applied
  log_nodup : s.log.Nodup
  pending : ∀ t r, s.thread t = .logging r → r ∈ s.applied ∧ r ∉ s.log
  apart : ∀ t t' r, s.thread t = .logging r → s.thread t' = .logging r → t = t'

omit [DecidableEq τ] in
private theorem orderInv_new (cfg : InsertConfig K) : OrderInv (τ := τ) cfg (newInserts cfg) where
  memtable := memtableOk_create cfg
  behind := fun _ h => absurd h List.not_mem_nil
  memtables := fun _ h => absurd h List.not_mem_nil
  ordered := List.Pairwise.nil
  log_subset := fun _ h => absurd h List.not_mem_nil
  log_nodup := List.nodup_nil
  pending := fun _ _ h => by cases h
  apart := fun _ _ _ h => by cases h

omit [LinearOrder K] in
private theorem InsertState.logging_of_goto (s : InsertState τ K) {t t' : τ} {pc : InsertPc K}
    (hpc : ∀ r, pc ≠ .logging r) {r : LogRecord K} (hr : (s.goto t pc).thread t' = .logging r) :
    s.thread t' = .logging r := by
  change Function.update s.thread t pc t' = _ at hr
  rcases eq_or_ne t' t with rfl | hne
  · rw [Function.update_self] at hr
    exact absurd hr (hpc r)
  · rw [Function.update_of_ne hne] at hr
    exact hr

private theorem OrderInv.goto {s : InsertState τ K} (h : OrderInv cfg s) (t : τ) {pc : InsertPc K}
    (hpc : ∀ r, pc ≠ .logging r) : OrderInv cfg (s.goto t pc) where
  memtable := h.memtable
  behind := h.behind
  memtables := h.memtables
  ordered := h.ordered
  log_subset := h.log_subset
  log_nodup := h.log_nodup
  pending := fun t' r hr => h.pending t' r (s.logging_of_goto hpc hr)
  apart := fun t₁ t₂ r h₁ h₂ =>
    h.apart t₁ t₂ r (s.logging_of_goto hpc h₁) (s.logging_of_goto hpc h₂)

omit [DecidableEq τ] in
private theorem OrderInv.withMemtable {s : InsertState τ K} (h : OrderInv cfg s)
    {mt : LeafMemtable K} (hok : MemtableOk cfg mt)
    (hmono : ∀ y, (s.memtable.leafOf y).generation ≤ (mt.leafOf y).generation) :
    OrderInv cfg { s with memtable := mt } where
  memtable := hok
  behind := fun r hr hthis => (h.behind r hr hthis).trans_le (hmono r.key)
  memtables := h.memtables
  ordered := h.ordered
  log_subset := h.log_subset
  log_nodup := h.log_nodup
  pending := h.pending
  apart := h.apart

omit [DecidableEq τ] in
private theorem OrderInv.record_after {s : InsertState τ K} (h : OrderInv cfg s) {x : K}
    {spec : LeafIncorporateSpec K}
    (hpast : ∀ r ∈ s.applied, r.key = x → r.memtable < s.generation →
      r.generation < counterFor cfg (s.memtable.leafOf x) spec)
    {r : LogRecord K} (hr : r ∈ s.applied) (hkey : r.key = x) :
    r.generation < counterFor cfg (s.memtable.leafOf x) spec := by
  rcases (h.memtables r hr).lt_or_eq with hearlier | hthis
  · exact hpast r hr hkey hearlier
  · have hbehind := h.behind r hr hthis
    rw [hkey] at hbehind
    exact hbehind.trans_le (le_counterFor cfg _ spec)

private theorem OrderInv.applied {s : InsertState τ K} (h : OrderInv cfg s) (t : τ) {x : K}
    {msg : Message} {spec : LeafIncorporateSpec K}
    (hpast : ∀ r ∈ s.applied, r.key = x → r.memtable < s.generation →
      r.generation < counterFor cfg (s.memtable.leafOf x) spec)
    {mt : LeafMemtable K}
    (hmt : Advances cfg x (counterFor cfg (s.memtable.leafOf x) spec) s.memtable mt) :
    let record : LogRecord K :=
      ⟨x, msg, counterFor cfg (s.memtable.leafOf x) spec, s.generation⟩
    OrderInv cfg { s.goto t (.logging record) with
      memtable := mt, applied := s.applied ++ [record] } := by
  have hafter : ∀ {r : LogRecord K}, r ∈ s.applied → r.key = x →
      r.generation < counterFor cfg (s.memtable.leafOf x) spec := h.record_after hpast
  generalize counterFor cfg (s.memtable.leafOf x) spec = counter at *
  intro record
  have hfresh : record ∉ s.applied := fun hr => (hafter hr rfl).ne rfl
  have hold : ∀ {t' : τ} {r : LogRecord K},
      Function.update s.thread t (.logging record) t' = .logging r →
        (t' = t ∧ r = record) ∨ (t' ≠ t ∧ s.thread t' = .logging r) := by
    intro t' r hr
    rcases eq_or_ne t' t with rfl | hne
    · rw [Function.update_self] at hr
      exact Or.inl ⟨rfl, (InsertPc.logging.inj hr).symm⟩
    · rw [Function.update_of_ne hne] at hr
      exact Or.inr ⟨hne, hr⟩
  exact
    { memtable := hmt.ok
      behind := fun r hr hthis => by
        rcases List.mem_append.mp hr with hr | hr
        · exact (h.behind r hr hthis).trans_le (hmt.mono r.key)
        · obtain rfl := List.mem_singleton.mp hr
          exact hmt.own
      memtables := fun r hr => by
        rcases List.mem_append.mp hr with hr | hr
        · exact h.memtables r hr
        · obtain rfl := List.mem_singleton.mp hr
          exact le_refl _
      ordered := List.pairwise_append.mpr
        ⟨h.ordered, List.pairwise_singleton _ _, fun a ha b hb hkey => by
          obtain rfl := List.mem_singleton.mp hb
          exact hafter ha hkey⟩
      log_subset := fun r hr => List.mem_append_left _ (h.log_subset r hr)
      log_nodup := h.log_nodup
      pending := fun t' r hr => by
        rcases hold hr with ⟨-, rfl⟩ | ⟨-, hr⟩
        · exact ⟨List.mem_append_right _ (List.mem_singleton_self _),
            fun hlog => hfresh (h.log_subset _ hlog)⟩
        · obtain ⟨hmem, hlog⟩ := h.pending t' r hr
          exact ⟨List.mem_append_left _ hmem, hlog⟩
      apart := fun t₁ t₂ r h₁ h₂ => by
        rcases hold h₁ with ⟨ht₁, hr₁⟩ | ⟨-, hold₁⟩
        · rcases hold h₂ with ⟨ht₂, -⟩ | ⟨-, hold₂⟩
          · exact ht₁.trans ht₂.symm
          · exact absurd (hr₁ ▸ (h.pending t₂ r hold₂).1) hfresh
        · rcases hold h₂ with ⟨-, hr₂⟩ | ⟨-, hold₂⟩
          · exact absurd (hr₂ ▸ (h.pending t₁ r hold₁).1) hfresh
          · exact h.apart t₁ t₂ r hold₁ hold₂ }

private theorem OrderInv.logged {s : InsertState τ K} (h : OrderInv cfg s) {t : τ}
    {record : LogRecord K} (ht : s.thread t = .logging record) :
    OrderInv cfg { s.goto t .unlocking with log := s.log ++ [record] } := by
  obtain ⟨hmem, hlog⟩ := h.pending t record ht
  have hgoto : OrderInv cfg (s.goto t .unlocking) := h.goto t fun r hr => by cases hr
  exact
    { memtable := h.memtable
      behind := h.behind
      memtables := h.memtables
      ordered := h.ordered
      log_subset := fun r hr => by
        rcases List.mem_append.mp hr with hr | hr
        · exact h.log_subset r hr
        · obtain rfl := List.mem_singleton.mp hr
          exact hmem
      log_nodup := List.nodup_append.mpr ⟨h.log_nodup, List.nodup_singleton _, fun a ha b hb => by
        obtain rfl := List.mem_singleton.mp hb
        exact fun hab => hlog (hab ▸ ha)⟩
      pending := fun t' r hr => by
        obtain ⟨hmem', hlog'⟩ := hgoto.pending t' r hr
        refine ⟨hmem', fun hin => ?_⟩
        rcases List.mem_append.mp hin with hin | hin
        · exact hlog' hin
        · obtain rfl := List.mem_singleton.mp hin
          rcases eq_or_ne t' t with rfl | hne
          · simp only [InsertState.goto, Function.update_self] at hr
            cases hr
          · simp only [InsertState.goto, Function.update_of_ne hne] at hr
            exact hne (h.apart t' t r hr ht)
      apart := hgoto.apart }

variable [Fintype τ]

theorem OrderInv.step {s s' : InsertState τ K} {a : InsertAct τ K} (h : OrderInv cfg s)
    (hguard : PastEarlier cfg s a) (hstep : insertNext cfg s a = some s') : OrderInv cfg s' := by
  cases a with
  | begin t =>
      obtain ⟨-, hsome⟩ := Option.ite_none_right_eq_some.mp hstep
      obtain rfl := Option.some.inj hsome
      exact h.goto t fun r hr => by cases hr
  | rotate t =>
      obtain ⟨-, hsome⟩ := Option.ite_none_right_eq_some.mp hstep
      obtain rfl := Option.some.inj hsome
      have hgoto : OrderInv cfg (s.goto t .idle) := h.goto t fun r hr => by cases hr
      exact
        { memtable := memtableOk_create cfg
          behind := fun r hr hthis => absurd hthis (Nat.lt_succ_of_le (h.memtables r hr)).ne
          memtables := fun r hr => (h.memtables r hr).trans (Nat.le_succ _)
          ordered := h.ordered
          log_subset := h.log_subset
          log_nodup := h.log_nodup
          pending := hgoto.pending
          apart := hgoto.apart }
  | insert t x msg env =>
      obtain ⟨-, hstep⟩ := Option.ite_none_right_eq_some.mp hstep
      obtain ⟨r, hr, rfl⟩ := Option.map_eq_some_iff.mp hstep
      rcases btreeInsert_ok h.memtable hr with ⟨rc, -, hrc, hmt⟩ | ⟨spec, hspec, hgen, hmt⟩
      · rw [hrc, hmt]
        have hkeep : OrderInv cfg { s with memtable := s.memtable.takeExtents env.newExtents } :=
          h.withMemtable ⟨h.memtable.leaves, h.memtable.routed⟩ fun y => le_refl _
        exact hkeep.goto t fun r hr => by cases hr
      · rw [hgen]
        exact h.applied t (hguard spec hspec) hmt
  | logWrite t success =>
      rw [insertNext] at hstep
      split at hstep
      next record ht =>
        obtain rfl := Option.some.inj hstep
        cases success with
        | false => exact h.goto t fun r hr => by cases hr
        | true => exact h.logged ht
      next => cases hstep
  | endInsert t =>
      obtain ⟨-, hsome⟩ := Option.ite_none_right_eq_some.mp hstep
      obtain rfl := Option.some.inj hsome
      exact h.goto t fun r hr => by cases hr

private theorem OrderInv.lost {s s' : InsertState τ K} {a : InsertAct τ K} (h : OrderInv cfg s)
    (hguard : ¬ PastEarlier cfg s a) (hstep : insertNext cfg s a = some s') : ¬ LogOrdered s' := by
  cases a with
  | insert t x msg env =>
      obtain ⟨-, hstep⟩ := Option.ite_none_right_eq_some.mp hstep
      obtain ⟨r, hr, rfl⟩ := Option.map_eq_some_iff.mp hstep
      simp only [PastEarlier, not_forall, not_lt] at hguard
      obtain ⟨spec, hspec, old, hold, hkey, -, hle⟩ := hguard
      rcases btreeInsert_ok h.memtable hr with ⟨rc, herror, -⟩ | ⟨spec', hspec', hgen, -⟩
      · rw [hspec] at herror
        cases herror
      · obtain rfl := Except.ok.inj (hspec.symm.trans hspec')
        rw [hgen]
        intro hordered
        have hlast := (List.pairwise_append.mp hordered).2.2 old hold _ (List.mem_singleton_self _)
        exact (hlast hkey).not_ge hle
  | begin t => exact absurd trivial hguard
  | rotate t => exact absurd trivial hguard
  | logWrite t success => exact absurd trivial hguard
  | endInsert t => exact absurd trivial hguard

/-! ## Replay -/

omit [Fintype τ] [DecidableEq τ] in
theorem OrderInv.replay_filter {s : InsertState τ K} (h : OrderInv cfg s)
    {replay : List (LogRecord K)} (hperm : replay.Perm s.log)
    (hsorted : replay.Pairwise fun a b => a.generation ≤ b.generation) (x : K) :
    replay.filter (fun r => r.key = x) =
      (s.applied.filter fun r => r ∈ s.log).filter fun r => r.key = x := by
  have happlied : s.applied.Nodup := h.ordered.imp fun {a b} hlt hab =>
    (hlt (congrArg LogRecord.key hab)).ne (congrArg LogRecord.generation hab)
  have hlog : s.log.Perm (s.applied.filter fun r => r ∈ s.log) := by
    refine (List.perm_ext_iff_of_nodup h.log_nodup (happlied.filter _)).mpr fun r => ?_
    rw [List.mem_filter, decide_eq_true_eq]
    exact ⟨fun hr => ⟨h.log_subset r hr, hr⟩, fun hr => hr.2⟩
  have hordered : ((s.applied.filter fun r => r ∈ s.log).filter fun r => r.key = x).Pairwise
      fun a b => a.generation < b.generation := by
    refine ((h.ordered.sublist List.filter_sublist).sublist List.filter_sublist).imp_of_mem
      fun {a b} ha hb hlt => hlt ?_
    rw [decide_eq_true_eq.mp (List.mem_filter.mp ha).2,
      decide_eq_true_eq.mp (List.mem_filter.mp hb).2]
  have hsame := (hperm.trans hlog).filter fun r => decide (r.key = x)
  have hle : ((s.applied.filter fun r => r ∈ s.log).filter fun r => r.key = x).Pairwise
      fun a b => a.generation ≤ b.generation := hordered.imp fun hlt => hlt.le
  refine hsame.eq_of_pairwise ?_ (hsorted.sublist List.filter_sublist) hle
  intro a b ha hb hle hge
  refine List.inj_on_of_nodup_map (f := LogRecord.generation) ?_ (hsame.mem_iff.mp ha) hb
    (le_antisymm hle hge)
  exact List.pairwise_map.mpr (hordered.imp fun hlt => hlt.ne)

omit [Fintype τ] [DecidableEq τ] in
theorem OrderInv.replayAgrees {s : InsertState τ K} (h : OrderInv cfg s) : ReplayAgrees cfg s := by
  intro replay hperm hsorted x
  rw [rebuilt, h.replay_filter hperm hsorted, rebuilt]

private def smallMemtables : InsertConfig Nat where
  btree := ⟨4096, fun _ => 8⟩
  merge := fun _ _ msg => some msg
  maxExtentsPerMemtable := 10
  hdr_le := by decide

private def oneInsertion (x : Nat) (data : List UInt8) (newExtents : Nat) :
    List (InsertAct Unit Nat) :=
  [.begin (), .insert () x ⟨.insert, data⟩ ⟨true, 0, 4096, newExtents⟩, .logWrite () true,
    .endInsert ()]

/-- A key twice, two other keys, a third that splits the leaf, and the first key again. -/
private def refilled : List (InsertAct Unit Nat) :=
  oneInsertion 7 [1] 0 ++ oneInsertion 7 [2] 0 ++ oneInsertion 8 (List.replicate 1400 0) 0 ++
    oneInsertion 9 (List.replicate 1400 0) 0 ++ oneInsertion 10 (List.replicate 1400 0) 1 ++
    .rotate () :: oneInsertion 7 [3] 0

/-- The last record of a key has a generation not after an earlier one, and the records in the order
of the generations rebuild another message. -/
private def outOfOrder (s : InsertState Unit Nat) : Bool :=
  !decide (s.applied.Pairwise fun a b => a.key = b.key → a.generation < b.generation) &&
    decide (rebuilt smallMemtables 7
      (s.log.insertionSort fun a b => a.generation ≤ b.generation) ≠
        rebuilt smallMemtables 7 (s.applied.filter fun r => r ∈ s.log))

private theorem exec_refilled :
    (exec (insertNext smallMemtables) (newInserts smallMemtables) refilled).map
      (fun run => outOfOrder run.2) = some true := by
  decide +kernel

end LogOrder
end Core
end TreePass
