import TreePass.Merge.Drain
import TreePass.Core.Lookup

/-!
# One key in a merge

A merge is made key by key.  Seen from one key, the output of a merge stands for the messages of the
inputs: in a full merge for their final value, with nothing older, and in every other merge for
their fold, whatever is newer or older.

* `keptMessage` is what a merge leaves of a key.
* `mergeSpec_at`: the merge leaves it, and nothing else.
* `finalFold_of_final` and `finalFold_of_fold`: a lookup does not notice the merge.
* `mergeSpec_congr`: neither does a scan.
-/

namespace TreePass
namespace Trunk

open Lib Merge TreePass.Core

variable {K : Type} {cfg : DataConfig K} {k : K}

/-! ## The final value of a key -/

def absent : Message := ⟨.delete, []⟩

theorem isUserMessage_absent : isUserMessage absent := Or.inr (Or.inr rfl)

theorem normalize_mergeFinal (result : Option Message) :
    (mergeFinal cfg k result).map Core.normalize =
      (combine (mergeOp cfg k) result (some absent)).map Core.normalize := by
  cases result with
  | none => rfl
  | some m =>
      rw [mergeFinal, combine_some_some, mergeOp, DataConfig.dataMergeTuples,
        DataConfig.dataMergeTuplesFinal]
      by_cases hdef : m.isDefinitive = true
      · rw [if_pos hdef, if_pos hdef]
        rfl
      · have habsent : absent.type = .delete := rfl
        rw [if_neg hdef, if_neg hdef, if_neg hdef, if_pos habsent]

theorem finalFold_eq_absent (hmerge : MergeAssoc cfg) {msgs : List Message}
    (hmsgs : ∀ m ∈ msgs, isUserMessage m) :
    finalFold cfg k msgs = (foldAll (mergeOp cfg k) (msgs ++ [absent])).map Core.normalize := by
  obtain ⟨result, hresult, -⟩ := foldAll_total (hmerge k) hmsgs
  have habsent : ∀ m ∈ [absent], isUserMessage m := fun m hm =>
    List.mem_singleton.mp hm ▸ isUserMessage_absent
  rw [foldAll_append_of (hmerge k) hmsgs habsent hresult (foldAll_singleton _), finalFold, hresult,
    Option.bind_some, normalize_mergeFinal]

theorem combine_of_delete (acc : Option Message) {m m' : Message} (hm : m.type = .delete)
    (hm' : m'.type = .delete) :
    (combine (mergeOp cfg k) acc (some m)).map Core.normalize =
      (combine (mergeOp cfg k) acc (some m')).map Core.normalize := by
  cases acc with
  | none => simp [Core.normalize, hm, hm']
  | some a => simp [mergeOp, DataConfig.dataMergeTuples, hm, hm']

theorem finalFold_of_final (hmerge : MergeAssoc cfg) {newer msgs : List Message}
    (hnewer : ∀ m ∈ newer, isUserMessage m) (hmsgs : ∀ m ∈ msgs, isUserMessage m)
    {kept : Option Message} (hkept : finalFold cfg k msgs = some kept) :
    finalFold cfg k (newer ++ msgs) = finalFold cfg k (newer ++ kept.toList) ∧
      AllSome isUserMessage kept := by
  have habsent : ∀ m ∈ [absent], isUserMessage m := fun m hm =>
    List.mem_singleton.mp hm ▸ isUserMessage_absent
  have hall : ∀ m ∈ msgs ++ [absent], isUserMessage m := fun m hm =>
    (List.mem_append.mp hm).elim (hmsgs m) (habsent m)
  obtain ⟨acc, hacc, -⟩ := foldAll_total (hmerge k) hnewer
  obtain ⟨value, hvalue, huser⟩ := foldAll_total (hmerge k) hall
  obtain ⟨result, hresult, hresultUser⟩ := foldAll_total (hmerge k) hmsgs
  -- over a delete there is always something
  obtain ⟨m, rfl⟩ : ∃ m, value = some m := by
    rw [foldAll_append_of (hmerge k) hmsgs habsent hresult (foldAll_singleton _)] at hvalue
    cases result with
    | none => exact ⟨absent, (Option.some.inj hvalue).symm⟩
    | some r =>
        obtain ⟨m, -, hm⟩ := Option.map_eq_some_iff.mp hvalue
        exact ⟨m, hm.symm⟩
  have hm : isUserMessage m := huser m rfl
  rw [finalFold_eq_absent hmerge hmsgs, hvalue, Option.map_some, Option.some.injEq] at hkept
  have hnewerAll : ∀ m ∈ newer ++ msgs, isUserMessage m := fun m hm =>
    (List.mem_append.mp hm).elim (hnewer m) (hmsgs m)
  have hleft : finalFold cfg k (newer ++ msgs) =
      (combine (mergeOp cfg k) acc (some m)).map Core.normalize := by
    rw [finalFold_eq_absent hmerge hnewerAll, List.append_assoc,
      foldAll_append_of (hmerge k) hnewer hall hacc hvalue]
  by_cases hdel : m.type = .delete
  · have hnone : kept = none := by rw [← hkept, Core.normalize, if_pos hdel]
    subst hnone
    refine ⟨?_, allSome_none⟩
    rw [hleft, Option.toList_none, List.append_nil, finalFold_eq_absent hmerge hnewer,
      foldAll_append_of (hmerge k) hnewer habsent hacc (foldAll_singleton _)]
    exact combine_of_delete acc hdel rfl
  · have hsome : kept = some m := by rw [← hkept, Core.normalize, if_neg hdel]
    subst hsome
    refine ⟨?_, allSome_some.mpr hm⟩
    have hsingle : ∀ x ∈ [m], isUserMessage x := fun x hx => List.mem_singleton.mp hx ▸ hm
    -- the value has been taken over a delete, and once more changes nothing
    have htwice : foldAll (mergeOp cfg k) ([m] ++ [absent]) = some (some m) := by
      have hagain : foldAll (mergeOp cfg k) (msgs ++ [absent] ++ [absent]) =
          foldAll (mergeOp cfg k) (msgs ++ [absent]) := by
        have hself : foldAll (mergeOp cfg k) ([absent] ++ [absent]) = foldAll (mergeOp cfg k) [absent] :=
          rfl
        rw [List.append_assoc, foldAll_append (hmerge k) hmsgs
          (fun m hm => (List.mem_append.mp hm).elim (habsent m) (habsent m)),
          foldAll_append (hmerge k) hmsgs habsent, hself]
      rw [foldAll_append_of (hmerge k) hall habsent hvalue (foldAll_singleton _), hvalue] at hagain
      rw [foldAll_append_of (hmerge k) hsingle habsent (foldAll_singleton _) (foldAll_singleton _)]
      exact hagain
    have hboth : ∀ x ∈ [m] ++ [absent], isUserMessage x := fun x hx =>
      (List.mem_append.mp hx).elim (hsingle x) (habsent x)
    rw [hleft, Option.toList_some, finalFold_eq_absent hmerge (fun x hx =>
      (List.mem_append.mp hx).elim (hnewer x) (hsingle x)), List.append_assoc,
      foldAll_append_of (hmerge k) hnewer hboth hacc htwice]

theorem finalFold_of_fold (hmerge : MergeAssoc cfg) {newer msgs msgs' older : List Message}
    (hnewer : ∀ m ∈ newer, isUserMessage m) (hmsgs : ∀ m ∈ msgs, isUserMessage m)
    (hmsgs' : ∀ m ∈ msgs', isUserMessage m) (holder : ∀ m ∈ older, isUserMessage m)
    (hfold : foldAll (mergeOp cfg k) msgs = foldAll (mergeOp cfg k) msgs') :
    finalFold cfg k (newer ++ msgs ++ older) = finalFold cfg k (newer ++ msgs' ++ older) := by
  have hcut : ∀ msgs₁ : List Message, (∀ m ∈ msgs₁, isUserMessage m) →
      foldAll (mergeOp cfg k) (newer ++ msgs₁ ++ older) =
        (foldAll (mergeOp cfg k) newer).bind fun a =>
          (foldAll (mergeOp cfg k) msgs₁).bind fun b =>
            (combine (mergeOp cfg k) a b).bind fun ab =>
              (foldAll (mergeOp cfg k) older).bind fun c => combine (mergeOp cfg k) ab c := by
    intro msgs₁ hmsgs₁
    rw [foldAll_append (hmerge k) (fun m hm => (List.mem_append.mp hm).elim (hnewer m) (hmsgs₁ m))
      holder, foldAll_append (hmerge k) hnewer hmsgs₁, Option.bind_assoc]
    refine congrArg _ (funext fun a => ?_)
    rw [Option.bind_assoc]
  rw [finalFold, finalFold, hcut msgs hmsgs, hcut msgs' hmsgs', hfold]

/-! ## What a merge leaves of a key -/

section Merges

variable [LinearOrder K] {full forwards : Bool}

/-- What a merge leaves of a key with the messages `msgs`, newest first. -/
def keptMessage (cfg : DataConfig K) (full : Bool) (k : K) (msgs : List Message) :
    Option (Option Message) :=
  match msgs with
  | [] => some none
  | newest :: older =>
      (mergedMessage cfg full k (newest :: older)).map fun m =>
        if isDropped full m then none else some m

def messageIn (tuples : List (Tuple K)) (k : K) : Option Message :=
  (tuples.find? fun t => t.key = k).map (·.msg)

omit [LinearOrder K] in
theorem foldAll_mergeOp (cfg : DataConfig K) (k : K) (newest : Message) (older : List Message) :
    foldAll (mergeOp cfg k) (newest :: older) = (cfg.foldUnder k newest older).map some := by
  have hfrom : ∀ newest, older.foldlM (fun acc x => combine (mergeOp cfg k) acc (some x))
      (some newest) = (cfg.foldUnder k newest older).map some := by
    induction older with
    | nil => intro newest; rfl
    | cons old older ih =>
        intro newest
        rw [List.foldlM_cons, combine_some_some, DataConfig.foldUnder_cons, mergeOp]
        cases cfg.dataMergeTuples k old newest with
        | none => rfl
        | some m => exact ih m
  exact hfrom newest

omit [LinearOrder K] in
theorem keptMessage_true (msgs : List Message) :
    keptMessage cfg true k msgs = finalFold cfg k msgs := by
  cases msgs with
  | nil => rfl
  | cons newest older =>
      rw [keptMessage, mergedMessage, finalFold, foldAll_mergeOp]
      cases cfg.foldUnder k newest older with
      | none => rfl
      | some m =>
          have hnormalize : ∀ x : Message, (if isDropped true x then none else some x) =
              Core.normalize (some x) := by
            intro x
            by_cases hdel : x.type = .delete <;> simp [isDropped, Core.normalize, hdel]
          simp only [hnormalize, Option.bind_some, Option.map_some, mergeFinal]
          by_cases hdef : m.isDefinitive = true
          · have hfinal : cfg.dataMergeTuplesFinal k m = some m := if_pos hdef
            rw [if_pos hdef, hfinal, ite_self]
            rfl
          · have hinsert : m.type ≠ .insert := fun heq => hdef (by simp [Message.isDefinitive, heq])
            rw [if_neg hdef, if_pos ⟨hinsert, trivial⟩, Option.map_map]
            rfl

omit [LinearOrder K] in
theorem keptMessage_false (msgs : List Message) :
    keptMessage cfg false k msgs = foldAll (mergeOp cfg k) msgs := by
  cases msgs with
  | nil => rfl
  | cons newest older =>
      rw [keptMessage, mergedMessage, foldAll_mergeOp]
      cases cfg.foldUnder k newest older with
      | none => rfl
      | some m => simp [isDropped]

omit [LinearOrder K] in
theorem mergeKeys_eq_some {keys : List K} {messages : K → List Message} {out : List (Tuple K)}
    (hout : mergeKeys cfg full keys messages = some out) :
    (∀ k ∈ keys, ∃ m, mergedMessage cfg full k (messages k) = some m) ∧
      out = keys.filterMap fun k => (mergedMessage cfg full k (messages k)).bind fun m =>
        if isDropped full m then none else some ⟨k, m⟩ := by
  induction keys generalizing out with
  | nil =>
      obtain rfl : [] = out := by simpa [mergeKeys] using hout
      exact ⟨fun k hk => absurd hk List.not_mem_nil, rfl⟩
  | cons key keys ih =>
      simp only [mergeKeys, List.mapM_cons, Option.pure_def, Option.bind_eq_bind,
        Option.bind_eq_some_iff, Option.map_eq_some_iff, Option.some.injEq] at hout ih
      obtain ⟨merged, ⟨t, ⟨m, hm, rfl⟩, rest, hrest, rfl⟩, rfl⟩ := hout
      obtain ⟨hall, hfilter⟩ := ih ⟨rest, hrest, rfl⟩
      refine ⟨fun k hk => ?_, ?_⟩
      · rcases List.mem_cons.mp hk with rfl | hk
        · exact ⟨m, hm⟩
        · exact hall k hk
      · rw [List.filterMap_cons, hm, Option.bind_some, ← hfilter]
        by_cases hdrop : isDropped full m = true
        · rw [List.filter_cons_of_neg (by simpa using hdrop), if_pos hdrop]
        · rw [List.filter_cons_of_pos (by simpa using hdrop), if_neg hdrop]

omit [LinearOrder K] in
theorem mergeKeys_total {keys : List K} {messages : K → List Message}
    (h : ∀ k ∈ keys, (mergedMessage cfg full k (messages k)).isSome = true) :
    ∃ out, mergeKeys cfg full keys messages = some out := by
  have hmapM : ∃ merged, (keys.mapM fun k =>
      (mergedMessage cfg full k (messages k)).map (Tuple.mk k)) = some merged := by
    induction keys with
    | nil => exact ⟨[], rfl⟩
    | cons key keys ih =>
        obtain ⟨m, hm⟩ := Option.isSome_iff_exists.mp (h key List.mem_cons_self)
        obtain ⟨rest, hrest⟩ := ih fun k hk => h k (List.mem_cons_of_mem _ hk)
        refine ⟨⟨key, m⟩ :: rest, ?_⟩
        rw [List.mapM_cons, hm, hrest]
        rfl
  obtain ⟨merged, hmerged⟩ := hmapM
  exact ⟨_, by rw [mergeKeys, hmerged]; rfl⟩

theorem find_filterMap {keys : List K} (hnodup : keys.Nodup) {g : K → Option (Tuple K)}
    (hg : ∀ k t, g k = some t → t.key = k) (k : K) :
    (keys.filterMap g).find? (fun t => t.key = k) = if k ∈ keys then g k else none := by
  induction keys with
  | nil => rfl
  | cons key keys ih =>
      obtain ⟨hnot, hnodup⟩ := List.nodup_cons.mp hnodup
      have ih := ih hnodup
      by_cases hk : k = key
      · subst hk
        rw [if_neg hnot] at ih
        rw [if_pos List.mem_cons_self, List.filterMap_cons]
        cases hgk : g k with
        | none => exact ih
        | some t => rw [List.find?_cons_of_pos (by simpa using hg k t hgk)]
      · have hmem : k ∈ key :: keys ↔ k ∈ keys := by simp [hk]
        rw [List.filterMap_cons, if_congr hmem rfl rfl]
        cases hgk : g key with
        | none => exact ih
        | some t =>
            have hne : ¬ t.key = k := fun heq => hk (heq.symm.trans (hg key t hgk))
            exact (List.find?_cons_of_neg (by simpa using hne)).trans ih

theorem messagesFor_eq_nil {inputs : List (Cursor (Tuple K))} :
    messagesFor forwards inputs k = [] ↔ k ∉ inputKeys forwards inputs := by
  rw [messagesFor, List.filterMap_eq_nil_iff, inputKeys, List.mem_flatMap]
  simp only [List.mem_reverse, Option.map_eq_none_iff, List.find?_eq_none, List.mem_map, not_exists,
    not_and, decide_eq_true_eq]

theorem mergeSpec_at {inputs : List (Cursor (Tuple K))} {out : List (Tuple K)}
    (hout : mergeSpec cfg full forwards inputs = some out) (k : K) :
    keptMessage cfg full k (messagesFor forwards inputs k) = some (messageIn out k) := by
  obtain ⟨hall, heq⟩ := mergeKeys_eq_some hout
  have hkeys : (keysInOrder forwards (inputKeys forwards inputs)).Pairwise (keyLt forwards) :=
    keysInOrder_sorted _
  have hnodup : (keysInOrder forwards (inputKeys forwards inputs)).Nodup := hkeys.imp keyLt_ne
  have hfind := find_filterMap hnodup (g := fun k =>
    (mergedMessage cfg full k (messagesFor forwards inputs k)).bind fun m =>
      if isDropped full m then none else some ⟨k, m⟩) (fun k t ht => by
        obtain ⟨m, -, hm⟩ := Option.bind_eq_some_iff.mp ht
        split at hm
        · cases hm
        · rw [← Option.some.inj hm]) k
  rw [messageIn, heq, hfind]
  by_cases hk : k ∈ keysInOrder forwards (inputKeys forwards inputs)
  · obtain ⟨m, hm⟩ := hall k hk
    obtain ⟨newest, older, hmsgs⟩ := List.exists_cons_of_ne_nil
      (mt messagesFor_eq_nil.mp (not_not.mpr (mem_keysInOrder.mp hk)))
    rw [if_pos hk, hmsgs, keptMessage]
    rw [hmsgs] at hm
    rw [hm, Option.map_some, Option.bind_some]
    split <;> rfl
  · rw [if_neg hk, messagesFor_eq_nil.mpr fun hin => hk (mem_keysInOrder.mpr hin)]
    rfl

theorem mergeSpec_sorted {inputs : List (Cursor (Tuple K))} {out : List (Tuple K)}
    (hout : mergeSpec cfg full forwards inputs = some out) :
    out.Pairwise fun a b => keyLt forwards a.key b.key := by
  obtain ⟨-, heq⟩ := mergeKeys_eq_some hout
  have hkeys : (keysInOrder forwards (inputKeys forwards inputs)).Pairwise (keyLt forwards) :=
    keysInOrder_sorted _
  rw [heq, List.pairwise_filterMap]
  refine hkeys.imp ?_
  intro a b hab t ht u hu
  obtain ⟨m, -, hm⟩ := Option.bind_eq_some_iff.mp ht
  obtain ⟨m', -, hm'⟩ := Option.bind_eq_some_iff.mp hu
  split at hm
  · cases hm
  · split at hm'
    · cases hm'
    · rw [← Option.some.inj hm, ← Option.some.inj hm']
      exact hab

theorem eq_of_messageIn {out out' : List (Tuple K)}
    (hsorted : out.Pairwise fun a b => keyLt forwards a.key b.key)
    (hsorted' : out'.Pairwise fun a b => keyLt forwards a.key b.key)
    (h : ∀ k, messageIn out k = messageIn out' k) : out = out' := by
  have hmem : ∀ {l : List (Tuple K)}, (l.Pairwise fun a b => keyLt forwards a.key b.key) → ∀ t,
      t ∈ l ↔ messageIn l t.key = some t.msg := by
    intro l hl t
    rw [messageIn, Option.map_eq_some_iff]
    constructor
    · intro ht
      exact ⟨t, (find_key_eq_some_iff hl).mpr ⟨ht, rfl⟩, rfl⟩
    · rintro ⟨u, hu, hmsg⟩
      have hkey : u.key = t.key := by simpa using List.find?_some hu
      have heq : u = t := by
        cases u
        cases t
        simp_all
      exact heq ▸ List.mem_of_find?_eq_some hu
  have hirrefl : ∀ x y : Tuple K, keyLt forwards x.key y.key → x ≠ y := by
    rintro x y hxy rfl
    exact keyLt_irrefl _ hxy
  have hperm : out.Perm out' :=
    (List.perm_ext_iff_of_nodup (hsorted.imp fun h => hirrefl _ _ h)
      (hsorted'.imp fun h => hirrefl _ _ h)).mpr fun t => by rw [hmem hsorted, hmem hsorted', h]
  exact hperm.eq_of_pairwise
    (fun a b _ _ hab hba => absurd (keyLt_trans hab hba) (keyLt_irrefl _)) hsorted hsorted'

omit [LinearOrder K] in
theorem finalFold_total (hmerge : MergeAssoc cfg) {msgs : List Message}
    (hmsgs : ∀ m ∈ msgs, isUserMessage m) : ∃ kept, finalFold cfg k msgs = some kept := by
  have hall : ∀ m ∈ msgs ++ [absent], isUserMessage m := fun m hm =>
    (List.mem_append.mp hm).elim (hmsgs m) fun hm => List.mem_singleton.mp hm ▸ isUserMessage_absent
  obtain ⟨value, hvalue, -⟩ := foldAll_total (hmerge k) hall
  exact ⟨Core.normalize value, by rw [finalFold_eq_absent hmerge hmsgs, hvalue, Option.map_some]⟩

theorem mergeSpec_congr (hmerge : MergeAssoc cfg) {inputs inputs' : List (Cursor (Tuple K))}
    (huser : ∀ k, ∀ m ∈ messagesFor forwards inputs k, isUserMessage m)
    (huser' : ∀ k, ∀ m ∈ messagesFor forwards inputs' k, isUserMessage m)
    (h : ∀ k, finalFold cfg k (messagesFor forwards inputs k) =
      finalFold cfg k (messagesFor forwards inputs' k)) :
    mergeSpec cfg true forwards inputs = mergeSpec cfg true forwards inputs' := by
  have htotal : ∀ inputs : List (Cursor (Tuple K)),
      (∀ k, ∀ m ∈ messagesFor forwards inputs k, isUserMessage m) →
        ∃ out, mergeSpec cfg true forwards inputs = some out := by
    intro inputs huser
    refine mergeKeys_total fun k hk => ?_
    obtain ⟨kept, hkept⟩ := finalFold_total (k := k) hmerge (huser k)
    rw [← keptMessage_true] at hkept
    cases hmsgs : messagesFor forwards inputs k with
    | nil => exact absurd (mem_keysInOrder.mp hk) (messagesFor_eq_nil.mp hmsgs)
    | cons newest older =>
        rw [hmsgs, keptMessage] at hkept
        obtain ⟨m, hm, -⟩ := Option.map_eq_some_iff.mp hkept
        rw [hm]
        rfl
  obtain ⟨out, hout⟩ := htotal inputs huser
  obtain ⟨out', hout'⟩ := htotal inputs' huser'
  rw [hout, hout', eq_of_messageIn (mergeSpec_sorted hout) (mergeSpec_sorted hout') fun k => ?_]
  have hkept := mergeSpec_at hout k
  have hkept' := mergeSpec_at hout' k
  rw [keptMessage_true] at hkept hkept'
  exact Option.some.inj (hkept.symm.trans ((h k).trans hkept'))

end Merges

end Trunk
end TreePass
