import Ripple.Consensus.Basic

/-!
# Ripple.Consensus.Votes

The disputes of a result, apart from the rest of the state.

* `DisputedTx.Tallied`: the counters of a dispute count its votes.
* `Recorded n`: if we have the set of node `n`, it was compared with ours and its votes are known.

`createDisputes` and `updateDisputes` keep the first; the second is what they establish.
-/

namespace Ripple

open AList
open TxSet (has ID Tx TxID txId)

namespace DisputedTx

variable {NodeID Tx : Type} [DecidableEq NodeID] (d : DisputedTx NodeID Tx) (n m : NodeID)

def Tallied (d : DisputedTx NodeID Tx) : Prop :=
  d.yays_ = d.votes_.values.count true ∧ d.nays_ = d.votes_.values.count false

theorem lookup_setVote (v : Bool) :
    (d.setVote n v).votes_.lookup m = if m = n then some v else d.votes_.lookup m := by
  rw [setVote]
  cases hl : d.votes_.lookup n with
  | none =>
    cases v with
    | true | false => exact lookup_insert_ite _ _ _ _
  | some old =>
    have hsame : d.votes_.lookup m = if m = n then some old else d.votes_.lookup m := by
      split
      · rename_i hm
        rw [hm, hl]
      · rfl
    cases v with
    | true =>
      cases old with
      | true => exact hsame
      | false => exact lookup_insert_ite _ _ _ _
    | false =>
      cases old with
      | true => exact lookup_insert_ite _ _ _ _
      | false => exact hsame

theorem lookup_unVote :
    (d.unVote n).votes_.lookup m = if m = n then none else d.votes_.lookup m := by
  rw [unVote]
  cases hl : d.votes_.lookup n with
  | none =>
    change d.votes_.lookup m = _
    split
    · rename_i hm
      rw [hm, hl]
    · rfl
  | some v =>
    cases v with
    | true | false => exact lookup_erase_ite _ _ _

variable {d}

theorem Tallied.setVote (h : d.Tallied) (v : Bool) : (d.setVote n v).Tallied := by
  obtain ⟨hy, hn⟩ := h
  rw [DisputedTx.setVote]
  cases hl : d.votes_.lookup n with
  | none =>
    have hmem : n ∉ d.votes_ := by
      rw [← lookup_eq_none]
      exact hl
    cases v with
    | true | false => simp [Tallied, values_insert_of_notMem _ hmem, hy, hn]
  | some old =>
    have hv := values_erase hl
    rw [hv] at hy hn
    cases v with
    | true =>
      cases old with
      | true => simp [Tallied, hv, hy, hn]
      | false => simp_all [Tallied, values_insert]
    | false =>
      cases old with
      | true => simp_all [Tallied, values_insert]
      | false => simp [Tallied, hv, hy, hn]

theorem Tallied.unVote (h : d.Tallied) : (d.unVote n).Tallied := by
  obtain ⟨hy, hn⟩ := h
  rw [DisputedTx.unVote]
  cases hl : d.votes_.lookup n with
  | none => exact ⟨hy, hn⟩
  | some old =>
    have hv := values_erase hl
    rw [hv] at hy hn
    cases old with
    | true | false => simp_all [Tallied]

theorem setVote_frame (v : Bool) : (d.setVote n v).tx_ = d.tx_ ∧ (d.setVote n v).ourVote_ = d.ourVote_ := by
  rw [setVote]
  repeat' split
  all_goals exact ⟨rfl, rfl⟩

theorem unVote_frame : (d.unVote n).tx_ = d.tx_ ∧ (d.unVote n).ourVote_ = d.ourVote_ := by
  rw [unVote]
  split
  all_goals exact ⟨rfl, rfl⟩

end DisputedTx

namespace ConsensusResult

variable {NodeID LedgerID S : Type} [TxSet S] [DecidableEq NodeID]

section Extension

variable (peers : PeerPositions NodeID LedgerID S) (acquired : HashMap (ID S) S)

def peerVote (n : NodeID) (i : TxID S) : Option Bool :=
  (peers.lookup n).bind fun p => (acquired.lookup p.position_).map fun set => has set i

theorem foldl_setVote {l : List ((_ : NodeID) × ConsensusProposal NodeID LedgerID (ID S))}
    (hl : l.NodupKeys) (i : TxID S) (d : DisputedTx NodeID (Tx S)) (n : NodeID)
    (hd : n ∈ l.keys → d.votes_.lookup n = none) :
    (l.foldl (fun d e =>
      match acquired.lookup e.2.position_ with
      | some set => d.setVote e.1 (has set i)
      | none => d) d).votes_.lookup n =
      (((l.dlookup n).bind fun p => (acquired.lookup p.position_).map fun set => has set i).or
        (d.votes_.lookup n)) := by
  induction l generalizing d with
  | nil => rfl
  | cons e l ih =>
    obtain ⟨k, p⟩ := e
    rw [List.nodupKeys_cons] at hl
    rw [List.foldl_cons, ih hl.2]
    · by_cases hn : n = k
      · subst hn
        have hnone : l.dlookup n = none := List.dlookup_eq_none.mpr hl.1
        simp only [hnone, Option.bind_none, Option.none_or, List.dlookup_cons_eq, Option.bind_some]
        cases hset : acquired.lookup p.position_ with
        | none => rfl
        | some set => simp [DisputedTx.lookup_setVote]
      · rw [List.dlookup_cons_ne _ _ hn]
        congr 1
        cases hset : acquired.lookup p.position_ with
        | none => rfl
        | some set => simp [DisputedTx.lookup_setVote, hn]
    · intro hmem
      have hne : n ≠ k := by
        rintro rfl
        exact hl.1 hmem
      have hold := hd (by simp [hmem])
      cases hset : acquired.lookup p.position_ with
      | none => exact hold
      | some set => simpa [DisputedTx.lookup_setVote, hne] using hold

theorem lookup_makeDispute (v : Bool) (tx : Tx S) (n : NodeID) :
    (makeDispute peers acquired v tx).votes_.lookup n =
      peerVote peers acquired n (txId tx) :=
  (foldl_setVote acquired peers.nodupKeys (txId tx) _ n fun _ => rfl).trans Option.or_none

theorem makeDispute_spec (v : Bool) (tx : Tx S) : (makeDispute peers acquired v tx).tx_ = tx ∧
    (makeDispute peers acquired v tx).ourVote_ = v ∧ (makeDispute peers acquired v tx).Tallied := by
  refine List.foldlRecOn (motive := fun d : DisputedTx NodeID (Tx S) => d.tx_ = tx ∧ d.ourVote_ = v ∧ d.Tallied)
    _ _ ⟨rfl, rfl, rfl, rfl⟩ fun d hd e _ => ?_
  split
  · rename_i set _
    obtain ⟨htx, hour⟩ := DisputedTx.setVote_frame e.1 (d := d) (has set (txId tx))
    exact ⟨htx.trans hd.1, hour.trans hd.2.1, hd.2.2.setVote _ _⟩
  · exact hd

structure Extends (r r' : ConsensusResult NodeID LedgerID S) : Prop where
  txns : r'.txns = r.txns
  old : ∀ {i d}, r.disputes.lookup i = some d → r'.disputes.lookup i = some d
  fresh : ∀ {i d}, r'.disputes.lookup i = some d → r.disputes.lookup i = some d ∨
    ∃ tx, txId tx = i ∧ d = makeDispute peers acquired (has r.txns i) tx

variable {peers acquired} {r : ConsensusResult NodeID LedgerID S} {x : Sharing NodeID LedgerID S}

theorem Extends.mem {r' : ConsensusResult NodeID LedgerID S} (h : Extends peers acquired r r')
    {i : TxID S} (hi : i ∈ r.disputes) : i ∈ r'.disputes := by
  obtain ⟨d, hd⟩ := mem_iff_lookup.mp hi
  exact mem_iff_lookup.mpr ⟨d, h.old hd⟩

theorem addDispute_spec (o : S) (id : TxID S × Bool) (h : Extends peers acquired r x.1) :
    Extends peers acquired r (addDispute peers acquired o x id).1 ∧
      (addDispute peers acquired o x id).1.compares = x.1.compares := by
  simp only [addDispute]
  split
  · exact ⟨h, rfl⟩
  · rename_i tx htx
    split
    · exact ⟨h, rfl⟩
    · rename_i hnew
      refine ⟨⟨h.txns, ?_, ?_⟩, rfl⟩
      · intro i d hd
        change (x.1.disputes.insert _ _).lookup i = some d
        have hi : i ≠ txId tx := by
          rintro rfl
          exact hnew (mem_iff_lookup.mpr ⟨d, h.old hd⟩)
        rw [lookup_insert_ite, if_neg hi]
        exact h.old hd
      · intro i d hd
        change (x.1.disputes.insert _ _).lookup i = some d at hd
        rw [lookup_insert_ite] at hd
        split at hd
        · rename_i hi
          refine .inr ⟨tx, hi.symm, ?_⟩
          rw [hi, ← h.txns]
          exact (Option.some.inj hd).symm
        · exact h.fresh hd

theorem Extends.refl (r : ConsensusResult NodeID LedgerID S) : Extends peers acquired r r :=
  ⟨rfl, id, .inl⟩

theorem foldl_addDispute_spec (o : S) (l : List (TxID S × Bool)) (h : Extends peers acquired r x.1) :
    Extends peers acquired r (l.foldl (addDispute peers acquired o) x).1 ∧
      (l.foldl (addDispute peers acquired o) x).1.compares = x.1.compares := by
  refine List.foldlRecOn (motive := fun y : Sharing NodeID LedgerID S =>
    Extends peers acquired r y.1 ∧ y.1.compares = x.1.compares) _ _ ⟨h, rfl⟩ fun y hy id _ => ?_
  obtain ⟨hext, hsame⟩ := addDispute_spec o id hy.1
  exact ⟨hext, hsame.trans hy.2⟩

theorem addDispute_mem [LawfulTxSet S] {o : S} {id : TxID S × Bool}
    (hid : id ∈ TxSet.compare x.1.txns o) :
    id.1 ∈ (addDispute peers acquired o x id).1.disputes := by
  obtain ⟨i, b⟩ := id
  obtain ⟨hne, rfl⟩ := LawfulTxSet.mem_compare.mp hid
  obtain ⟨tx, htx⟩ : ∃ tx, (if has x.1.txns i then TxSet.find x.1.txns i
      else TxSet.find o i) = some tx := by
    split
    · rename_i h
      exact Option.isSome_iff_exists.mp h
    · rename_i h
      refine Option.isSome_iff_exists.mp (?_ : has o i = true)
      simp only [Bool.not_eq_true] at h
      rw [h] at hne
      simpa using hne.symm
  have hi : txId tx = i := by
    split at htx
    · exact LawfulTxSet.txId_find htx
    · exact LawfulTxSet.txId_find htx
  simp only [addDispute, htx, hi]
  split
  · assumption
  · exact (mem_insert _).mpr (.inl rfl)

theorem foldl_addDispute_mem [LawfulTxSet S] (o : S) {l : List (TxID S × Bool)}
    (hl : ∀ id ∈ l, id ∈ TxSet.compare x.1.txns o) :
    ∀ id ∈ l, id.1 ∈ (l.foldl (addDispute peers acquired o) x).1.disputes := by
  induction l generalizing x with
  | nil => nofun
  | cons id l ih =>
    have htxns : (addDispute peers acquired o x id).1.txns = x.1.txns :=
      (addDispute_spec o id (Extends.refl x.1)).1.txns
    intro id' hid'
    rcases List.mem_cons.mp hid' with rfl | hid'
    · exact (foldl_addDispute_spec o l (Extends.refl _)).1.mem (addDispute_mem (hl id' (by simp)))
    · exact ih (fun id'' hid'' => htxns ▸ hl id'' (by simp [hid''])) id' hid'

theorem createDisputes_spec [LawfulTxSet S] (o : S) (x : Sharing NodeID LedgerID S) :
    Extends peers acquired x.1 (createDisputes peers acquired o x).1 ∧
    (∀ c, c ∈ (createDisputes peers acquired o x).1.compares ↔ c = TxSet.id o ∨ c ∈ x.1.compares) ∧
    (TxSet.id o ∉ x.1.compares → ∀ i, has o i ≠ has x.1.txns i →
      i ∈ (createDisputes peers acquired o x).1.disputes) := by
  simp only [createDisputes]
  split
  · rename_i hmem
    refine ⟨.refl _, fun c => ⟨.inr, ?_⟩, fun hnot => absurd hmem hnot⟩
    rintro (rfl | hc)
    · exact hmem
    · exact hc
  split
  · rename_i hid
    refine ⟨⟨rfl, id, .inl⟩, fun c => mem_insert _, fun _ i hi => absurd ?_ hi⟩
    exact (LawfulTxSet.id_inj hid i).symm
  · refine ⟨(foldl_addDispute_spec o _ ?_).1, fun c => ?_, fun _ i hi => ?_⟩
    · exact ⟨rfl, id, .inl⟩
    · rw [(foldl_addDispute_spec o _ (Extends.refl _)).2]
      exact mem_insert _
    · exact foldl_addDispute_mem o (fun _ h => h) (i, has x.1.txns i)
        (LawfulTxSet.mem_compare.mpr ⟨hi.symm, rfl⟩)

end Extension

section Bookkeeping

variable (peers : PeerPositions NodeID LedgerID S) (acquired : HashMap (ID S) S)

structure Kept (r : ConsensusResult NodeID LedgerID S) : Prop where
  tx : ∀ {i d}, r.disputes.lookup i = some d → txId d.tx_ = i
  ourVote : ∀ {i d}, r.disputes.lookup i = some d → d.ourVote_ = has r.txns i
  tallied : ∀ {i d}, r.disputes.lookup i = some d → d.Tallied
  voters : ∀ {i d n}, r.disputes.lookup i = some d → n ∈ d.votes_ → n ∈ peers
  compared : ∀ {c}, c ∈ r.compares → ∃ o, acquired.lookup c = some o ∧
    ∀ i, has o i ≠ has r.txns i → i ∈ r.disputes

def Voted (r : ConsensusResult NodeID LedgerID S) (n : NodeID) : Prop :=
  ∀ {i d}, r.disputes.lookup i = some d → ∀ v, peerVote peers acquired n i = some v →
    d.votes_.lookup n = some v

def Compared (r : ConsensusResult NodeID LedgerID S) (n : NodeID) : Prop :=
  ∀ p, peers.lookup n = some p → p.position_ ∈ acquired → p.position_ ∈ r.compares

structure Recorded (r : ConsensusResult NodeID LedgerID S) (n : NodeID) : Prop where
  voted : Voted peers acquired r n
  compared : Compared peers acquired r n

variable {peers acquired} {r r' : ConsensusResult NodeID LedgerID S}
  {x : Sharing NodeID LedgerID S} {n : NodeID}

theorem peerVote_mem {i : TxID S} {v : Bool} (h : peerVote peers acquired n i = some v) :
    n ∈ peers := by
  obtain ⟨p, hp, -⟩ := Option.bind_eq_some_iff.mp h
  exact mem_iff_lookup.mpr ⟨p, hp⟩

theorem Extends.voted (h : Extends peers acquired r r') (hv : Voted peers acquired r n) :
    Voted peers acquired r' n := by
  intro i d hd v hn
  rcases h.fresh hd with hold | ⟨tx, rfl, rfl⟩
  · exact hv hold v hn
  · rw [lookup_makeDispute]
    exact hn

theorem Extends.kept (h : Extends peers acquired r r') (hk : Kept peers acquired r)
    (hc : ∀ {c}, c ∈ r'.compares → c ∈ r.compares ∨ ∃ o, acquired.lookup c = some o ∧
      ∀ i, has o i ≠ has r.txns i → i ∈ r'.disputes) : Kept peers acquired r' := by
  constructor
  · intro i d hd
    rcases h.fresh hd with hold | ⟨tx, rfl, rfl⟩
    · exact hk.tx hold
    · rw [(makeDispute_spec ..).1]
  · intro i d hd
    rw [h.txns]
    rcases h.fresh hd with hold | ⟨tx, rfl, rfl⟩
    · exact hk.ourVote hold
    · rw [(makeDispute_spec ..).2.1]
  · intro i d hd
    rcases h.fresh hd with hold | ⟨tx, rfl, rfl⟩
    · exact hk.tallied hold
    · exact (makeDispute_spec ..).2.2
  · intro i d n hd hn
    rcases h.fresh hd with hold | ⟨tx, rfl, rfl⟩
    · exact hk.voters hold hn
    · obtain ⟨v, hv⟩ := mem_iff_lookup.mp hn
      rw [lookup_makeDispute] at hv
      exact peerVote_mem hv
  · intro c hmem
    rw [h.txns]
    rcases hc hmem with hold | hnew
    · obtain ⟨o, ho, hdiff⟩ := hk.compared hold
      exact ⟨o, ho, fun i hi => h.mem (hdiff i hi)⟩
    · exact hnew

theorem createDisputes_kept [LawfulTxSet S] {o : S} (ho : acquired.lookup (TxSet.id o) = some o)
    (hk : Kept peers acquired x.1) : Kept peers acquired (createDisputes peers acquired o x).1 := by
  obtain ⟨hext, hcompares, hdiff⟩ := createDisputes_spec (S := S) o x
  refine hext.kept hk fun {c} hc => ?_
  rcases (hcompares c).mp hc with rfl | hc
  · by_cases hold : TxSet.id o ∈ x.1.compares
    · exact .inl hold
    · exact .inr ⟨o, ho, hdiff hold⟩
  · exact .inl hc

theorem createDisputes_voted [LawfulTxSet S] (o : S) (hv : Voted peers acquired x.1 n) :
    Voted peers acquired (createDisputes peers acquired o x).1 n :=
  (createDisputes_spec o x).1.voted hv

omit [DecidableEq NodeID] in
theorem Kept.mapDisputes {peers' : PeerPositions NodeID LedgerID S}
    (f : DisputedTx NodeID (Tx S) → DisputedTx NodeID (Tx S)) (hk : Kept peers acquired r)
    (hframe : ∀ d, (f d).tx_ = d.tx_ ∧ (f d).ourVote_ = d.ourVote_) (htallied : ∀ d, d.Tallied → (f d).Tallied)
    (hvoters : ∀ d m, (∀ n ∈ d.votes_, n ∈ peers) → m ∈ (f d).votes_ → m ∈ peers') :
    Kept peers' acquired { r with disputes := r.disputes.mapValues fun _ => f } := by
  have hlookup : ∀ {i d}, (r.disputes.mapValues fun _ => f).lookup i = some d →
      ∃ d', r.disputes.lookup i = some d' ∧ f d' = d := by
    intro i d hd
    rwa [lookup_mapValues, Option.map_eq_some_iff] at hd
  constructor
  · intro i d hd
    obtain ⟨d', hd', rfl⟩ := hlookup hd
    rw [(hframe d').1]
    exact hk.tx hd'
  · intro i d hd
    obtain ⟨d', hd', rfl⟩ := hlookup hd
    rw [(hframe d').2]
    exact hk.ourVote hd'
  · intro i d hd
    obtain ⟨d', hd', rfl⟩ := hlookup hd
    exact htallied d' (hk.tallied hd')
  · intro i d m hd hm
    obtain ⟨d', hd', rfl⟩ := hlookup hd
    exact hvoters d' m (fun n hn => hk.voters hd' hn) hm
  · intro c hc
    obtain ⟨o, ho, hdiff⟩ := hk.compared hc
    exact ⟨o, ho, fun i hi => mem_mapValues.mpr (hdiff i hi)⟩

theorem setVotes_kept (other : S) (hn : n ∈ peers) (hk : Kept peers acquired r) :
    Kept peers acquired (setVotes r n other) := by
  refine hk.mapDisputes _ (fun d => DisputedTx.setVote_frame n _) (fun d hd => hd.setVote n _) fun d m hd hm => ?_
  rw [mem_iff_lookup, DisputedTx.lookup_setVote] at hm
  split at hm
  · rename_i hmn
    exact hmn ▸ hn
  · exact hd m (mem_iff_lookup.mpr hm)

theorem setVotes_voted {other : S} {m : NodeID} (hk : Kept peers acquired r)
    (hv : m ≠ n → Voted peers acquired r m)
    (hn : ∀ i, peerVote peers acquired n i = some (has other i)) :
    Voted peers acquired (setVotes r n other) m := by
  intro i d hd v hpv
  simp only [setVotes, lookup_mapValues, Option.map_eq_some_iff] at hd
  obtain ⟨d', hd', rfl⟩ := hd
  rw [DisputedTx.lookup_setVote]
  by_cases hmn : m = n
  · rw [if_pos hmn, hk.tx hd', ← hpv, hmn, hn]
  · rw [if_neg hmn]
    exact hv hmn hd' v hpv

theorem updateDisputes_eq (other : S) :
    (updateDisputes peers acquired n other x).1 =
      setVotes (createDisputes peers acquired other x).1 n other := by
  simp only [updateDisputes, createDisputes]
  split
  · rfl
  · rfl

section Update

variable [LawfulTxSet S] {other : S} {p : ConsensusProposal NodeID LedgerID (ID S)}
  (ho : acquired.lookup (TxSet.id other) = some other)

include ho

theorem updateDisputes_kept (hn : n ∈ peers) (hk : Kept peers acquired x.1) :
    Kept peers acquired (updateDisputes peers acquired n other x).1 := by
  rw [updateDisputes_eq]
  exact setVotes_kept other hn (createDisputes_kept ho hk)

theorem updateDisputes_recorded {m : NodeID} (hp : peers.lookup n = some p)
    (hid : p.position_ = TxSet.id other) (hk : Kept peers acquired x.1)
    (hm : m ≠ n → Recorded peers acquired x.1 m) :
    Recorded peers acquired (updateDisputes peers acquired n other x).1 m := by
  rw [updateDisputes_eq]
  constructor
  · refine setVotes_voted (createDisputes_kept ho hk)
      (fun hmn => createDisputes_voted other (hm hmn).voted) fun i => ?_
    rw [peerVote, hp, Option.bind_some, hid, ho]
    rfl
  · intro q hq hacq
    change q.position_ ∈ (createDisputes peers acquired other x).1.compares
    rw [(createDisputes_spec other x).2.1]
    by_cases hmn : m = n
    · rw [hmn, hp] at hq
      cases hq
      exact .inl hid
    · exact .inr ((hm hmn).compared q hq hacq)

theorem foldl_updateDisputesAt
    {l : List ((_ : NodeID) × ConsensusProposal NodeID LedgerID (ID S))}
    (hl : ∀ e ∈ l, peers.lookup e.1 = some e.2) (hk : Kept peers acquired x.1) :
    Kept peers acquired (l.foldl (updateDisputesAt peers acquired other) x).1 ∧
    ∀ m, (Recorded peers acquired x.1 m ∨ ∃ e ∈ l, e.1 = m ∧ e.2.position_ = TxSet.id other) →
      Recorded peers acquired (l.foldl (updateDisputesAt peers acquired other) x).1 m := by
  induction l generalizing x with
  | nil =>
    refine ⟨hk, fun m hm => hm.resolve_right ?_⟩
    rintro ⟨e, he, -⟩
    cases he
  | cons e l ih =>
    have hp := hl e (by simp)
    have hl' : ∀ e ∈ l, peers.lookup e.1 = some e.2 := fun e he => hl e (by simp [he])
    rw [List.foldl_cons, updateDisputesAt]
    by_cases hid : e.2.position_ = TxSet.id other
    · rw [if_pos hid]
      have hstep : ∀ m, (m ≠ e.1 → Recorded peers acquired x.1 m) →
          Recorded peers acquired (updateDisputes peers acquired e.1 other x).1 m := fun m hm =>
        updateDisputes_recorded ho hp hid hk hm
      obtain ⟨hkept, hrec⟩ :=
        ih hl' (updateDisputes_kept ho (mem_iff_lookup.mpr ⟨_, hp⟩) hk)
      refine ⟨hkept, fun m hm => hrec m ?_⟩
      rcases hm with hm | ⟨e', he', rfl, hid'⟩
      · exact .inl (hstep m fun _ => hm)
      · rcases List.mem_cons.mp he' with rfl | he'
        · exact .inl (hstep _ fun hne => absurd rfl hne)
        · exact .inr ⟨e', he', rfl, hid'⟩
    · rw [if_neg hid]
      obtain ⟨hkept, hrec⟩ := ih hl' hk
      refine ⟨hkept, fun m hm => hrec m (hm.imp_right ?_)⟩
      rintro ⟨e', he', rfl, hid'⟩
      rcases List.mem_cons.mp he' with rfl | he'
      · exact absurd hid' hid
      · exact ⟨e', he', rfl, hid'⟩

end Update

theorem foldl_createDisputesAt [LawfulTxSet S]
    {l : List ((_ : NodeID) × ConsensusProposal NodeID LedgerID (ID S))}
    (ha : ∀ {c o}, acquired.lookup c = some o → TxSet.id o = c) (hk : Kept peers acquired x.1) :
    Kept peers acquired (l.foldl (createDisputesAt peers acquired) x).1 ∧
    (∀ m, Voted peers acquired x.1 m →
      Voted peers acquired (l.foldl (createDisputesAt peers acquired) x).1 m) ∧
    ∀ c, (c ∈ x.1.compares ∨ c ∈ acquired ∧ ∃ e ∈ l, e.2.position_ = c) →
      c ∈ (l.foldl (createDisputesAt peers acquired) x).1.compares := by
  induction l generalizing x with
  | nil =>
    refine ⟨hk, fun _ => id, fun c hc => hc.resolve_right ?_⟩
    rintro ⟨-, e, he, -⟩
    cases he
  | cons e l ih =>
    rw [List.foldl_cons, createDisputesAt]
    cases hset : acquired.lookup e.2.position_ with
    | none =>
      obtain ⟨hkept, hvoted, hcmp⟩ := ih hk
      refine ⟨hkept, hvoted, fun c hc => hcmp c (hc.imp_right ?_)⟩
      rintro ⟨hacq, e', he', rfl⟩
      rcases List.mem_cons.mp he' with rfl | he'
      · rw [mem_iff_lookup, hset] at hacq
        obtain ⟨_, ⟨⟩⟩ := hacq
      · exact ⟨hacq, e', he', rfl⟩
    | some set =>
      have hid := ha hset
      obtain ⟨hkept, hvoted, hcmp⟩ := ih (createDisputes_kept (hid ▸ hset) hk)
      refine ⟨hkept, fun m hm => hvoted m (createDisputes_voted set hm), fun c hc => hcmp c ?_⟩
      rcases hc with hc | ⟨hacq, e', he', rfl⟩
      · exact .inl (((createDisputes_spec set x).2.1 c).mpr (.inr hc))
      · rcases List.mem_cons.mp he' with rfl | he'
        · exact .inl (((createDisputes_spec set x).2.1 _).mpr (.inl hid.symm))
        · exact .inr ⟨hacq, e', he', rfl⟩

section Peers

variable {p : ConsensusProposal NodeID LedgerID (ID S)} {m : NodeID}

theorem Kept.insertPeer (hk : Kept peers acquired r) : Kept (peers.insert n p) acquired r :=
  { hk with voters := fun hd hm => (mem_insert _).mpr (.inr (hk.voters hd hm)) }

theorem Recorded.congr {peers' : PeerPositions NodeID LedgerID S} (hlookup : peers'.lookup m = peers.lookup m)
    (h : Recorded peers acquired r m) : Recorded peers' acquired r m := by
  constructor
  · intro i d hd v hv
    rw [peerVote, hlookup] at hv
    exact h.voted hd v hv
  · intro q hq
    rw [hlookup] at hq
    exact h.compared q hq

theorem Kept.erasePeer (hk : Kept peers acquired r) : Kept (peers.erase n) acquired (r.unVote n) := by
  refine hk.mapDisputes _ (fun d => DisputedTx.unVote_frame n) (fun d hd => hd.unVote n) fun d m hd hm => ?_
  rw [mem_iff_lookup, DisputedTx.lookup_unVote] at hm
  split at hm
  · obtain ⟨_, ⟨⟩⟩ := hm
  · rename_i hmn
    exact mem_erase.mpr ⟨hmn, hd m (mem_iff_lookup.mpr hm)⟩

theorem Recorded.erasePeer (h : Recorded peers acquired r m) :
    Recorded (peers.erase n) acquired (r.unVote n) m := by
  by_cases hm : m = n
  · subst hm
    have hnone : (peers.erase m).lookup m = none := lookup_erase _ _
    constructor
    · intro i d hd v hv
      rw [peerVote, hnone] at hv
      cases hv
    · intro q hq
      rw [hnone] at hq
      cases hq
  · refine Recorded.congr (lookup_erase_ne hm) ⟨?_, h.compared⟩
    intro i d hd v hv
    simp only [unVote, lookup_mapValues, Option.map_eq_some_iff] at hd
    obtain ⟨d', hd', rfl⟩ := hd
    rw [DisputedTx.lookup_unVote, if_neg hm]
    exact h.voted hd' v hv

end Peers

section Acquired

variable {c : ID S} {o : S}

omit [DecidableEq NodeID] in
theorem Kept.acquire (hc : c ∉ acquired) (hk : Kept peers acquired r) :
    Kept peers (acquired.insert c o) r := by
  refine { hk with compared := fun {c'} hc' => ?_ }
  obtain ⟨o', ho', hdiff⟩ := hk.compared hc'
  refine ⟨o', ?_, hdiff⟩
  have hne : c' ≠ c := by
    rintro rfl
    exact hc (mem_iff_lookup.mpr ⟨o', ho'⟩)
  rw [lookup_insert_ne hne]
  exact ho'

theorem Recorded.acquire (hm : ∀ p, peers.lookup n = some p → p.position_ ≠ c)
    (h : Recorded peers acquired r n) : Recorded peers (acquired.insert c o) r n := by
  constructor
  · intro i d hd v hv
    obtain ⟨p, hp, hset⟩ := Option.bind_eq_some_iff.mp hv
    rw [lookup_insert_ne (hm p hp)] at hset
    exact h.voted hd v (Option.bind_eq_some_iff.mpr ⟨p, hp, hset⟩)
  · intro p hp hacq
    exact h.compared p hp (((mem_insert _).mp hacq).resolve_left (hm p hp))

end Acquired

end Bookkeeping

end ConsensusResult

end Ripple
