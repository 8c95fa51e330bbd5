import Ripple.Consensus.Runs

/-!
# Ripple.Consensus.Proposals

Our own proposals over whole runs, read from the history of the calls to the adaptor.

A round is what happened since `startRoundInternal` was last executed. `ProposedAt` ties the history
to what the state has of it: the mode, the acquired sets and our current position, the last of which
bounds the sequence numbers proposed so far. There is one lemma for each way in which these can
change; the functions of the source are compositions of them.
-/

namespace Ripple

open TxSet (has ID Tx TxID txId)

variable {NodeID LedgerID S : Type} [TxSet S]

/-- The transaction set that becomes available with the event. -/
def Event.names : Event NodeID LedgerID S → Option (ID S)
  | .gotTxSet id => some id
  | .shareTxSet set => some (TxSet.id set)
  | .roundStart _ | .onModeChange _ _ | .shareTx _ | .sharePosition _ | .propose _
  | .onAccept _ _ _ _ _ => none

namespace Consensus

/-- The events of the current round, the newest first. -/
def round : List (Event NodeID LedgerID S) → List (Event NodeID LedgerID S)
  | [] => []
  | .roundStart _ :: _ => []
  | e :: es => e :: round es

def startMode : List (Event NodeID LedgerID S) → Option ConsensusMode
  | [] => none
  | .roundStart mode :: _ => some mode
  | _ :: es => startMode es

def Held (id : ID S) (es : List (Event NodeID LedgerID S)) : Prop :=
  ∃ e ∈ es, e.names = some id

structure WellProposed (p : ConsensusProposal NodeID LedgerID (ID S))
    (es : List (Event NodeID LedgerID S)) : Prop where
  newer : ∀ q, .propose q ∈ round es → q.proposeSeq_ < p.proposeSeq_
  last : ∀ q, .propose q ∈ round es → q.isBowOut = false
  mode : startMode es = some .proposing
  held : p.isBowOut = false → Held p.position_ (round es)

def WellOrdered (es : List (Event NodeID LedgerID S)) : Prop :=
  ∀ later p earlier, es = later ++ .propose p :: earlier → WellProposed p earlier

section History

variable {e : Event NodeID LedgerID S} {es : List (Event NodeID LedgerID S)}

theorem round_cons (h : ∀ mode, e ≠ .roundStart mode) : round (e :: es) = e :: round es := by
  cases e with
  | roundStart mode => exact absurd rfl (h mode)
  | _ => rfl

theorem startMode_cons (h : ∀ mode, e ≠ .roundStart mode) : startMode (e :: es) = startMode es := by
  cases e with
  | roundStart mode => exact absurd rfl (h mode)
  | _ => rfl

theorem wellOrdered_cons (h : WellOrdered es) (he : ∀ p, e = .propose p → WellProposed p es) :
    WellOrdered (e :: es) := by
  intro later p earlier hsplit
  cases later with
  | nil =>
    obtain ⟨rfl, rfl⟩ := List.cons.inj hsplit
    exact he p rfl
  | cons e' later =>
    obtain ⟨rfl, rfl⟩ := List.cons.inj hsplit
    exact h later p earlier rfl

theorem held_cons {id : ID S} : Held id (e :: es) ↔ e.names = some id ∨ Held id es := by
  simp [Held]

end History

structure ProposedAt (calls : List (Event NodeID LedgerID S)) (mode : ConsensusMode)
    (acquired : HashMap (ID S) S)
    (position : Option (ConsensusProposal NodeID LedgerID (ID S))) : Prop where
  ordered : WellOrdered calls
  mode : mode = .proposing → startMode calls = some .proposing
  unproposed : position = none → ∀ q, .propose q ∉ round calls
  newest : ∀ p, position = some p → ∀ q, .propose q ∈ round calls → q.proposeSeq_ ≤ p.proposeSeq_
  held : ∀ id, Held id (round calls) → id ∈ acquired
  source : ∀ id, id ∈ acquired → Held id (round calls) ∨ ∃ p, position = some p ∧ p.isBowOut = true

theorem le_seqLeave (q : UInt32) : q ≤ ConsensusProposal.seqLeave := by
  have := q.toNat_lt
  change q.toNat ≤ 4294967295
  omega

namespace ProposedAt

variable {calls es : List (Event NodeID LedgerID S)} {mode mode' : ConsensusMode}
  {acquired acquired' : HashMap (ID S) S} {e : Event NodeID LedgerID S} {id : ID S} {set : S}
  {p : ConsensusProposal NodeID LedgerID (ID S)}
  {position : Option (ConsensusProposal NodeID LedgerID (ID S))}

theorem initial : ProposedAt ([] : List (Event NodeID LedgerID S)) .observing ∅ none where
  ordered := by simp [WellOrdered]
  mode := by simp
  unproposed := by simp [round]
  newest := by simp
  held := by simp [round, Held]
  source := by simp

theorem cons (hr : ∀ mode, e ≠ .roundStart mode) (hp : ∀ q, e ≠ .propose q)
    (ha : ∀ id, id ∈ acquired' ↔ e.names = some id ∨ id ∈ acquired)
    (h : ProposedAt calls mode acquired position) :
    ProposedAt (e :: calls) mode acquired' position := by
  have hmem : ∀ q, .propose q ∈ e :: round calls → .propose q ∈ round calls := fun q hq =>
    (List.mem_cons.mp hq).resolve_left fun he => hp q he.symm
  constructor
  · exact wellOrdered_cons h.ordered fun q hq => absurd hq (hp q)
  · rw [startMode_cons hr]
    exact h.mode
  · rw [round_cons hr]
    exact fun hpos q hq => h.unproposed hpos q (hmem q hq)
  · rw [round_cons hr]
    exact fun p hpos q hq => h.newest p hpos q (hmem q hq)
  · intro id hid
    rw [round_cons hr, held_cons] at hid
    exact (ha id).mpr (hid.imp_right (h.held id))
  · intro id hid
    rw [round_cons hr, held_cons]
    rcases (ha id).mp hid with hid | hid
    · exact .inl (.inl hid)
    · exact (h.source id hid).imp_left .inr

theorem minor (he : ∀ e ∈ es, e.Minor) (h : ProposedAt calls mode acquired position) :
    ProposedAt (es ++ calls) mode acquired position := by
  induction es with
  | nil => exact h
  | cons e es ih =>
    have hm : e.Minor := he e (by simp)
    have hn : e.names = none := by
      cases e with
      | gotTxSet id | shareTxSet set => exact hm.elim
      | _ => rfl
    refine (ih fun e' he' => he e' (by simp [he'])).cons ?_ ?_ (by simp [hn])
    · rintro _ rfl
      exact hm
    · rintro _ rfl
      exact hm

theorem modeChange (before after : ConsensusMode) (h : ProposedAt calls mode acquired position) :
    ProposedAt (.onModeChange before after :: calls) mode acquired position :=
  h.cons nofun nofun (by simp [Event.names])

theorem receive (hn : e.names = some id) (h : ProposedAt calls mode acquired position) :
    ProposedAt (e :: calls) mode (acquired.insert id set) position := by
  refine h.cons ?_ ?_ ?_
  · rintro _ rfl
    cases hn
  · rintro _ rfl
    cases hn
  · intro id'
    rw [AList.mem_insert, hn, Option.some.injEq, eq_comm]

theorem leave (hm : mode' ≠ .proposing) (h : ProposedAt calls mode acquired position) :
    ProposedAt calls mode' acquired position :=
  { h with mode := fun he => absurd he hm }

theorem move (hp : ∀ old, position = some old → old.proposeSeq_ ≤ p.proposeSeq_)
    (h : ProposedAt calls mode acquired position) : ProposedAt calls mode acquired (some p) := by
  constructor
  · exact h.ordered
  · exact h.mode
  · nofun
  · rintro _ ⟨⟩ q hq
    cases hpos : position with
    | none => exact absurd hq (h.unproposed hpos q)
    | some old => exact UInt32.le_trans (h.newest old hpos q hq) (hp old hpos)
  · exact h.held
  · intro id hid
    refine (h.source id hid).imp_right ?_
    rintro ⟨old, hold, hb⟩
    refine ⟨p, rfl, ?_⟩
    have hle := hp old hold
    rw [ConsensusProposal.isBowOut, beq_iff_eq] at hb ⊢
    rw [hb] at hle
    exact UInt32.le_antisymm (le_seqLeave _) hle

theorem keepSet (hb : p.isBowOut = true) (h : ProposedAt calls mode acquired (some p)) :
    ProposedAt calls mode (acquired.insert id set) (some p) := by
  constructor
  · exact h.ordered
  · exact h.mode
  · exact h.unproposed
  · exact h.newest
  · exact fun id' hid => (AList.mem_insert _).mpr (.inr (h.held id' hid))
  · exact fun _ _ => .inr ⟨p, rfl, hb⟩

theorem propose (hm : mode = .proposing)
    (hnew : ∀ old, position = some old → old.proposeSeq_ < p.proposeSeq_)
    (hid : p.isBowOut = false → p.position_ ∈ acquired)
    (h : ProposedAt calls mode acquired position) :
    ProposedAt (.propose p :: calls) mode acquired (some p) := by
  have hlt : ∀ q, .propose q ∈ round calls → q.proposeSeq_ < p.proposeSeq_ := by
    intro q hq
    cases hpos : position with
    | none => exact absurd hq (h.unproposed hpos q)
    | some old => exact UInt32.lt_of_le_of_lt (h.newest old hpos q hq) (hnew old hpos)
  have hbow : ∀ q : ConsensusProposal NodeID LedgerID (ID S),
      q.proposeSeq_ < p.proposeSeq_ → q.isBowOut = false := by
    intro q hq
    rw [ConsensusProposal.isBowOut, beq_eq_false_iff_ne]
    intro he
    rw [he] at hq
    exact UInt32.not_le.mpr hq (le_seqLeave _)
  have hr : round (.propose p :: calls) = .propose p :: round calls := rfl
  constructor
  · refine wellOrdered_cons h.ordered ?_
    rintro _ ⟨⟩
    refine ⟨hlt, fun q hq => hbow q (hlt q hq), h.mode hm, fun hb => ?_⟩
    rcases h.source _ (hid hb) with hheld | ⟨old, hold, ho⟩
    · exact hheld
    · rw [hbow old (hnew old hold)] at ho
      cases ho
  · exact h.mode
  · nofun
  · rintro _ ⟨⟩ q hq
    rw [hr, List.mem_cons] at hq
    rcases hq with hq | hq
    · cases hq
      exact UInt32.le_refl _
    · exact UInt32.le_of_lt (hlt q hq)
  · intro id hid
    rw [hr, held_cons] at hid
    exact h.held id (hid.resolve_left nofun)
  · intro id hid
    rw [hr, held_cons]
    rcases h.source id hid with hheld | ⟨old, hold, ho⟩
    · exact .inl (.inr hheld)
    · rw [hbow old (hnew old hold)] at ho
      cases ho

theorem newRound (mode' : ConsensusMode) (h : ProposedAt calls mode acquired position) :
    ProposedAt (.roundStart mode' :: calls) mode' (∅ : HashMap (ID S) S) none where
  ordered := wellOrdered_cons h.ordered nofun
  mode hm := by rw [hm]; rfl
  unproposed := by simp [round]
  newest := nofun
  held := by simp [round, Held]
  source := by simp

end ProposedAt

structure Proposed (s : Consensus NodeID LedgerID S) : Prop where
  opened : s.phase_ = .opened → s.result_ = none
  at_ : ProposedAt s.calls s.mode_ s.acquired_ (s.result_.map ConsensusResult.position)

variable {s : Consensus NodeID LedgerID S} {r : ConsensusResult NodeID LedgerID S}
  {x : ConsensusResult.Sharing NodeID LedgerID S}

theorem ProposedAt.shareTxs {calls : List (Event NodeID LedgerID S)} {mode : ConsensusMode}
    {acquired : HashMap (ID S) S}
    {position : Option (ConsensusProposal NodeID LedgerID (ID S))} (txs : List (Tx S))
    (h : ProposedAt calls mode acquired position) :
    ProposedAt (txs.map Event.shareTx ++ calls) mode acquired position := by
  refine h.minor fun e he => ?_
  obtain ⟨tx, -, rfl⟩ := List.mem_map.mp he
  trivial

theorem setResult_proposed (hphase : s.phase_ ≠ .opened)
    (h : ProposedAt s.calls s.mode_ s.acquired_ (some r.position))
    (hx : ConsensusResult.SameStand r x.1) : Proposed (setResult s x) := by
  refine ⟨fun hp => absurd hp hphase, ?_⟩
  change ProposedAt _ s.mode_ s.acquired_ (some x.1.position)
  rw [hx.2]
  exact h.shareTxs x.2

theorem Proposed.phase_ne (h : Proposed s) (hr : s.result_ = some r) : s.phase_ ≠ .opened := by
  intro hp
  rw [h.opened hp] at hr
  cases hr

theorem Proposed.position (h : Proposed s) (hr : s.result_ = some r) :
    ProposedAt s.calls s.mode_ s.acquired_ (some r.position) := by
  have := h.at_
  rwa [hr] at this

theorem Proposed.congr {s' : Consensus NodeID LedgerID S} (h : Proposed s)
    (hphase : s'.phase_ = .opened → s.phase_ = .opened)
    (hpos : s'.result_.map ConsensusResult.position = s.result_.map ConsensusResult.position)
    (hat : ProposedAt s'.calls s'.mode_ s'.acquired_ (s.result_.map ConsensusResult.position)) :
    Proposed s' := by
  refine ⟨fun hp => ?_, hpos ▸ hat⟩
  rw [h.opened (hphase hp), Option.map_none] at hpos
  exact Option.map_eq_none_iff.mp hpos

theorem emplaceTxSet_acquired (set : S) (share : Bool) :
    TxSet.id set ∈ (emplaceTxSet set share s).acquired_ := by
  rw [emplaceTxSet]
  split
  · assumption
  · simp

theorem ProposedAt.emplaceTxSet (set : S) (share : Bool)
    {position : Option (ConsensusProposal NodeID LedgerID (ID S))}
    (hs : share = false → ∃ p, position = some p ∧ p.isBowOut = true)
    (h : ProposedAt s.calls s.mode_ s.acquired_ position) :
    ProposedAt (Consensus.emplaceTxSet set share s).calls
      (Consensus.emplaceTxSet set share s).mode_
      (Consensus.emplaceTxSet set share s).acquired_ position := by
  rw [Consensus.emplaceTxSet]
  split
  · exact h
  · cases share with
    | true => exact h.receive rfl
    | false =>
      obtain ⟨p, rfl, hb⟩ := hs rfl
      exact h.keepSet hb

theorem ProposedAt.tell {p : ConsensusProposal NodeID LedgerID (ID S)}
    {position : Option (ConsensusProposal NodeID LedgerID (ID S))}
    (hnew : ∀ old, position = some old → old.proposeSeq_ < p.proposeSeq_)
    (hid : p.position_ ∈ s.acquired_) (h : ProposedAt s.calls s.mode_ s.acquired_ position) :
    ProposedAt (Consensus.propose p s).calls (Consensus.propose p s).mode_
      (Consensus.propose p s).acquired_ (some p) := by
  rw [Consensus.propose]
  split
  · rename_i hm
    exact h.propose hm hnew fun _ => hid
  · exact h.move fun old hold => UInt32.le_of_lt (hnew old hold)

theorem emplaceTxSet_phase (set : S) (share : Bool) :
    (emplaceTxSet set share s).phase_ = s.phase_ := by
  rw [emplaceTxSet]
  split
  · rfl
  · rfl

variable (p : ConsensusProposal NodeID LedgerID (ID S))

theorem propose_frame : propose p s = { s with calls := (propose p s).calls } := by
  rw [propose]
  split
  · rfl
  · rfl

section Functions

variable [DecidableEq NodeID] {A : ConsensusAdaptor NodeID LedgerID S}

theorem disputeTxSet_spec (s : Consensus NodeID LedgerID S) (txSet : S) :
    (∃ txs : List (Tx S), (disputeTxSet A s txSet).calls = txs.map Event.shareTx ++ s.calls) ∧
    (disputeTxSet A s txSet).mode_ = s.mode_ ∧ (disputeTxSet A s txSet).phase_ = s.phase_ ∧
    (disputeTxSet A s txSet).acquired_ = s.acquired_ ∧
    (disputeTxSet A s txSet).result_.map ConsensusResult.position =
      s.result_.map ConsensusResult.position := by
  simp only [disputeTxSet]
  split
  · exact ⟨⟨[], rfl⟩, rfl, rfl, rfl, rfl⟩
  · rename_i r hr
    refine ⟨⟨_, rfl⟩, rfl, rfl, rfl, ?_⟩
    rw [hr]
    exact congrArg some (ConsensusResult.foldl_updateDisputesAt_sameStand txSet _).2

theorem disputeTxSet_proposed (txSet : S) (h : Proposed s) : Proposed (disputeTxSet A s txSet) := by
  obtain ⟨⟨txs, hcalls⟩, hmode, hphase, hacq, hpos⟩ := disputeTxSet_spec (A := A) s txSet
  refine h.congr (fun hp => hphase.symm.trans hp) hpos ?_
  rw [hcalls, hmode, hacq]
  exact h.at_.shareTxs txs

theorem gotTxSet_proposed (now : Nat) (txSet : S) (h : Proposed s) :
    Proposed (gotTxSet A now txSet s) := by
  rw [gotTxSet]
  split
  · exact h
  split
  · exact ⟨h.opened, h.at_⟩
  · exact disputeTxSet_proposed txSet ⟨h.opened, h.at_.receive rfl⟩

theorem followPosition_proposed (p : ConsensusProposal NodeID LedgerID (ID S))
    (h : Proposed s) : Proposed (followPosition A p s) := by
  rw [followPosition]
  split
  · split
    · exact gotTxSet_proposed _ _ ⟨h.opened, h.at_⟩
    · exact ⟨h.opened, h.at_⟩
  · split
    · exact h
    · rename_i r hr
      exact setResult_proposed (h.phase_ne hr) (h.position hr)
        (ConsensusResult.updateDisputes_sameStand _ _ ⟨rfl, rfl⟩)

theorem closeLedger_proposed (hphase : s.phase_ = .opened) (h : Proposed s) :
    Proposed (closeLedger A s) := by
  have hat := h.at_
  rw [h.opened hphase, Option.map_none] at hat
  simp only [closeLedger]
  generalize hc : A.onClose (s.asked + 1) s.previousLedger_ s.now_ s.mode_ = c
  have hid : TxSet.id c.1 = c.2.position_ := by
    rw [← hc]
    exact A.onClose_id
  refine setResult_proposed ?_ ?_ (ConsensusResult.foldl_createDisputesAt_sameStand _)
  · rw [propose_frame, emplaceTxSet_phase]
    nofun
  · refine ProposedAt.tell ?_ ?_ (ProposedAt.emplaceTxSet c.1 true nofun hat)
    · nofun
    · rw [← hid]
      exact emplaceTxSet_acquired c.1 true

omit [DecidableEq NodeID] in
theorem leaveConsensus_proposed (h : Proposed s) : Proposed (leaveConsensus s) := by
  have hleft : Proposed (setMode .observing s) := ⟨h.opened, (h.at_.modeChange _ _).leave nofun⟩
  rw [leaveConsensus]
  split
  · rename_i hm
    split
    · exact hleft
    · rename_i r hr
      split
      · exact hleft
      · rename_i hb
        refine ⟨fun hp => absurd hp (h.phase_ne hr), ?_⟩
        have hp := (h.position hr).propose (p := r.position.bowOut s.now_) hm ?_ nofun
        · exact (hp.modeChange _ _).leave nofun
        · rintro _ ⟨⟩
          rw [ConsensusProposal.isBowOut, beq_iff_eq] at hb
          exact UInt32.lt_of_le_of_ne (le_seqLeave _) hb
  · exact h

omit [DecidableEq NodeID] in
theorem le_changePosition (p : ConsensusProposal NodeID LedgerID (ID S)) (id : ID S)
    (closeTime now : Nat) :
    p.proposeSeq_ ≤ (p.changePosition id closeTime now).proposeSeq_ ∧
    ((p.changePosition id closeTime now).isBowOut = false →
      p.proposeSeq_ < (p.changePosition id closeTime now).proposeSeq_) := by
  simp only [ConsensusProposal.changePosition, ConsensusProposal.isBowOut, beq_eq_false_iff_ne]
  split
  · rename_i hne
    have hlt : p.proposeSeq_ < p.proposeSeq_ + 1 := by
      have := UInt32.lt_of_le_of_ne (le_seqLeave p.proposeSeq_) hne
      rw [UInt32.lt_iff_toNat_lt] at this ⊢
      change p.proposeSeq_.toNat < 4294967295 at this
      rw [UInt32.toNat_add]
      change _ < (p.proposeSeq_.toNat + 1) % 2 ^ 32
      omega
    exact ⟨UInt32.le_of_lt hlt, fun _ => hlt⟩
  · exact ⟨UInt32.le_refl _, fun h => by contradiction⟩

theorem changeOurPosition_proposed (set : S) (closeTime : Nat) (hphase : s.phase_ ≠ .opened)
    (h : ProposedAt s.calls s.mode_ s.acquired_ (some r.position)) :
    Proposed (changeOurPosition A set closeTime r s) := by
  have hle := le_changePosition r.position (TxSet.id set) closeTime s.now_
  have hid : (r.position.changePosition (TxSet.id set) closeTime s.now_).position_ =
    TxSet.id set := rfl
  simp only [changeOurPosition]
  generalize r.position.changePosition (TxSet.id set) closeTime s.now_ = position at hle hid ⊢
  generalize he : emplaceTxSet set (!position.isBowOut) s = s₁
  have hphase₁ : s₁.phase_ ≠ .opened := by
    rw [← he, emplaceTxSet_phase]
    exact hphase
  have hacq : position.position_ ∈ s₁.acquired_ := by
    rw [← he, hid]
    exact emplaceTxSet_acquired set _
  generalize hd : (if TxSet.id set ∉ s.acquired_ then disputeTxSet A { s₁ with
    result_ := some { r with txns := set, position := position } } set else { s₁ with
    result_ := some { r with txns := set, position := position } }) = s₂
  obtain ⟨⟨txs, hcalls⟩, hmode₂, hphase₂, hacq₂, hpos₂⟩ : (∃ txs : List (Tx S),
      s₂.calls = txs.map Event.shareTx ++ s₁.calls) ∧ s₂.mode_ = s₁.mode_ ∧
      s₂.phase_ = s₁.phase_ ∧ s₂.acquired_ = s₁.acquired_ ∧
      s₂.result_.map ConsensusResult.position = some position := by
    rw [← hd]
    split
    · exact disputeTxSet_spec _ set
    · exact ⟨⟨[], rfl⟩, rfl, rfl, rfl, rfl⟩
  cases hb : position.isBowOut with
  | true =>
    -- our sequence number has run out, or we left before: the position moves on unnoticed
    have hm := (h.move fun old ho => Option.some.inj ho ▸ hle.1).emplaceTxSet set false
      fun _ => ⟨position, rfl, hb⟩
    rw [show emplaceTxSet set false s = s₁ by rw [← he, hb]; rfl] at hm
    refine ⟨fun hp => absurd hp (hphase₂ ▸ hphase₁), ?_⟩
    simp only [if_true, hcalls, hmode₂, hacq₂, hpos₂]
    exact hm.shareTxs txs
  | false =>
    have hm := ProposedAt.emplaceTxSet set true nofun h
    rw [show emplaceTxSet set true s = s₁ by rw [← he, hb]; rfl] at hm
    have hm₂ : ProposedAt s₂.calls s₂.mode_ s₂.acquired_ (some r.position) := by
      rw [hcalls, hmode₂, hacq₂]
      exact hm.shareTxs txs
    have ht := hm₂.tell (p := position) (fun old ho => Option.some.inj ho ▸ hle.2 hb) (hacq₂ ▸ hacq)
    constructor
    · intro hp
      simp only [Bool.false_eq_true, if_false] at hp
      rw [propose_frame] at hp
      exact absurd hp (hphase₂ ▸ hphase₁)
    · simp only [Bool.false_eq_true, if_false]
      have hpos : (propose position s₂).result_.map ConsensusResult.position = some position := by
        rwa [propose_frame]
      rw [hpos]
      exact ht

theorem dropStale_proposed (h : Proposed s) :
    Proposed (dropStale A s).2 ∧ (dropStale A s).2.phase_ = s.phase_ := by
  refine List.foldlRecOn (motive := fun x : OrderedMap Nat Int × Consensus NodeID LedgerID S =>
    Proposed x.2 ∧ x.2.phase_ = s.phase_) _ _ ⟨⟨h.opened, h.at_⟩, rfl⟩
    fun _ hx it _ => ?_
  rw [dropStaleAt]
  split
  · exact ⟨hx.1.congr id (by rw [Option.map_map]; rfl) hx.1.at_, hx.2⟩
  · exact hx

theorem updateOurPositions_proposed (hphase : s.phase_ = .establish) (h : Proposed s) :
    Proposed (updateOurPositions A s) := by
  obtain ⟨hd, hphase'⟩ := dropStale_proposed (A := A) h
  simp only [updateOurPositions]
  generalize dropStale A s = x at hd hphase' ⊢
  have hne : x.2.phase_ ≠ .opened := by
    rw [hphase', hphase]
    nofun
  split
  · exact hd
  · rename_i r hr
    have hpos := hd.position hr
    split
    · exact changeOurPosition_proposed _ _ hne hpos
    · split
      · exact changeOurPosition_proposed _ _ hne hpos
      · exact ⟨fun hp => absurd hp hne, hpos⟩

end Functions

theorem Quiet.position {s s' : Consensus NodeID LedgerID S} (h : Quiet s s') :
    s'.result_.map ConsensusResult.position = s.result_.map ConsensusResult.position := by
  rcases h.result with hr | ⟨r, t, c, n, hr, hr'⟩
  · rw [hr]
  · rw [hr, hr']
    rfl

theorem proposed_stable [DecidableEq NodeID] [DecidableEq LedgerID]
    (A : ConsensusAdaptor NodeID LedgerID S) : Stable A Proposed where
  make _ _ := ⟨nofun, .initial⟩
  quiet h hs := by
    obtain ⟨es, hcalls, hminor⟩ := h.calls
    refine hs.congr (fun hp => ?_) h.position ?_
    · rcases h.phase with hphase | hphase
      · exact hphase.symm.trans hp
      · rw [hphase] at hp
        cases hp
    · rw [hcalls, h.mode, h.acquired]
      exact hs.at_.minor hminor
  peerBowsOut _ hs := hs.congr id (by rw [peerBowsOut, Option.map_map]; rfl) hs.at_
  takePosition _ _ hs := followPosition_proposed _ ⟨hs.opened, hs.at_⟩
  gotTxSet now txSet hs := gotTxSet_proposed now txSet hs
  closeLedger hphase hs := closeLedger_proposed hphase hs
  updateOurPositions hphase hs := updateOurPositions_proposed hphase hs
  leaveConsensus hs := leaveConsensus_proposed hs
  wrongLedger hs := ⟨hs.opened, (hs.at_.modeChange _ _).leave nofun⟩
  switchLedger _ hs := hs.congr id (by rw [switchLedger, Option.map_map]; rfl) hs.at_
  beginRound _ _ _ mode hs := ⟨fun _ => rfl, (hs.at_.newRound mode).modeChange _ _⟩

theorem own_proposals_ordered [DecidableEq NodeID] [DecidableEq LedgerID]
    {A : ConsensusAdaptor NodeID LedgerID S} (h : Reached A s) :
    (∀ later p earlier, s.calls = later ++ .propose p :: earlier →
      (∀ q, .propose q ∈ round earlier → q.proposeSeq_ < p.proposeSeq_ ∧ q.isBowOut = false) ∧
      startMode earlier = some .proposing ∧
      (p.isBowOut = false → Held p.position_ (round earlier))) ∧
    ∀ id, Held id (round s.calls) → id ∈ s.acquired_ := by
  have hp := ((proposed_stable A).reached h).at_
  refine ⟨?_, hp.held⟩
  intro later p earlier hsplit
  have hw := hp.ordered later p earlier hsplit
  exact ⟨fun q hq => ⟨hw.newer q hq, hw.last q hq⟩, hw.mode, hw.held⟩

def Event.proposeSeq : Event NodeID LedgerID S → Option UInt32
  | .propose p => some p.proposeSeq_
  | _ => none

theorem own_proposals_ordered_sample :
    (round sampleState.calls).filterMap Event.proposeSeq = [1, 0] ∧
    (∀ later p earlier, sampleState.calls = later ++ .propose p :: earlier →
      (∀ q, .propose q ∈ round earlier → q.proposeSeq_ < p.proposeSeq_ ∧ q.isBowOut = false) ∧
      startMode earlier = some .proposing ∧
      (p.isBowOut = false → Held p.position_ (round earlier))) :=
  ⟨by decide +kernel, (own_proposals_ordered sampleState_reached).1⟩

/-! ## There is a result while a position is established -/

def stage (s : Consensus NodeID LedgerID S) : ConsensusPhase × Bool := (s.phase_, s.result_.isSome)

def Staged (s : Consensus NodeID LedgerID S) : Prop :=
  stage s = (.opened, false) ∨ stage s = (.establish, true) ∨ s.phase_ = .accepted

theorem Staged.congr {s' : Consensus NodeID LedgerID S} (hs : Staged s) (h : stage s' = stage s) :
    Staged s' := by
  grind [Staged, stage]

theorem stage_leaveConsensus : stage (leaveConsensus s) = stage s := by
  unfold leaveConsensus
  grind [stage, setMode]

section Stage

variable [DecidableEq NodeID] {A : ConsensusAdaptor NodeID LedgerID S}

theorem stage_disputeTxSet (set : S) : stage (disputeTxSet A s set) = stage s := by
  unfold disputeTxSet
  grind [stage, setResult]

theorem stage_gotTxSet (now : Nat) (txSet : S) : stage (gotTxSet A now txSet s) = stage s := by
  unfold gotTxSet
  grind [stage, stage_disputeTxSet]

theorem stage_followPosition (p : ConsensusProposal NodeID LedgerID (ID S)) :
    stage (followPosition A p s) = stage s := by
  unfold followPosition
  grind [stage, setResult, stage_gotTxSet]

theorem stage_dropStale : stage (dropStale A s).2 = stage s := by
  refine List.foldlRecOn (motive := fun x : OrderedMap Nat Int × Consensus NodeID LedgerID S =>
    stage x.2 = stage s) _ _ rfl fun x hx it _ => ?_
  unfold dropStaleAt
  grind [stage]

theorem stage_updateOurPositions : stage (updateOurPositions A s) = stage s := by
  have h := stage_dropStale (A := A) (s := s)
  unfold updateOurPositions changeOurPosition
  grind [stage, propose, emplaceTxSet, stage_disputeTxSet]

theorem staged_stable [DecidableEq LedgerID] : Stable A Staged where
  make _ _ := .inr (.inr rfl)
  quiet {s s'} h hs := by
    have hsome : s'.result_.isSome = s.result_.isSome := by
      simpa using congrArg Option.isSome h.position
    cases h.phase with
    | inl hphase => exact hs.congr (by rw [stage, stage, hphase, hsome])
    | inr hphase => exact .inr (.inr hphase)
  peerBowsOut _ hs := hs.congr (by simp [stage, peerBowsOut])
  takePosition _ _ hs := hs.congr (stage_followPosition _)
  gotTxSet now txSet hs := hs.congr (stage_gotTxSet now txSet)
  closeLedger _ _ := by
    unfold closeLedger createPeerDisputes propose emplaceTxSet
    grind [Staged, stage, setResult]
  updateOurPositions _ hs := hs.congr stage_updateOurPositions
  leaveConsensus hs := hs.congr stage_leaveConsensus
  wrongLedger hs := hs
  switchLedger _ hs := hs.congr (by simp [stage, switchLedger])
  beginRound _ _ _ _ _ := .inl rfl

theorem establish_has_result [DecidableEq LedgerID] (h : Reached A s)
    (hphase : s.phase_ ≠ .accepted) : s.result_.isSome ↔ s.phase_ = .establish := by
  have hs := staged_stable.reached h
  grind [Staged, stage]

end Stage

theorem establish_has_result_sample : sampleState.result_.isSome :=
  (establish_has_result sampleState_reached (by decide +kernel)).mpr (by decide +kernel)

end Consensus
end Ripple
