import Ripple.Ledger.Entry
import Ripple.Protocol.TER

/-!
# Ripple.Tx.InvariantCheck

The invariant checkers of `app/tx/impl/InvariantCheck.cpp`. A checker visits the entries that a
transaction changed, one after the other, and then gives its verdict. It throws by answering `none`.
-/

namespace Ripple.Tx

open Protocol Ledger

/-- The field of a transaction that a checker looks at. -/
structure STTx where
  fee : STAmount
deriving DecidableEq

structure Visit where
  isDelete : Bool := false
  before : Option Entry := none
  after : Option Entry := none
deriving DecidableEq

def SYSTEM_CURRENCY_START : Int := 100000000000000000

structure InvariantChecker (σ : Type) where
  init : σ
  visitEntry : σ → Visit → Option σ
  finalize : σ → STTx → TER → Int → Option Bool

variable (visits : List Visit)

namespace InvariantChecker

variable {σ : Type} (c : InvariantChecker σ)

def visit (s : Option σ) (v : Visit) : Option σ := s.bind fun s => c.visitEntry s v

def run (visits : List Visit) : Option σ := visits.foldl c.visit (some c.init)

/-- `none` where the checker throws. -/
def verdict (visits : List Visit) (tx : STTx) (result : TER) (fee : Int) : Option Bool :=
  (c.run visits).bind fun s => c.finalize s tx result fee

def Commutes : Prop := ∀ s a b, c.visit (c.visit s a) b = c.visit (c.visit s b) a

variable {c}

variable {visits' visits : List Visit}

theorem Commutes.run_perm (hc : c.Commutes) (hp : visits'.Perm visits) :
    c.run visits' = c.run visits :=
  hp.foldl_eq' (fun a _ b _ s => hc s a b) _

theorem Commutes.verdict_perm (hc : c.Commutes) (hp : visits'.Perm visits) (tx : STTx)
    (result : TER) (fee : Int) :
    c.verdict visits' tx result fee = c.verdict visits tx result fee := by
  unfold verdict
  rw [hc.run_perm hp]

/-- A checker whose state is read off the state of another one. -/
theorem verdict_eq_of_hom {τ : Type} {c' : InvariantChecker τ} {tx : STTx} {result : TER} {fee : Int} (f : σ → τ)
    (hinit : f c.init = c'.init) (hvisit : ∀ s v, c'.visitEntry (f s) v = (c.visitEntry s v).map f)
    (hfinal : ∀ s, c'.finalize (f s) tx result fee = c.finalize s tx result fee) :
    c.verdict visits tx result fee = c'.verdict visits tx result fee := by
  have hrun : visits.foldl c'.visit (Option.map f (some c.init)) = (c.run visits).map f := by
    refine List.foldl_hom _ fun s v => ?_
    cases s with
    | none => rfl
    | some s => exact hvisit s v
  rw [verdict, verdict, run.eq_def c', ← hinit]
  refine Eq.trans ?_ (congrArg (Option.bind · _) hrun).symm
  simp [Option.bind_map, hfinal]

end InvariantChecker

/-! ## Checkers that remember one bad entry -/

/-- `bad_ |= ...` at every entry; the check passes when `bad_` is still false. -/
def flagChecker (bad : Visit → Bool) : InvariantChecker Bool where
  init := false
  visitEntry bad_ v := some (bad_ || bad v)
  finalize bad_ _ _ _ := some (!bad_)

section Flag

variable {bad : Visit → Bool}

theorem flagChecker_commutes : (flagChecker bad).Commutes := by
  intro s a b
  cases s with
  | none => rfl
  | some bad_ => simp [InvariantChecker.visit, flagChecker, Bool.or_right_comm]

theorem flagChecker_foldl (bad_ : Bool) :
    visits.foldl (flagChecker bad).visit (some bad_) = some (bad_ || visits.any bad) := by
  induction visits generalizing bad_ with
  | nil => simp
  | cons v visits ih =>
    have hstep : (flagChecker bad).visit (some bad_) v = some (bad_ || bad v) := rfl
    rw [List.foldl_cons, hstep, ih, List.any_cons, Bool.or_assoc]

theorem flagChecker_rejects (tx : STTx) (result : TER) (fee : Int) :
    (flagChecker bad).verdict visits tx result fee = some false ↔ ∃ v ∈ visits, bad v = true := by
  have hrun : (flagChecker bad).run visits = some (false || visits.any bad) :=
    flagChecker_foldl visits false
  rw [InvariantChecker.verdict, hrun, Option.bind_some]
  simp [flagChecker]

end Flag

def either (bad : Entry → Bool) (v : Visit) : Bool := v.before.any bad || v.after.any bad

namespace XRPBalanceChecks

def isBad (balance : STAmount) : Bool :=
  match balance.xrp with
  | none => true
  | some drops => decide (drops > SYSTEM_CURRENCY_START) || decide (drops < 0)

def isBadEntry : Entry → Bool
  | .accountRoot balance => isBad balance
  | _ => false

end XRPBalanceChecks

def XRPBalanceChecks : InvariantChecker Bool := flagChecker (either XRPBalanceChecks.isBadEntry)

namespace NoBadOffers

def isBad (pays gets : STAmount) : Bool :=
  decide (pays.signum < 0) || decide (gets.signum < 0) || (pays.native && gets.native)

def isBadEntry : Entry → Bool
  | .offer takerPays takerGets => isBad takerPays takerGets
  | _ => false

end NoBadOffers

def NoBadOffers : InvariantChecker Bool := flagChecker (either NoBadOffers.isBadEntry)

namespace NoZeroEscrow

def isBad (amount : STAmount) : Bool :=
  match amount.xrp with
  | none => true
  | some drops => decide (drops ≤ 0) || decide (drops ≥ SYSTEM_CURRENCY_START)

def isBadEntry : Entry → Bool
  | .escrow amount => isBad amount
  | _ => false

end NoZeroEscrow

def NoZeroEscrow : InvariantChecker Bool := flagChecker (either NoZeroEscrow.isBadEntry)

namespace AccountRootsNotDeleted

def deletesRoot (v : Visit) : Bool :=
  v.isDelete && v.before.any fun before => before.getType == .ltACCOUNT_ROOT

end AccountRootsNotDeleted

def AccountRootsNotDeleted : InvariantChecker Bool := flagChecker AccountRootsNotDeleted.deletesRoot

/-! ## The other checkers -/

namespace TransactionFeeCheck

def finalize (tx : STTx) (fee : Int) : Option Bool :=
  if fee < 0 then some false
  else if fee ≥ SYSTEM_CURRENCY_START then some false
  else tx.fee.xrp.map fun specified => !decide (fee > specified)

end TransactionFeeCheck

def TransactionFeeCheck : InvariantChecker Unit where
  init := ()
  visitEntry s _ := some s
  finalize _ tx _ fee := TransactionFeeCheck.finalize tx fee

namespace LedgerEntryTypesMatch

def mismatch (v : Visit) : Bool :=
  match v.before, v.after with
  | some before, some after => before.getType != after.getType
  | _, _ => false

def isKnown : LedgerEntryType → Bool
  | .ltACCOUNT_ROOT | .ltDIR_NODE | .ltRIPPLE_STATE | .ltTICKET | .ltSIGNER_LIST | .ltOFFER
  | .ltLEDGER_HASHES | .ltAMENDMENTS | .ltFEE_SETTINGS | .ltESCROW | .ltPAYCHAN | .ltCHECK
  | .ltDEPOSIT_PREAUTH => true
  | .ltNICKNAME | .ltNotUsed01 => false

def invalidType (v : Visit) : Bool := v.after.any fun after => !isKnown after.getType

end LedgerEntryTypesMatch

/-- The two flags are `typeMismatch_` and `invalidTypeAdded_`. -/
def LedgerEntryTypesMatch : InvariantChecker (Bool × Bool) where
  init := (false, false)
  visitEntry s v :=
    some (s.1 || LedgerEntryTypesMatch.mismatch v, s.2 || LedgerEntryTypesMatch.invalidType v)
  finalize s _ _ _ := some (!s.1 && !s.2)

namespace XRPNotCreated

/-- What an entry counts for. A payment channel counts for what is left in it. -/
def drops : Entry → Option Int
  | .accountRoot balance => balance.xrp
  | .payChan amount balance => (amount.sub balance).bind STAmount.xrp
  | .escrow amount => amount.xrp
  | _ => some 0

/-- A deleted channel or escrow leaves nothing; the source still counts a deleted account root. -/
def dropsAfter (isDelete : Bool) : Entry → Option Int
  | .accountRoot balance => balance.xrp
  | e => if isDelete then some 0 else drops e

def visitEntry (drops_ : Int) (v : Visit) : Option Int := do
  let before ← v.before.elim (some 0) drops
  let after ← v.after.elim (some 0) (dropsAfter v.isDelete)
  some (int64 (int64 (drops_ - before) + after))

def finalize (drops_ fee : Int) : Bool :=
  if drops_ > 0 then false else int64 (-drops_) == fee

end XRPNotCreated

def XRPNotCreated : InvariantChecker Int where
  init := 0
  visitEntry := XRPNotCreated.visitEntry
  finalize drops_ _ _ fee := some (XRPNotCreated.finalize drops_ fee)

namespace NoXRPTrustLines

def isXRPLine (lowLimit highLimit : STAmount) : Bool :=
  lowLimit.issue.same xrpIssue || highLimit.issue.same xrpIssue

def visitEntry (xrpTrustLine_ : Bool) (v : Visit) : Bool :=
  match v.after with
  | some (.rippleState lowLimit highLimit) => isXRPLine lowLimit highLimit
  | _ => xrpTrustLine_

/-- The trust line that a change leaves, and what is wrong with it. -/
def resulting (v : Visit) : Option Bool :=
  match v.after with
  | some (.rippleState lowLimit highLimit) => some (isXRPLine lowLimit highLimit)
  | _ => none

end NoXRPTrustLines

def NoXRPTrustLines : InvariantChecker Bool where
  init := false
  visitEntry xrpTrustLine_ v := some (NoXRPTrustLines.visitEntry xrpTrustLine_ v)
  finalize xrpTrustLine_ _ _ _ := some (!xrpTrustLine_)

/-! ## What order the entries come in -/

theorem transactionFeeCheck_commutes : TransactionFeeCheck.Commutes := by
  intro s a b
  cases s <;> rfl

theorem xrpNotCreated_visitEntry (drops_ : Int) (v : Visit) :
    XRPNotCreated.visitEntry drops_ v =
      (v.before.elim (some 0) XRPNotCreated.drops).bind fun before =>
        (v.after.elim (some 0) (XRPNotCreated.dropsAfter v.isDelete)).map fun after =>
          int64 (drops_ + (after - before)) := by
  unfold XRPNotCreated.visitEntry
  cases v.before.elim (some 0) XRPNotCreated.drops with
  | none => rfl
  | some before =>
    cases v.after.elim (some 0) (XRPNotCreated.dropsAfter v.isDelete) with
    | none => rfl
    | some after =>
      have hsum : drops_ - before + after = drops_ + (after - before) := by omega
      simp [hsum]

theorem xrpNotCreated_commutes : XRPNotCreated.Commutes := by
  intro s a b
  cases s with
  | none => rfl
  | some drops_ =>
    simp only [InvariantChecker.visit, XRPNotCreated, Option.bind_some, xrpNotCreated_visitEntry]
    cases a.before.elim (some 0) XRPNotCreated.drops with
    | none => cases b.before.elim (some 0) XRPNotCreated.drops <;> simp
    | some x =>
      cases a.after.elim (some 0) (XRPNotCreated.dropsAfter a.isDelete) with
      | none => cases b.before.elim (some 0) XRPNotCreated.drops <;> simp
      | some y =>
        cases b.before.elim (some 0) XRPNotCreated.drops with
        | none => rfl
        | some x' =>
          cases b.after.elim (some 0) (XRPNotCreated.dropsAfter b.isDelete) with
          | none => rfl
          | some y' =>
            have hsum : drops_ + (y - x) + (y' - x') = drops_ + (y' - x') + (y - x) := by omega
            simp [hsum]

theorem ledgerEntryTypesMatch_verdict (tx : STTx) (result : TER) (fee : Int) :
    LedgerEntryTypesMatch.verdict visits tx result fee = (flagChecker fun v =>
      LedgerEntryTypesMatch.mismatch v || LedgerEntryTypesMatch.invalidType v).verdict visits tx result fee := by
  refine InvariantChecker.verdict_eq_of_hom (fun flags => flags.1 || flags.2) rfl (fun flags v => ?_)
    fun flags => ?_
  · simp [flagChecker, LedgerEntryTypesMatch, Bool.or_assoc, Bool.or_left_comm]
  · simp [flagChecker, LedgerEntryTypesMatch]

/-! ## Trust lines -/

namespace NoXRPTrustLines

/-- The trust lines that the changes leave all have an XRP limit or all have none. -/
def LinesAgree : Prop :=
  ∀ v ∈ visits, ∀ w ∈ visits, ∀ b b', resulting v = some b → resulting w = some b' → b = b'

theorem visitEntry_eq (s : Bool) (v : Visit) : visitEntry s v = (resulting v).getD s := by
  unfold visitEntry resulting
  split <;> rfl

theorem run_eq : NoXRPTrustLines.run visits = some (visits.foldl visitEntry false) := by
  exact List.foldl_hom some fun _ _ => rfl

theorem verdict_eq (tx : STTx) (result : TER) (fee : Int) :
    NoXRPTrustLines.verdict visits tx result fee = some (!visits.foldl visitEntry false) := by
  rw [InvariantChecker.verdict, run_eq]
  rfl

theorem verdict_last {v : Visit} {b : Bool} (hv : resulting v = some b)
    (tx : STTx) (result : TER) (fee : Int) :
    NoXRPTrustLines.verdict (visits ++ [v]) tx result fee = some (!b) := by
  rw [verdict_eq, List.foldl_append, List.foldl_cons, List.foldl_nil, visitEntry_eq, hv]
  rfl

variable {visits : List Visit}

theorem foldl_of_agree (h : LinesAgree visits) (s : Bool) : visits.foldl visitEntry s = true ↔
      (∃ v ∈ visits, resulting v = some true) ∨ (s = true ∧ ∀ v ∈ visits, resulting v = none) := by
  induction visits generalizing s with
  | nil => simp
  | cons v visits ih =>
    have htail : LinesAgree visits := fun a ha b hb =>
      h a (List.mem_cons_of_mem _ ha) b (List.mem_cons_of_mem _ hb)
    rw [List.foldl_cons, ih htail, visitEntry_eq]
    cases hv : resulting v with
    | none => simp [hv]
    | some b =>
      -- the lines that follow say what this one says
      have hsame : ∀ w ∈ visits, ∀ b', resulting w = some b' → b' = b := fun w hw b' hb' =>
        h w (List.mem_cons_of_mem _ hw) v List.mem_cons_self b' b hb' hv
      simp only [Option.getD_some, List.mem_cons, exists_eq_or_imp, forall_eq_or_imp, hv,
        Option.some.injEq, reduceCtorEq, false_and, and_false, or_false]
      constructor
      · rintro (⟨w, hw, hb'⟩ | ⟨rfl, -⟩)
        · exact .inl (hsame w hw true hb').symm
        · exact .inl rfl
      · rintro (rfl | ⟨w, hw, hb'⟩)
        · by_cases hnone : ∀ w ∈ visits, resulting w = none
          · exact .inr ⟨rfl, hnone⟩
          · obtain ⟨w, hw, hne⟩ := not_forall₂.1 hnone
            obtain ⟨b', hb'⟩ := Option.ne_none_iff_exists'.1 hne
            exact .inl ⟨w, hw, hsame w hw b' hb' ▸ hb'⟩
        · exact .inl ⟨w, hw, hb'⟩

theorem rejects_of_agree (h : LinesAgree visits) (tx : STTx) (result : TER) (fee : Int) :
    NoXRPTrustLines.verdict visits tx result fee = some false ↔
      ∃ v ∈ visits, resulting v = some true := by
  rw [verdict_eq, Option.some.injEq, Bool.not_eq_false', foldl_of_agree h]
  simp

theorem LinesAgree.perm {visits' : List Visit} (h : LinesAgree visits) (hp : visits'.Perm visits) :
    LinesAgree visits' := fun v hv w hw =>
  h v (hp.mem_iff.1 hv) w (hp.mem_iff.1 hw)

end NoXRPTrustLines

/-! ## Every entry -/

/-- What the changes that a transaction makes ought to come to. -/
structure SeesEveryEntry (visits : List Visit) (tx : STTx) (result : TER) (fee : Int) : Prop where
  order : ∀ visits', visits'.Perm visits →
    TransactionFeeCheck.verdict visits' tx result fee = TransactionFeeCheck.verdict visits tx result fee ∧
    AccountRootsNotDeleted.verdict visits' tx result fee =
      AccountRootsNotDeleted.verdict visits tx result fee ∧
    LedgerEntryTypesMatch.verdict visits' tx result fee =
      LedgerEntryTypesMatch.verdict visits tx result fee ∧
    XRPBalanceChecks.verdict visits' tx result fee = XRPBalanceChecks.verdict visits tx result fee ∧
    XRPNotCreated.verdict visits' tx result fee = XRPNotCreated.verdict visits tx result fee ∧
    NoXRPTrustLines.verdict visits' tx result fee = NoXRPTrustLines.verdict visits tx result fee ∧
    NoBadOffers.verdict visits' tx result fee = NoBadOffers.verdict visits tx result fee ∧
    NoZeroEscrow.verdict visits' tx result fee = NoZeroEscrow.verdict visits tx result fee
  roots : AccountRootsNotDeleted.verdict visits tx result fee = some false ↔
    ∃ v ∈ visits, AccountRootsNotDeleted.deletesRoot v
  types : LedgerEntryTypesMatch.verdict visits tx result fee = some false ↔
    ∃ v ∈ visits, LedgerEntryTypesMatch.mismatch v || LedgerEntryTypesMatch.invalidType v
  balances : XRPBalanceChecks.verdict visits tx result fee = some false ↔
    ∃ v ∈ visits, either XRPBalanceChecks.isBadEntry v
  lines : NoXRPTrustLines.verdict visits tx result fee = some false ↔
    ∃ v ∈ visits, NoXRPTrustLines.resulting v = some true
  offers : NoBadOffers.verdict visits tx result fee = some false ↔
    ∃ v ∈ visits, either NoBadOffers.isBadEntry v
  escrows : NoZeroEscrow.verdict visits tx result fee = some false ↔
    ∃ v ∈ visits, either NoZeroEscrow.isBadEntry v

/-- All the checkers see every entry, whatever order they come in, if and only if the trust lines
among them agree. -/
theorem seesEveryEntry_iff (tx : STTx) (result : TER) (fee : Int) :
    SeesEveryEntry visits tx result fee ↔ NoXRPTrustLines.LinesAgree visits := by
  constructor
  · intro h v hv w hw b b' hb hb'
    -- the order with `v` last and the order with `w` last
    have hlast : ∀ x ∈ visits, ∀ c, NoXRPTrustLines.resulting x = some c →
        NoXRPTrustLines.verdict visits tx result fee = some (!c) := by
      intro x hx c hc
      have hp : (visits.erase x ++ [x]).Perm visits :=
        List.perm_append_comm.trans ( List.perm_cons_erase hx).symm
      rw [← NoXRPTrustLines.verdict_last (visits.erase x) hc tx result fee]
      exact (h.order _ hp).2.2.2.2.2.1.symm
    have heq := (hlast v hv b hb).symm.trans (hlast w hw b' hb')
    simpa using heq
  · intro h
    refine
      { order := fun visits' hp => ?_
        roots := flagChecker_rejects visits tx result fee
        types := by rw [ledgerEntryTypesMatch_verdict, flagChecker_rejects]
        balances := flagChecker_rejects visits tx result fee
        lines := NoXRPTrustLines.rejects_of_agree h tx result fee
        offers := flagChecker_rejects visits tx result fee
        escrows := flagChecker_rejects visits tx result fee }
    refine ⟨transactionFeeCheck_commutes.verdict_perm hp tx result fee,
      flagChecker_commutes.verdict_perm hp tx result fee,
      by rw [ledgerEntryTypesMatch_verdict, ledgerEntryTypesMatch_verdict, flagChecker_commutes.verdict_perm hp],
      flagChecker_commutes.verdict_perm hp tx result fee,
      xrpNotCreated_commutes.verdict_perm hp tx result fee, ?_,
      flagChecker_commutes.verdict_perm hp tx result fee,
      flagChecker_commutes.verdict_perm hp tx result fee⟩
    have hrej := NoXRPTrustLines.rejects_of_agree h tx result fee
    have hrej' := NoXRPTrustLines.rejects_of_agree (h.perm hp) tx result fee
    have hiff : NoXRPTrustLines.verdict visits' tx result fee = some false ↔
        NoXRPTrustLines.verdict visits tx result fee = some false := by
      rw [hrej, hrej']
      exact exists_congr fun v => and_congr_left' hp.mem_iff
    rw [NoXRPTrustLines.verdict_eq, NoXRPTrustLines.verdict_eq] at hiff ⊢
    cases hx : visits'.foldl NoXRPTrustLines.visitEntry false <;>
      cases hy : visits.foldl NoXRPTrustLines.visitEntry false <;> simp_all

/-- A trust line with an XRP limit goes through when another trust line is visited after it. -/
theorem xrp_line_overlooked :
    ∃ xrpLine iouLine : Visit, NoXRPTrustLines.resulting xrpLine = some true ∧
      ∀ tx result fee,
        NoXRPTrustLines.verdict [xrpLine, iouLine] tx result fee = some true ∧
        NoXRPTrustLines.verdict [iouLine, xrpLine] tx result fee = some false ∧
        ¬ SeesEveryEntry [xrpLine, iouLine] tx result fee := by
  let iou : STAmount := STAmount.zeroOf ⟨5, 7⟩ false
  let xrpLine : Visit := { after := some (.rippleState { mValue := 0 } iou) }
  let iouLine : Visit := { after := some (.rippleState iou iou) }
  have hxrp : NoXRPTrustLines.resulting xrpLine = some true := by decide
  have hiou : NoXRPTrustLines.resulting iouLine = some false := by decide
  refine ⟨xrpLine, iouLine, hxrp, fun tx result fee => ?_⟩
  have hpass := NoXRPTrustLines.verdict_last [xrpLine] hiou tx result fee
  refine ⟨hpass, NoXRPTrustLines.verdict_last [iouLine] hxrp tx result fee, fun h => ?_⟩
  have hfail := h.lines.2 ⟨xrpLine, List.mem_cons_self, hxrp⟩
  rw [show [xrpLine, iouLine] = [xrpLine] ++ [iouLine] from rfl, hpass] at hfail
  cases hfail

end Ripple.Tx
