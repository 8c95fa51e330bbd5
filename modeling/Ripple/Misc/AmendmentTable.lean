import Ripple.Lib.HashMap
import Ripple.Lib.OrderedMap
import Ripple.Protocol.TER
import Ripple.Ledger.Entry

/-!
# Ripple.Misc.AmendmentTable

Voting on amendments. At a flag ledger `doVoting` counts the trusted validations that name an
amendment and compares the count with what the ledger records; its actions become
pseudo-transactions that `applyAmendment` runs in the next ledger.

* `AmendmentTable`: the amendments this server knows, with its vetoes. Nothing takes an amendment
  out of the table.
* `AmendmentSet`: the tally. `votes_poll` says what is counted.
* `status`: what the ledger says about one amendment. `status_applyAmendment` says everything that a
  pseudo-transaction does to it.
-/

namespace Ripple.Misc

open Protocol Ledger List

/-! ## The table -/

structure AmendmentState where
  vetoed : Bool := false
  enabled : Bool := false
  supported : Bool := false
deriving DecidableEq, Repr

structure AmendmentTable where
  amendmentMap_ : HashMap Uint256 AmendmentState
  unsupportedEnabled_ : Bool := false

namespace AmendmentTable

variable (t : AmendmentTable) (amendment : Uint256)

def state : AmendmentState := (t.amendmentMap_.lookup amendment).getD {}

def put (state : AmendmentState) : AmendmentTable :=
  { t with amendmentMap_ := t.amendmentMap_.insert amendment state }

def add : AmendmentTable := t.put amendment (t.state amendment)

def veto : Bool × AmendmentTable :=
  if (t.state amendment).vetoed then (false, t.add amendment)
  else (true, t.put amendment { t.state amendment with vetoed := true })

def unVeto : Bool × AmendmentTable :=
  match t.amendmentMap_.lookup amendment with
  | none => (false, t)
  | some s => if !s.vetoed then (false, t) else (true, t.put amendment { s with vetoed := false })

def enable : Bool × AmendmentTable :=
  let s := t.state amendment
  if s.enabled then (false, t.add amendment)
  else
    (true, { t.put amendment { s with enabled := true } with
      unsupportedEnabled_ := t.unsupportedEnabled_ || !s.supported })

def disable : Bool × AmendmentTable :=
  match t.amendmentMap_.lookup amendment with
  | none => (false, t)
  | some s => if !s.enabled then (false, t) else (true, t.put amendment { s with enabled := false })

end AmendmentTable

inductive TableCall where
  | veto (amendment : Uint256)
  | unVeto (amendment : Uint256)
  | enable (amendment : Uint256)
  | disable (amendment : Uint256)
  /-- A report on one amendment, which adds it to the table. -/
  | getJson (amendment : Uint256)

def TableCall.run (t : AmendmentTable) : TableCall → AmendmentTable
  | .veto a => (t.veto a).2
  | .unVeto a => (t.unVeto a).2
  | .enable a => (t.enable a).2
  | .disable a => (t.disable a).2
  | .getJson a => t.add a

variable {t : AmendmentTable} {a b : Uint256} {sle : Option Amendments}

theorem AmendmentTable.mem_put {s : AmendmentState} (h : b ∈ t.amendmentMap_) :
    b ∈ (t.put a s).amendmentMap_ :=
  (AList.mem_insert _).mpr (.inr h)

theorem AmendmentTable.mem_enable (h : b ∈ t.amendmentMap_) : b ∈ (t.enable a).2.amendmentMap_ := by
  simp only [AmendmentTable.enable]
  split
  · exact mem_put h
  · exact mem_put h

theorem TableCall.mem_run (call : TableCall) (h : b ∈ t.amendmentMap_) :
    b ∈ (call.run t).amendmentMap_ := by
  cases call with
  | veto a =>
    simp only [run, AmendmentTable.veto]
    split <;> exact AmendmentTable.mem_put h
  | unVeto a =>
    simp only [run, AmendmentTable.unVeto]
    split
    · exact h
    · split
      · exact h
      · exact AmendmentTable.mem_put h
  | enable a => exact AmendmentTable.mem_enable h
  | disable a =>
    simp only [run, AmendmentTable.disable]
    split
    · exact h
    · split
      · exact h
      · exact AmendmentTable.mem_put h
  | getJson a => exact AmendmentTable.mem_put h

/-! ## The tally -/

structure Validation where
  isTrusted : Bool
  /-- `sfAmendments`, if the field is there. -/
  amendments : Option (List Uint256)
deriving DecidableEq, Repr

structure AmendmentSet where
  votes_ : HashMap Uint256 Nat := ∅
  mTrustedValidations : Nat := 0
  mThreshold : Nat := 0

variable (majorityFraction_ : Nat) (s : AmendmentSet)

namespace AmendmentSet

def countVote (votes : HashMap Uint256 Nat) (amendment : Uint256) : HashMap Uint256 Nat :=
  votes.insert amendment ((votes.lookup amendment).getD 0 + 1)

def tally (amendments : List Uint256) : AmendmentSet :=
  { s with
    mTrustedValidations := s.mTrustedValidations + 1
    votes_ := amendments.foldl countVote s.votes_ }

def votes (amendment : Uint256) : Nat := (s.votes_.lookup amendment).getD 0

/-- A trusted validation casts each of its choices once; a ballot is a set. -/
def tallyTrusted (val : Validation) : AmendmentSet :=
  if val.isTrusted then s.tally (val.amendments.getD []).dedup else s

def poll (valSet : List Validation) : AmendmentSet :=
  let vote := valSet.foldl tallyTrusted {}
  { vote with mThreshold := max 1 (vote.mTrustedValidations * majorityFraction_ / 256) }

end AmendmentSet

variable (valSet : List Validation)

def trustedCount : Nat := valSet.countP fun val => val.isTrusted

def supportCount (amendment : Uint256) : Nat :=
  valSet.countP fun val => val.isTrusted && decide (amendment ∈ val.amendments.getD [])

def threshold (valSet : List Validation) : Nat :=
  max 1 (trustedCount valSet * majorityFraction_ / 256)

namespace AmendmentSet

theorem lookup_countVotes (votes : HashMap Uint256 Nat) {ballot : List Uint256} (h : ballot.Nodup)
    (a : Uint256) : ((ballot.foldl countVote votes).lookup a).getD 0 =
      (votes.lookup a).getD 0 + if a ∈ ballot then 1 else 0 := by
  induction ballot generalizing votes with
  | nil => simp
  | cons b ballot ih =>
    obtain ⟨hb, hrest⟩ := nodup_cons.mp h
    rw [foldl_cons, ih _ hrest, countVote, AList.lookup_insert_ite]
    by_cases hab : a = b
    · subst hab
      simp [hb]
    · simp [hab]

theorem votes_tallyTrusted (val : Validation) (a : Uint256) :
    (s.tallyTrusted val).votes a =
      s.votes a + if val.isTrusted && decide (a ∈ val.amendments.getD []) then 1 else 0 := by
  unfold tallyTrusted
  split
  · rename_i htrusted
    simp only [votes, tally]
    rw [lookup_countVotes _ (nodup_dedup _)]
    simp [htrusted]
  · rename_i htrusted
    simp [htrusted]

theorem votes_foldl (s : AmendmentSet) (a : Uint256) :
    (valSet.foldl tallyTrusted s).votes a = s.votes a + supportCount valSet a := by
  induction valSet generalizing s with
  | nil => rfl
  | cons val valSet ih =>
    rw [foldl_cons, ih, votes_tallyTrusted, supportCount, supportCount, countP_cons]
    omega

theorem trusted_foldl (s : AmendmentSet) :
    (valSet.foldl tallyTrusted s).mTrustedValidations = s.mTrustedValidations + trustedCount valSet := by
  induction valSet generalizing s with
  | nil => rfl
  | cons val valSet ih =>
    rw [foldl_cons, ih, trustedCount, trustedCount, countP_cons, tallyTrusted]
    split
    · simp only [tally]
      omega
    · omega

theorem votes_poll (valSet : List Validation) (a : Uint256) :
    (poll majorityFraction_ valSet).votes a = supportCount valSet a := by
  have h := votes_foldl valSet {} a
  simpa [poll, votes] using h

theorem threshold_poll (valSet : List Validation) :
    (poll majorityFraction_ valSet).mThreshold = threshold majorityFraction_ valSet := by
  have h := trusted_foldl valSet {}
  simp [poll, threshold, h]

end AmendmentSet

/-! ## Voting -/

def tfGotMajority : UInt32 := 0x00010000
def tfLostMajority : UInt32 := 0x00020000

structure Majority where
  amendment : Uint256
  closeTime : Nat
deriving DecidableEq, Repr

structure Amendments where
  amendments : List Uint256 := []
  majorities : Option (List Majority) := none
deriving DecidableEq, Repr

def Amendments.entries (obj : Amendments) : List Majority := obj.majorities.getD []

def getEnabledAmendments (sle : Option Amendments) : List Uint256 :=
  (sle.getD {}).amendments

def getMajorityAmendments (sle : Option Amendments) : OrderedMap Uint256 Nat :=
  (sle.getD {}).entries.foldl (fun ret m => ret.insert m.amendment m.closeTime) .empty

section Voting

variable (majorityTime_ majorityFraction_ : Nat)

/-- The action for one amendment of the table. The time zero stands for no majority. -/
def voteOn (closeTime : Nat) (enabledAmendments : List Uint256)
    (majorityAmendments : OrderedMap Uint256 Nat) (vote : AmendmentSet) (amendment : Uint256)
    (state : AmendmentState) : Option UInt32 :=
  let majorityTime := (majorityAmendments.find? amendment).getD 0
  let hasValMajority := vote.votes amendment ≥ vote.mThreshold
  if amendment ∈ enabledAmendments then none
  else if hasValMajority ∧ majorityTime = 0 ∧ !state.vetoed then some tfGotMajority
  else if ¬hasValMajority ∧ majorityTime ≠ 0 then some tfLostMajority
  else if majorityTime ≠ 0 ∧ majorityTime + majorityTime_ ≤ closeTime ∧ !state.vetoed then some 0
  else none

def recordAction (action : Uint256 → AmendmentState → Option UInt32)
    (actions : OrderedMap Uint256 UInt32) (entry : (_ : Uint256) × AmendmentState) :
    OrderedMap Uint256 UInt32 :=
  match action entry.1 entry.2 with
  | some flags => actions.insert entry.1 flags
  | none => actions

def doVoting (t : AmendmentTable) (closeTime : Nat) (enabledAmendments : List Uint256)
    (majorityAmendments : OrderedMap Uint256 Nat) (valSet : List Validation) :
    OrderedMap Uint256 UInt32 :=
  t.amendmentMap_.entries.foldl (recordAction (voteOn majorityTime_ closeTime enabledAmendments
    majorityAmendments (AmendmentSet.poll majorityFraction_ valSet))) .empty

theorem find?_recordActions (action : Uint256 → AmendmentState → Option UInt32)
    (actions : OrderedMap Uint256 UInt32) {es : List ((_ : Uint256) × AmendmentState)}
    (h : es.NodupKeys) (a : Uint256) : (es.foldl (recordAction action) actions).find? a =
      ((es.dlookup a).bind (action a)).or (actions.find? a) := by
  induction es generalizing actions with
  | nil => rfl
  | cons e es ih =>
    obtain ⟨hfresh, hrest⟩ := nodupKeys_cons.mp h
    have hhead : (recordAction action actions e).find? a =
        if a = e.1 then (action e.1 e.2).or (actions.find? a) else actions.find? a := by
      unfold recordAction
      cases action e.1 e.2 with
      | none => simp
      | some flags => simp [OrderedMap.find?_insert]
    rw [foldl_cons, ih _ hrest, hhead]
    by_cases ha : a = e.1
    · subst ha
      obtain ⟨k, state⟩ := e
      simp [dlookup_eq_none.mpr hfresh]
    · rw [dlookup_cons_ne (β := fun _ => AmendmentState) _ e ha, if_neg ha]

end Voting

/-! ## Applying an action -/

/-- The result, the server's table and the ledger entry. A result other than `tesSUCCESS` leaves the
ledger as it was. -/
def applyAmendment (t : AmendmentTable) (sle : Option Amendments) (parentCloseTime : Nat)
    (amendment : Uint256) (flags : UInt32) : TER × AmendmentTable × Option Amendments :=
  let amendmentObject := sle.getD {}
  let gotMajority := hasFlag flags tfGotMajority
  let lostMajority := hasFlag flags tfLostMajority
  let found := amendmentObject.entries.any fun m => m.amendment = amendment
  let newMajorities := amendmentObject.entries.filter fun m => m.amendment ≠ amendment
  if amendment ∈ amendmentObject.amendments then (TER.tefALREADY, t, sle)
  else if gotMajority && lostMajority then (TER.temINVALID_FLAG, t, sle)
  else if gotMajority && found then (TER.tefALREADY, t, sle)
  else if !found && lostMajority then (TER.tefALREADY, t, sle)
  else if gotMajority then
    (TER.tesSUCCESS, t, some { amendmentObject with
      majorities := some (newMajorities ++ [⟨amendment, parentCloseTime⟩]) })
  else
    -- the field is left out when it would be empty
    let majorities := if newMajorities.isEmpty then none else some newMajorities
    if lostMajority then (TER.tesSUCCESS, t, some { amendmentObject with majorities })
    else
      (TER.tesSUCCESS, (t.enable amendment).2,
        some { amendments := amendmentObject.amendments ++ [amendment], majorities })

/-! ## One amendment -/

/-- How often the ledger lists the amendment as enabled, and the times at which it records a
majority of it. -/
structure Status where
  enabled : Nat
  since : List Nat
deriving DecidableEq, Repr

def status (sle : Option Amendments) (amendment : Uint256) : Status where
  enabled := (sle.getD {}).amendments.count amendment
  since := ((sle.getD {}).entries.filter fun m => m.amendment = amendment).map Majority.closeTime

def Status.apply (s : Status) (parentCloseTime : Nat) (flags : UInt32) : Status :=
  let gotMajority := hasFlag flags tfGotMajority
  let lostMajority := hasFlag flags tfLostMajority
  if s.enabled ≠ 0 then s
  else if gotMajority && lostMajority then s
  else if gotMajority then (if s.since = [] then { s with since := [parentCloseTime] } else s)
  else if lostMajority then { s with since := [] }
  else ⟨1, []⟩

theorem since_eq_nil : (status sle a).since = [] ↔
    ((sle.getD {}).entries.any fun m => m.amendment = a) = false := by
  simp [status]

theorem count_eq_zero : (status sle a).enabled = 0 ↔ a ∉ (sle.getD {}).amendments := by
  simp [status, List.count_eq_zero]

theorem entries_some (amendments : List Uint256) (ms : List Majority) :
    Amendments.entries ⟨amendments, if ms.isEmpty then none else some ms⟩ = ms := by
  cases ms with
  | nil => rfl
  | cons m ms => rfl

theorem filter_others (ms : List Majority) (a b : Uint256) :
    (ms.filter fun m => m.amendment ≠ a).filter (fun m => m.amendment = b) =
      if b = a then [] else ms.filter fun m => m.amendment = b := by
  rw [filter_filter]
  split
  · rename_i hb
    subst hb
    simp
  · rename_i hb
    refine filter_congr fun m _ => ?_
    by_cases hm : m.amendment = b
    · simp [hm, hb]
    · simp [hm]

theorem status_rewritten (sle : Option Amendments) (a : Uint256) (added : List Majority)
    (listed : List Uint256) {obj : Amendments}
    (hentries : obj.entries = ((sle.getD {}).entries.filter fun m => m.amendment ≠ a) ++ added)
    (hlisted : obj.amendments = (sle.getD {}).amendments ++ listed) : status (some obj) b =
      ⟨(status sle b).enabled + listed.count b, (if b = a then [] else (status sle b).since) ++
        (added.filter fun m => m.amendment = b).map Majority.closeTime⟩ := by
  simp only [status, Option.getD_some, hentries, hlisted, filter_append, filter_others,
    count_append, map_append]
  split <;> rfl

theorem status_applyAmendment (t : AmendmentTable) (sle : Option Amendments) (parentCloseTime : Nat)
    (a : Uint256) (flags : UInt32) (b : Uint256) :
    status (applyAmendment t sle parentCloseTime a flags).2.2 b =
      if b = a then (status sle a).apply parentCloseTime flags else status sle b := by
  have hsame : (status sle b) = if b = a then status sle a else status sle b := by
    split
    · rename_i hb
      rw [hb]
    · rfl
  unfold applyAmendment Status.apply
  by_cases hlisted : a ∈ (sle.getD {}).amendments
  · have hcount : (status sle a).enabled ≠ 0 := fun h => count_eq_zero.mp h hlisted
    simp only [hlisted, if_true, hcount, ne_eq, not_false_eq_true]
    exact hsame
  have hcount : (status sle a).enabled = 0 := count_eq_zero.mpr hlisted
  simp only [hlisted, if_false, hcount, ne_eq, not_true_eq_false]
  by_cases hgot : hasFlag flags tfGotMajority
  · by_cases hlost : hasFlag flags tfLostMajority
    · simpa [hgot, hlost] using hsame
    · by_cases hfound : (status sle a).since = []
      · have hany := since_eq_nil.mp hfound
        simp only [hgot, hlost, hany, hfound, Bool.and_false, if_false, Bool.not_false,
          Bool.false_eq_true, if_true]
        rw [status_rewritten sle a [⟨a, parentCloseTime⟩] [] rfl (by simp)]
        by_cases hb : b = a
        · subst hb
          simp [hcount]
        · simp [hb, Ne.symm hb]
      · have hany : ((sle.getD {}).entries.any fun m => m.amendment = a) = true := by
          rw [← Bool.not_eq_false, ← since_eq_nil]
          exact hfound
        simpa [hgot, hlost, hany, hfound] using hsame
  · by_cases hlost : hasFlag flags tfLostMajority
    · by_cases hfound : (status sle a).since = []
      · have hany := since_eq_nil.mp hfound
        simp only [hgot, hlost, hany, Bool.false_and, if_false, Bool.not_false, Bool.true_and, if_true,
          Bool.false_eq_true]
        by_cases hb : b = a
        · subst hb
          simp [← hcount, ← hfound]
        · simp [hb]
      · have hany : ((sle.getD {}).entries.any fun m => m.amendment = a) = true := by
          rw [← Bool.not_eq_false, ← since_eq_nil]
          exact hfound
        simp only [hgot, hlost, hany, Bool.false_and, if_false, Bool.not_true, if_true,
          Bool.false_eq_true]
        rw [status_rewritten sle a [] [] (by rw [entries_some, append_nil]) (by simp)]
        by_cases hb : b = a
        · subst hb
          simp [hcount]
        · simp [hb]
    · simp only [hgot, hlost, Bool.false_and, Bool.and_false, if_false, Bool.false_eq_true]
      rw [status_rewritten sle a [] [a] (by rw [entries_some, append_nil]) rfl]
      by_cases hb : b = a
      · subst hb
        simp [hcount]
      · simp [hb, Ne.symm hb]

theorem find?_insertMajorities (ms : List Majority) (ret : OrderedMap Uint256 Nat) (a : Uint256) :
    (ms.foldl (fun ret m => ret.insert m.amendment m.closeTime) ret).find? a =
      ((ms.filter fun m => m.amendment = a).map Majority.closeTime).getLast?.or (ret.find? a) := by
  induction ms generalizing ret with
  | nil => rfl
  | cons m ms ih =>
    rw [foldl_cons, ih, OrderedMap.find?_insert]
    by_cases hm : m.amendment = a
    · simp only [hm, filter_cons, decide_true, if_true, map_cons, getLast?_cons]
      cases ((ms.filter fun m => m.amendment = a).map Majority.closeTime).getLast? with
      | none => simp
      | some time => simp
    · simp [hm, Ne.symm hm]

theorem find?_getMajorityAmendments (sle : Option Amendments) (a : Uint256) :
    (getMajorityAmendments sle).find? a = (status sle a).since.getLast? := by
  rw [getMajorityAmendments, find?_insertMajorities, OrderedMap.find?_empty, Option.or_none]
  rfl

end Ripple.Misc
